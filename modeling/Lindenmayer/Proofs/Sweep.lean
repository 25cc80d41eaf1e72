import Lindenmayer.Proofs.Contexts

/-!
# A generation by context

One sweep of contextual rules over a word. Every symbol has a successor of its own, or none,
told by the word as it was before the sweep; the successors are put together in order
(`rewrite_eq_mapM`).

A sweep goes through if the word is over the alphabet and no variable stands behind a `]`
that has no partner (`Rewritable`). Such a `]` is an error only if the scan to the left comes
to it, and the first variable behind it does: branches that are closed do not hide it
(`visibleBefore_of_unmatched`). Everything that is reported stands at the position that is
reported with it (`Blames`).
-/

namespace Lindenmayer

/-! ## Lists of outcomes -/

section Outcomes

variable {α β ε : Type} {f : α → Except ε β} {l : List α}

theorem forall₂_of_mapM_ok {l' : List β} (h : l.mapM f = .ok l') :
    List.Forall₂ (fun a b => f a = .ok b) l l' := by
  induction l generalizing l' with
  | nil =>
    obtain rfl : [] = l' := Except.ok.inj h
    exact .nil
  | cons a l ih =>
    rw [List.mapM_cons] at h
    cases hfirst : f a with
    | error e =>
      rw [hfirst] at h
      cases h
    | ok b =>
      cases hrest : l.mapM f with
      | error e =>
        rw [hfirst, hrest] at h
        cases h
      | ok bs =>
        rw [hfirst, hrest] at h
        obtain rfl : b :: bs = l' := Except.ok.inj h
        exact .cons hfirst (ih hrest)

theorem exists_mem_of_mapM_error {e : ε} (h : l.mapM f = .error e) : ∃ a ∈ l, f a = .error e := by
  induction l with
  | nil => cases h
  | cons a l ih =>
    rw [List.mapM_cons] at h
    cases hfirst : f a with
    | error e' =>
      rw [hfirst] at h
      obtain rfl : e' = e := Except.error.inj h
      exact ⟨a, List.mem_cons_self, hfirst⟩
    | ok b =>
      cases hrest : l.mapM f with
      | error e' =>
        rw [hfirst, hrest] at h
        obtain rfl : e' = e := Except.error.inj h
        obtain ⟨a', ha', herror⟩ := ih hrest
        exact ⟨a', List.mem_cons_of_mem a ha', herror⟩
      | ok bs =>
        rw [hfirst, hrest] at h
        cases h

end Outcomes

/-! ## Tables -/

namespace Context

theorem key_of_ofKey? {key : Word} {c : Context} (h : ofKey? key = some c) : key = c.key := by
  unfold ofKey? at h
  split at h
  · split_ifs at h
    obtain rfl := Option.some.inj h
    rfl
  · cases h

theorem key_injective : Function.Injective key := by
  rintro ⟨l, s, r⟩ ⟨l', s', r'⟩ h
  simpa [key] using h

end Context

namespace ContextRules

variable {rules : ContextRules} {table : ContextTable}

theorem compileEntry_eq_ok {e : Word × Word} {t : Context × Word} (h : compileEntry e = .ok t) :
    e = (t.1.key, t.2) ∧ t.2 ≠ [] := by
  unfold compileEntry at h
  split at h
  · next c hc =>
    split_ifs at h with hempty
    obtain rfl := Except.ok.inj h
    exact ⟨Prod.ext (Context.key_of_ofKey? hc) rfl, by simpa using hempty⟩
  · cases h

/-- A table has the entries of its rules, with their keys read. -/
theorem entries_of_compile (h : rules.compile = .ok table) :
    rules.entries = table.entries.map (fun t => (t.1.key, t.2)) ∧
      ∀ t ∈ table.entries, t.2 ≠ [] := by
  rw [compile] at h
  cases hentries : rules.entries.mapM compileEntry with
  | error e =>
    rw [hentries] at h
    cases h
  | ok l =>
    rw [hentries] at h
    obtain rfl := Except.ok.inj h
    have hl := (forall₂_of_mapM_ok hentries).imp fun e t => compileEntry_eq_ok
    constructor
    · rw [← List.forall₂_eq_eq_eq, List.forall₂_map_right_iff]
      exact hl.imp fun _ _ h => h.1
    · have hflip := hl.flip.imp fun _ _ h => And.symm h
      exact ((List.forall₂_and_left _ _).1 hflip).1

/-- A table finds what the rules have under the key of the context. -/
theorem get?_compile (h : rules.compile = .ok table) (l s r : Char) :
    table.get? (some l) s (some r) = rules.get? (Context.key ⟨l, s, r⟩) := by
  rw [get?, (entries_of_compile h).1, List.find?_map, ContextTable.get?, Option.map_map]
  congr 2
  funext t
  simp [Context.key_injective.eq_iff]

end ContextRules

namespace Contextual

open Word Set

variable {w : Word} {pos : ℕ}

/-- The symbols of contextual systems. -/
def alphabet : List Char := ['0', '1', 'F', '+', '-', '$', '[', ']']

theorem mem_alphabet_iff {c : Char} :
    c ∈ alphabet ↔ c ∈ ['0', '1'] ∨ c ∈ ['F', '+', '-', '$', '[', ']'] :=
  List.mem_append (s := ['0', '1'])

/-! ## Successors -/

/-- What the symbol `c` at a position becomes, told by the keys of the rules and by what
    stands next to the position. -/
def image (rules : ContextRules) (w : Word) (pos : ℕ) (c : Char) : Word :=
  if c = '+' then ['-']
  else if c = '-' then ['+']
  else if isBinary c then
    match leftContext w pos, rightContext w pos with
    | .ok (some l), .ok (some r) => (rules.get? (Context.key ⟨l, c, r⟩)).getD [c]
    | _, _ => [c]
  else [c]

/-- The successor of a symbol with its position. -/
def successorAt (table : ContextTable) (w : Word) (s : Char × ℕ) : Except Error Word :=
  successor table (before w s.2) s.1 s.2 (after w s.2)

theorem rewriteInto_eq (table : ContextTable) (w : Word) (pos : ℕ) (done : Word) :
    rewriteInto table done (before w pos) (w.zipIdx.drop pos) =
      ((w.zipIdx.drop pos).mapM (successorAt table w)).map fun l => done.reverse ++ l.flatten := by
  induction hn : w.length - pos generalizing pos done with
  | zero =>
    have hend : w.zipIdx.drop pos = [] := List.drop_eq_nil_of_le (by rw [List.length_zipIdx]; omega)
    rw [hend, rewriteInto, List.mapM_nil]
    simp [pure, Except.pure, Except.map]
  | succ n ih =>
    have hlt : pos < w.zipIdx.length := by rw [List.length_zipIdx]; omega
    have hc : w[pos]? = some w[pos] := List.getElem?_eq_getElem (by omega)
    have hcons : w.zipIdx.drop pos = (w[pos], pos) :: w.zipIdx.drop (pos + 1) := by
      rw [List.drop_eq_getElem_cons hlt, List.getElem_zipIdx, zero_add]
    rw [hcons, rewriteInto, ← before_succ hc, List.mapM_cons]
    have hsuccessor : successor table (before w pos) w[pos] pos (w.zipIdx.drop (pos + 1)) =
      successorAt table w (w[pos], pos) := rfl
    rw [hsuccessor]
    cases successorAt table w (w[pos], pos) with
    | error e => rfl
    | ok x =>
      dsimp only
      rw [ih (pos + 1) _ (by omega)]
      cases (w.zipIdx.drop (pos + 1)).mapM (successorAt table w) with
      | error e => rfl
      | ok l => simp [bind, Except.bind, pure, Except.pure, Except.map]

/-- The successors of the symbols of a word are put together in order. -/
theorem rewrite_eq_mapM (table : ContextTable) (w : Word) :
    rewrite table w = (w.zipIdx.mapM (successorAt table w)).map List.flatten :=
  rewriteInto_eq table w 0 []

variable {rules : ContextRules} {table : ContextTable} {c : Char} {x out : Word} {e : Error}

theorem successorAt_of_constant (rules : ContextRules) (table : ContextTable) (w : Word) (pos : ℕ)
    (hc : c ∈ ['F', '+', '-', '$', '[', ']']) :
    successorAt table w (c, pos) = .ok (image rules w pos c) := by
  simp only [List.mem_cons, List.not_mem_nil, or_false] at hc
  rcases hc with rfl | rfl | rfl | rfl | rfl | rfl <;> rfl

theorem successorAt_of_not_mem (table : ContextTable) (w : Word) (pos : ℕ) (hc : c ∉ alphabet) :
    successorAt table w (c, pos) = .error (.unsupportedSymbol c pos) := by
  simp_all [alphabet, successorAt, successor, isBinary]

theorem successorAt_variable (table : ContextTable) (w : Word) (pos : ℕ) (hc : c ∈ ['0', '1']) :
    successorAt table w (c, pos) = (leftContext w pos).bind fun left =>
      (rightContext w pos).bind fun right => .ok ((table.get? left c right).getD [c]) := by
  simp only [List.mem_cons, List.not_mem_nil, or_false] at hc
  rcases hc with rfl | rfl <;> rfl

/-- The successor of a variable with both contexts, found in the table or not. -/
theorem getD_get?_eq_image (hcompile : rules.compile = .ok table) (hc : c ∈ ['0', '1'])
    {left right : Option Char} (hleft : leftContext w pos = .ok left)
    (hright : rightContext w pos = .ok right) :
    (table.get? left c right).getD [c] = image rules w pos c := by
  have hplus : c ≠ '+' := by rintro rfl; simp at hc
  have hminus : c ≠ '-' := by rintro rfl; simp at hc
  rw [image, if_neg hplus, if_neg hminus, if_pos (isBinary_iff.2 hc), hleft, hright]
  cases left with
  | none => rfl
  | some l =>
    cases right with
    | none => rfl
    | some r => rw [ContextRules.get?_compile hcompile]

/-- A symbol that has a successor is in the alphabet and becomes what its image is; if it is a
    variable, both contexts have been found. -/
theorem successorAt_eq_ok (hcompile : rules.compile = .ok table)
    (h : successorAt table w (c, pos) = .ok x) :
    c ∈ alphabet ∧ x = image rules w pos c ∧
      (c ∈ ['0', '1'] → ∃ left, leftContext w pos = .ok left) := by
  by_cases hc : c ∈ alphabet
  · refine ⟨hc, ?_⟩
    rcases mem_alphabet_iff.1 hc with hvariable | hconstant
    · rw [successorAt_variable table w pos hvariable] at h
      cases hleft : leftContext w pos with
      | error e => simp [hleft, Except.bind] at h
      | ok left =>
        cases hright : rightContext w pos with
        | error e => simp [hleft, hright, Except.bind] at h
        | ok right =>
          rw [hleft, hright] at h
          obtain rfl := Except.ok.inj h
          exact ⟨getD_get?_eq_image hcompile hvariable hleft hright, fun _ => ⟨left, rfl⟩⟩
    · rw [successorAt_of_constant rules table w pos hconstant] at h
      refine ⟨(Except.ok.inj h).symm, fun hvariable => ?_⟩
      grind
  · rw [successorAt_of_not_mem table w pos hc] at h
    cases h

/-! ## Reports -/

/-- What may be reported of a word: a symbol outside the alphabet, or a `]` without a partner,
    at the position where it stands. -/
inductive Blames (w : Word) : Error → Prop
  | unsupported {c : Char} {p : ℕ} : w[p]? = some c → c ∉ alphabet →
    Blames w (.unsupportedSymbol c p)
  | unmatched {p : ℕ} : w[p]? = some ']' → (∀ a, ¬ Matched w a p) → Blames w (.stackUnderflow p)

theorem blames_of_leftContext (h : leftContext w pos = .error e) : Blames w e := by
  have hleft := leftNeighbour_leftContext w pos
  rw [h] at hleft
  cases hleft with
  | unmatched _ hc hno => exact .unmatched hc hno
  | unsupported hi hc hmem =>
    obtain ⟨-, d, hd, hstop⟩ := hi.1
    obtain rfl := Option.some.inj (hc.symm.trans hd)
    exact .unsupported hc (by simp_all [alphabet])

theorem blames_of_rightContext (h : rightContext w pos = .error e) : Blames w e := by
  have hright := rightNeighbour_rightContext w pos
  rw [h] at hright
  cases hright with
  | unsupported hj hc hmem =>
    obtain ⟨-, d, hd, hstop⟩ := hj.1
    obtain rfl := Option.some.inj (hc.symm.trans hd)
    exact .unsupported hc (by simp_all [alphabet])

/-- A symbol without a successor is to blame itself, or what one of its contexts comes to is. -/
theorem blames_of_successorAt (hc : w[pos]? = some c)
    (h : successorAt table w (c, pos) = .error e) : Blames w e := by
  by_cases hmem : c ∈ alphabet
  · rcases mem_alphabet_iff.1 hmem with hvariable | hconstant
    · rw [successorAt_variable table w pos hvariable] at h
      cases hleft : leftContext w pos with
      | error e' =>
        rw [hleft] at h
        obtain rfl : e' = e := Except.error.inj h
        exact blames_of_leftContext hleft
      | ok left =>
        cases hright : rightContext w pos with
        | error e' =>
          rw [hleft, hright] at h
          obtain rfl : e' = e := Except.error.inj h
          exact blames_of_rightContext hright
        | ok right =>
          rw [hleft, hright] at h
          cases h
    · rw [successorAt_of_constant .empty table w pos hconstant] at h
      cases h
  · rw [successorAt_of_not_mem table w pos hmem] at h
    obtain rfl := Except.error.inj h
    exact .unsupported hc hmem

/-! ## Words that can be rewritten -/

/-- A word over the alphabet in which no variable stands behind a `]` without a partner. -/
structure Rewritable (w : Word) : Prop where
  alphabet : ∀ c ∈ w, c ∈ alphabet
  unmatched : ∀ b, w[b]? = some ']' → (∀ a, ¬ Matched w a b) → ∀ p, b < p → ∀ c, w[p]? = some c →
    c ∉ ['0', '1']

/-- A `]` without a partner is in no branch, so no branch hides it. -/
theorem visibleBefore_of_unmatched {b : ℕ} (hb : w[b]? = some ']') (hno : ∀ a, ¬ Matched w a b)
    (hlt : b < pos) : VisibleBefore w pos b := by
  refine ⟨hlt, ?_⟩
  rintro ⟨a, b', hm, -, hab, hbb'⟩
  rcases hab.eq_or_lt with rfl | hab
  · exact absurd (hm.opening.symm.trans hb) (by decide)
  rcases hbb'.eq_or_lt with rfl | hbb'
  · exact hno a hm
  · obtain ⟨a', hm'⟩ := hm.exists_inside hab hbb' hb
    exact hno a' hm'

/-- Behind a `]` without a partner, a scan to the left that comes to an end has found a
    variable before it has come to the `]`. -/
theorem exists_variable_between {b : ℕ} {left : Option Char} (hb : w[b]? = some ']')
    (hno : ∀ a, ¬ Matched w a b) (hlt : b < pos) (h : leftContext w pos = .ok left) :
    ∃ i c, b < i ∧ i < pos ∧ w[i]? = some c ∧ c ∈ ['0', '1'] := by
  have hstop : b ∈ leftStops w pos := ⟨visibleBefore_of_unmatched hb hno hlt, ']', hb, by decide⟩
  have hleft := leftNeighbour_leftContext w pos
  rw [h] at hleft
  cases hleft with
  | absent hempty => exact absurd hstop (hempty ▸ notMem_empty b)
  | @found i c hi hc hmem =>
    refine ⟨i, c, (hi.2 hstop).lt_of_ne ?_, hi.1.1.1, hc, hmem⟩
    rintro rfl
    obtain rfl := Option.some.inj (hb.symm.trans hc)
    exact absurd hmem (by decide)

theorem rewritable_of_successorAt (hcompile : rules.compile = .ok table)
    (h : ∀ p c, w[p]? = some c → ∃ x, successorAt table w (c, p) = .ok x) : Rewritable w where
  alphabet c hc := by
    obtain ⟨p, hp⟩ := List.mem_iff_getElem?.1 hc
    obtain ⟨x, hx⟩ := h p c hp
    exact (successorAt_eq_ok hcompile hx).1
  unmatched b hb hno p hbp c hp hvariable := by
    -- Of the variables behind the `]`, the first one would have another one before it.
    induction p using Nat.strong_induction_on generalizing c with
    | _ p ih =>
      obtain ⟨x, hx⟩ := h p c hp
      obtain ⟨left, hleft⟩ := (successorAt_eq_ok hcompile hx).2.2 hvariable
      obtain ⟨i, d, hbi, hip, hi, hd⟩ := exists_variable_between hb hno hbp hleft
      exact ih i hip hbi d hi hd

theorem Rewritable.exists_leftContext (h : Rewritable w) (hc : w[pos]? = some c)
    (hvariable : c ∈ ['0', '1']) : ∃ left, leftContext w pos = .ok left := by
  have hleft := leftNeighbour_leftContext w pos
  generalize leftContext w pos = r at hleft ⊢
  cases hleft with
  | absent => exact ⟨_, rfl⟩
  | found => exact ⟨_, rfl⟩
  | @unmatched i hi hclose hno =>
    exact absurd hvariable (h.unmatched i hclose hno pos hi.1.1.1 c hc)
  | unsupported hi hd hmem =>
    obtain ⟨-, d, hd', hstop⟩ := hi.1
    obtain rfl := Option.some.inj (hd.symm.trans hd')
    have := h.alphabet _ (List.mem_of_getElem? hd)
    exact absurd this (by simp_all [Contextual.alphabet])

theorem Rewritable.exists_rightContext (h : Rewritable w) (pos : ℕ) :
    ∃ right, rightContext w pos = .ok right := by
  have hright := rightNeighbour_rightContext w pos
  generalize rightContext w pos = r at hright ⊢
  cases hright with
  | unsupported hj hd hmem =>
    obtain ⟨-, d, hd', hstop⟩ := hj.1
    obtain rfl := Option.some.inj (hd.symm.trans hd')
    have := h.alphabet _ (List.mem_of_getElem? hd)
    exact absurd this (by simp_all [Contextual.alphabet])
  | _ => exact ⟨_, rfl⟩

theorem Rewritable.exists_successorAt (h : Rewritable w) (table : ContextTable)
    (hc : w[pos]? = some c) : ∃ x, successorAt table w (c, pos) = .ok x := by
  rcases mem_alphabet_iff.1 (h.alphabet c (List.mem_of_getElem? hc)) with hvariable | hconstant
  · obtain ⟨left, hleft⟩ := h.exists_leftContext hc hvariable
    obtain ⟨right, hright⟩ := h.exists_rightContext pos
    rw [successorAt_variable table w pos hvariable, hleft, hright]
    exact ⟨_, rfl⟩
  · exact ⟨_, successorAt_of_constant .empty table w pos hconstant⟩

/-! ## Sweeps -/

theorem mapM_of_rewrite (h : rewrite table w = .ok out) :
    ∃ l, w.zipIdx.mapM (successorAt table w) = .ok l ∧ out = l.flatten := by
  rw [rewrite_eq_mapM] at h
  cases hmap : w.zipIdx.mapM (successorAt table w) with
  | error e =>
    rw [hmap] at h
    cases h
  | ok l =>
    rw [hmap] at h
    exact ⟨l, rfl, (Except.ok.inj h).symm⟩

theorem exists_mem_of_rewrite_error (h : rewrite table w = .error e) :
    ∃ pos c, w[pos]? = some c ∧ successorAt table w (c, pos) = .error e := by
  rw [rewrite_eq_mapM] at h
  cases hmap : w.zipIdx.mapM (successorAt table w) with
  | ok l =>
    rw [hmap] at h
    cases h
  | error e' =>
    rw [hmap] at h
    obtain rfl : e' = e := Except.error.inj h
    obtain ⟨s, hs, herror⟩ := exists_mem_of_mapM_error hmap
    exact ⟨s.2, s.1, List.mem_zipIdx_iff_getElem?.1 hs, herror⟩

/-- What a sweep writes are the images of the symbols, in order. -/
theorem rewrite_eq_flatMap (hcompile : rules.compile = .ok table) (h : rewrite table w = .ok out) :
    out = w.zipIdx.flatMap fun s => image rules w s.2 s.1 := by
  obtain ⟨l, hmap, rfl⟩ := mapM_of_rewrite h
  have himages : List.Forall₂ (fun s x => x = image rules w s.2 s.1) w.zipIdx l :=
    (forall₂_of_mapM_ok hmap).imp fun s x hx => (successorAt_eq_ok hcompile hx).2.1
  rw [List.flatMap_def]
  congr 1
  rw [← List.forall₂_eq_eq_eq, List.forall₂_map_right_iff]
  exact himages.flip

theorem rewritable_of_rewrite (hcompile : rules.compile = .ok table)
    (h : rewrite table w = .ok out) : Rewritable w := by
  obtain ⟨l, hmap, -⟩ := mapM_of_rewrite h
  have hmaps : List.Forall₂ (fun s x => (∃ y, successorAt table w s = .ok y) ∧
      successorAt table w s = .ok x) w.zipIdx l :=
    (forall₂_of_mapM_ok hmap).imp fun s x hx => ⟨⟨x, hx⟩, hx⟩
  obtain ⟨hall, -⟩ := (List.forall₂_and_left _ _).1 hmaps
  exact rewritable_of_successorAt hcompile fun p c hc =>
    hall (c, p) (List.mem_zipIdx_iff_getElem?.2 hc)

theorem Rewritable.exists_rewrite (h : Rewritable w) (table : ContextTable) :
    ∃ out, rewrite table w = .ok out := by
  cases hrewrite : rewrite table w with
  | ok out => exact ⟨out, rfl⟩
  | error e =>
    obtain ⟨pos, c, hc, herror⟩ := exists_mem_of_rewrite_error hrewrite
    obtain ⟨x, hx⟩ := h.exists_successorAt table hc
    rw [herror] at hx
    cases hx

/-- **One generation by context.** A sweep goes through exactly on the words over the alphabet
    in which no variable stands behind a `]` without a partner. It then writes the images of
    the symbols, position by position; if it does not go through, what it reports stands in
    the word at the position that it reports. -/
theorem rewrite_ok_iff_rewritable (hcompile : rules.compile = .ok table) (w : Word) :
    ((∃ out, rewrite table w = .ok out) ↔ Rewritable w) ∧
      (∀ out, rewrite table w = .ok out →
        out = w.zipIdx.flatMap fun s => image rules w s.2 s.1) ∧
      ∀ e, rewrite table w = .error e → Blames w e := by
  refine ⟨⟨?_, fun h => h.exists_rewrite table⟩, fun out h => rewrite_eq_flatMap hcompile h, ?_⟩
  · rintro ⟨out, h⟩
    exact rewritable_of_rewrite hcompile h
  · intro e h
    obtain ⟨pos, c, hc, herror⟩ := exists_mem_of_rewrite_error h
    exact blames_of_successorAt hc herror

/-- A rule by which a `1` between two `0` grows a branch. -/
def budding : ContextRules :=
  .ofList [(Context.key ⟨'0', '1', '0'⟩, ['1', '[', '1', ']'])]

/-- The `1` behind the branch buds and the one inside does not; behind a `]` without a partner
    no variable has a context. -/
theorem rewrite_ok_iff_rewritable_budding :
    budding.compile = .ok ⟨[(⟨'0', '1', '0'⟩, ['1', '[', '1', ']'])]⟩ ∧
      Rewritable ['0', '[', '1', ']', '1', '+', '0'] ∧
      ((['0', '[', '1', ']', '1', '+', '0'].zipIdx.flatMap fun s =>
        image budding ['0', '[', '1', ']', '1', '+', '0'] s.2 s.1) =
          ['0', '[', '1', ']', '1', '[', '1', ']', '-', '0']) ∧
      ¬ Rewritable ['0', '[', ']', ']', '1'] ∧
      Blames ['0', '[', ']', ']', '1'] (.stackUnderflow 3) := by
  have hcompile : budding.compile = .ok ⟨[(⟨'0', '1', '0'⟩, ['1', '[', '1', ']'])]⟩ := rfl
  have hok := rewrite_ok_iff_rewritable hcompile ['0', '[', '1', ']', '1', '+', '0']
  have hfails := rewrite_ok_iff_rewritable hcompile ['0', '[', ']', ']', '1']
  have hunmatched : ¬ Rewritable ['0', '[', ']', ']', '1'] := by
    intro h
    obtain ⟨out, hout⟩ := hfails.1.2 h
    cases hout
  exact ⟨hcompile, hok.1.1 ⟨_, rfl⟩, (hok.2.1 _ rfl).symm, hunmatched, hfails.2.2 _ rfl⟩

end Contextual

end Lindenmayer

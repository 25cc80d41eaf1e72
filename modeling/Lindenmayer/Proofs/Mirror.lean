import Lindenmayer.Proofs.InStep
import Lindenmayer.Proofs.Sweep

/-!
# Mirrored plants

In a mirror the turns of a word change sides. Contextual rules do not see which side a turn is to:
the scans for the neighbours pass over turns of either side (`leftScan_turn`, `rightScan_turn`),
and what is reported is no turn. So a sweep by mirrored replacements makes of the mirrored word the
mirror of what it made of the word (`rewrite_mirror`), and derivations go in step with those in the
mirror.

Rules without entries leave everything but the turns as it is, and these change sides in each
sweep. Such a sweep is itself a mirror (`rewrite_empty`).

* `derive_mirror`: contextual derivations in a mirror, and those by no rules.
-/

namespace Lindenmayer

/-! ## Mirrors -/

namespace Word

/-- The symbol in a mirror: the turns change sides. -/
def mirrorSymbol (c : Char) : Char := if c = '+' then '-' else if c = '-' then '+' else c

/-- The word with its turns to the other side. -/
def mirror (w : Word) : Word := w.map mirrorSymbol

/-- Whether a symbol turns to one of the sides. -/
def IsTurn (c : Char) : Prop := c = '+' ∨ c = '-'

variable {c : Char} {w : Word}

theorem isTurn_mirrorSymbol (h : IsTurn c) : IsTurn (mirrorSymbol c) := by
  rcases h with rfl | rfl
  · exact .inr rfl
  · exact .inl rfl

theorem mirrorSymbol_of_not_isTurn (h : ¬ IsTurn c) : mirrorSymbol c = c := by
  rw [mirrorSymbol, if_neg fun hc => h (.inl hc), if_neg fun hc => h (.inr hc)]

theorem involutive_mirrorSymbol : Function.Involutive mirrorSymbol := by
  intro c
  by_cases h : IsTurn c
  · rcases h with rfl | rfl <;> rfl
  · rw [mirrorSymbol_of_not_isTurn h, mirrorSymbol_of_not_isTurn h]

theorem involutive_mirror : Function.Involutive mirror := by
  intro w
  rw [mirror, mirror, List.map_map, involutive_mirrorSymbol.comp_self, List.map_id]

theorem mirror_eq_nil_iff : mirror w = [] ↔ w = [] := List.map_eq_nil_iff

theorem byteLength_mirror (w : Word) : (mirror w).byteLength = w.byteLength := by
  have hsize (c : Char) : (mirrorSymbol c).utf8Size = c.utf8Size := by
    by_cases h : IsTurn c
    · rcases h with rfl | rfl <;> rfl
    · rw [mirrorSymbol_of_not_isTurn h]
  rw [mirror, byteLength, byteLength, List.foldr_map]
  simp only [hsize]

end Word

open Word

/-- An entry of rules or of a table, with its replacement in a mirror. -/
def mirrorEntry {α : Type} (entry : α × Word) : α × Word := (entry.1, mirror entry.2)

/-- The rules with their replacements in a mirror, under the same keys. -/
def ContextRules.mirror (rules : ContextRules) : ContextRules :=
  ⟨rules.entries.map mirrorEntry, List.pairwise_map.2 rules.sorted⟩

def ContextTable.mirror (table : ContextTable) : ContextTable := ⟨table.entries.map mirrorEntry⟩

theorem ContextTable.get?_mirror (table : ContextTable) (left : Option Char) (strict : Char)
    (right : Option Char) :
    table.mirror.get? left strict right = (table.get? left strict right).map Word.mirror := by
  cases left with
  | none => rfl
  | some l =>
    cases right with
    | none => rfl
    | some r =>
      rw [get?, get?, mirror, List.find?_map, Option.map_map, Option.map_map]
      rfl

namespace ContextRules

theorem compileEntry_mirror (entry : Word × Word) :
    compileEntry (mirrorEntry entry) = (compileEntry entry).map mirrorEntry := by
  have hempty : (Word.mirror entry.2).isEmpty = entry.2.isEmpty := List.isEmpty_map
  simp only [compileEntry, mirrorEntry, hempty]
  cases Context.ofKey? entry.1 with
  | none => rfl
  | some context =>
    dsimp only
    split_ifs <;> rfl

/-- The rules in a mirror are valid if the rules are, and they have the same fault if not. -/
theorem compile_mirror (rules : ContextRules) :
    rules.mirror.compile = rules.compile.map ContextTable.mirror := by
  have hentries (entries : List (Word × Word)) : (entries.map mirrorEntry).mapM compileEntry =
      (entries.mapM compileEntry).map (List.map mirrorEntry) := by
    induction entries with
    | nil => rfl
    | cons entry entries ih =>
      rw [List.map_cons, List.mapM_cons, List.mapM_cons, ih, compileEntry_mirror]
      cases compileEntry entry with
      | error e => rfl
      | ok t => cases entries.mapM compileEntry <;> rfl
  rw [compile, compile, mirror, hentries]
  cases rules.entries.mapM compileEntry <;> rfl

end ContextRules

namespace Contextual

/-! ## Neighbours -/

/-- A symbol with its position, in a mirror. -/
def mirrorAt (s : Char × ℕ) : Char × ℕ := (mirrorSymbol s.1, s.2)

variable {c : Char}

/-- The scan to the left passes over turns. -/
theorem leftScan_turn (h : IsTurn c) (depth close i : ℕ) (l : List (Char × ℕ)) :
    leftScan depth close ((c, i) :: l) = leftScan depth close l := by
  rcases h with rfl | rfl <;> cases depth <;> rfl

/-- The scan to the right passes over turns. -/
theorem rightScan_turn (h : IsTurn c) (depth i : ℕ) (l : List (Char × ℕ)) :
    rightScan depth ((c, i) :: l) = rightScan depth l := by
  rcases h with rfl | rfl <;> cases depth <;> rfl

theorem leftScan_mirror (depth close : ℕ) (l : List (Char × ℕ)) :
    leftScan depth close (l.map mirrorAt) = leftScan depth close l := by
  induction l generalizing depth close with
  | nil => rfl
  | cons s l ih =>
    obtain ⟨c, i⟩ := s
    rw [List.map_cons, mirrorAt]
    by_cases h : IsTurn c
    · rw [leftScan_turn (isTurn_mirrorSymbol h), leftScan_turn h, ih]
    · rw [mirrorSymbol_of_not_isTurn h]
      cases depth <;> simp only [leftScan, ih]

theorem rightScan_mirror (depth : ℕ) (l : List (Char × ℕ)) :
    rightScan depth (l.map mirrorAt) = rightScan depth l := by
  induction l generalizing depth with
  | nil => rfl
  | cons s l ih =>
    obtain ⟨c, i⟩ := s
    rw [List.map_cons, mirrorAt]
    by_cases h : IsTurn c
    · rw [rightScan_turn (isTurn_mirrorSymbol h), rightScan_turn h, ih]
    · rw [mirrorSymbol_of_not_isTurn h]
      cases depth <;> simp only [rightScan, ih]

/-! ## Sweeps -/

theorem mirror_singleton (h : ¬ IsTurn c) : mirror [c] = [c] :=
  congrArg (fun d => [d]) (mirrorSymbol_of_not_isTurn h)

theorem successor_mirror (table : ContextTable) (before : List (Char × ℕ)) (c : Char) (i : ℕ)
    (after : List (Char × ℕ)) :
    successor table.mirror (before.map mirrorAt) (mirrorSymbol c) i (after.map mirrorAt) =
      (successor table before c i after).map mirror := by
  by_cases h : IsTurn c
  · rcases h with rfl | rfl <;> rfl
  have hplus : c ≠ '+' := fun hc => h (.inl hc)
  have hminus : c ≠ '-' := fun hc => h (.inr hc)
  rw [mirrorSymbol_of_not_isTurn h]
  simp only [successor, if_neg hplus, if_neg hminus, leftScan_mirror, rightScan_mirror]
  split_ifs
  · exact congrArg Except.ok (mirror_singleton h).symm
  · cases leftScan 0 0 before with
    | error e => rfl
    | ok left =>
      cases rightScan 0 after with
      | error e => rfl
      | ok right =>
        simp only [bind, Except.bind, ContextTable.get?_mirror]
        cases table.get? left c right with
        | none => exact congrArg Except.ok (mirror_singleton h).symm
        | some x => rfl
  · rfl

theorem rewriteInto_mirror (table : ContextTable) (done : Word) (before after : List (Char × ℕ)) :
    rewriteInto table.mirror (mirror done) (before.map mirrorAt) (after.map mirrorAt) =
      (rewriteInto table done before after).map mirror := by
  induction after generalizing done before with
  | nil => exact congrArg Except.ok List.map_reverse.symm
  | cons s after ih =>
    obtain ⟨c, i⟩ := s
    have hsuccessor := successor_mirror table before c i after
    rw [List.map_cons, mirrorAt, rewriteInto, rewriteInto, hsuccessor]
    cases successor table before c i after with
    | error e => rfl
    | ok x =>
      have hdone : (mirror x).reverse ++ mirror done = mirror (x.reverse ++ done) := by
        simp [mirror]
      simp only [Except.map, hdone]
      exact ih (x.reverse ++ done) ((c, i) :: before)

/-- A sweep in a mirror is the mirror of the sweep. -/
theorem rewrite_mirror (table : ContextTable) (w : Word) :
    rewrite table.mirror (mirror w) = (rewrite table w).map mirror := by
  rw [rewrite, rewrite, mirror, List.zipIdx_map]
  exact rewriteInto_mirror table [] [] w.zipIdx

theorem inStep_mirror (table : ContextTable) :
    Derivation.InStep mirror (Derivation.contextualStep table)
      (Derivation.contextualStep table.mirror) := by
  intro w _ _
  rw [Derivation.contextualStep, Derivation.contextualStep, rewrite_mirror]
  cases rewrite table w <;> rfl

/-- Without rules, a sweep is a mirror. -/
theorem rewrite_empty {w out : Word} (h : rewrite ⟨[]⟩ w = .ok out) : out = mirror w := by
  have hcompile : ContextRules.empty.compile = .ok ⟨[]⟩ := rfl
  have himage (s : Char × ℕ) : image .empty w s.2 s.1 = [mirrorSymbol s.1] := by
    simp only [image, mirrorSymbol]
    split_ifs
    · rfl
    · rfl
    · split <;> rfl
    · rfl
  calc out = w.zipIdx.flatMap fun s => image .empty w s.2 s.1 := rewrite_eq_flatMap hcompile h
    _ = w.zipIdx.map fun s => mirrorSymbol s.1 := by simp only [himage, List.map_eq_flatMap]
    _ = (w.zipIdx.map Prod.fst).map mirrorSymbol := by rw [List.map_map]; rfl
    _ = mirror w := by rw [List.zipIdx_map_fst, mirror]

end Contextual

/-! ## Derivations -/

variable {start : Word} {options : Derivation.Options}

theorem derive_mirror_eq_map (rules : ContextRules) (order : ℕ) (start : Word)
    (options : Derivation.Options) :
    derive order (mirror start) (.contextual rules.mirror) options =
      (derive order start (.contextual rules) options).map mirror := by
  by_cases hne : start = []
  · subst hne
    rfl
  have hne' : mirror start ≠ [] := mirror_eq_nil_iff.not.2 hne
  have hmirror := rules.compile_mirror
  cases hcompile : rules.compile with
  | error e =>
    rw [hcompile] at hmirror
    have hinvalid : RuleSet.validate (.contextual rules) = .error e := map_eq_error_iff.2 hcompile
    have hinvalid' : RuleSet.validate (.contextual rules.mirror) = .error e :=
      map_eq_error_iff.2 hmirror
    rw [derive_of_invalid hne hinvalid, derive_of_invalid hne' hinvalid']
    rfl
  | ok table =>
    rw [hcompile] at hmirror
    exact (drives_contextual hcompile options.seed).derive_inStep
      (drives_contextual hmirror options.seed) byteLength_mirror (Contextual.inStep_mirror table)
      hne hne' order

/-- Without rules, the generations are mirrors in turn, if the first one goes through and no deadline
    passes. -/
theorem Contextual.generation_empty {w : Word}
    (hfirst : Derivation.generation (Derivation.contextualStep ⟨[]⟩) options 1 start () =
      .ok (w, ())) (n : ℕ) {number : ℕ} (hexpired : options.expired.before number = false) :
    Derivation.generation (Derivation.contextualStep ⟨[]⟩) options number (mirror^[n] start) () =
      .ok (mirror^[n + 1] start, ()) := by
  induction n with
  | zero =>
    obtain ⟨-, hsweep, hlimit⟩ := Derivation.generation_eq_ok_iff.1 hfirst
    obtain ⟨out, hout, hw⟩ := map_eq_ok_iff.1 hsweep
    obtain rfl : out = w := congrArg Prod.fst hw
    obtain rfl := rewrite_empty hout
    exact Derivation.generation_eq_ok_iff.2 ⟨hexpired, hsweep, hlimit⟩
  | succ n ih =>
    have hstep := Derivation.generation_inStep byteLength_mirror (inStep_mirror ⟨[]⟩) options number
      (mirror^[n] start) () ()
    rw [ih] at hstep
    obtain ⟨s, hs, hmirror⟩ := map_eq_ok_iff.1 hstep
    obtain rfl : s = (mirror (mirror^[n + 1] start), ()) := Prod.ext hmirror rfl
    rw [Function.iterate_succ_apply', Function.iterate_succ_apply' mirror (n + 1)]
    exact hs

/-- Without rules, each generation is the mirror of the one before. -/
theorem derive_empty_eq_iterate {w : Word} {order : ℕ}
    (hexpired : ∀ number, 0 < number → number ≤ order → options.expired.before number = false)
    (hfirst : derive 1 start (.contextual .empty) options = .ok w) :
    derive order start (.contextual .empty) options = .ok (mirror^[order] start) := by
  have hne : start ≠ [] := by
    rintro rfl
    cases hfirst
  have hcompile : ContextRules.empty.compile = .ok ⟨[]⟩ := rfl
  rw [derive_contextual hne hcompile] at hfirst ⊢
  obtain ⟨s, hs, -⟩ := map_eq_ok_iff.1 hfirst
  rw [Derivation.generations_one] at hs
  have hrun : ∀ count ≤ order,
      Derivation.generations (Derivation.contextualStep ⟨[]⟩) options count 1 start () =
        .ok (mirror^[count] start, ()) := by
    intro count hcount
    induction count with
    | zero => rfl
    | succ count ih =>
      have hnot := hexpired (1 + count) (by omega) (by omega)
      rw [Derivation.generations_add, ih (by omega)]
      simp only [Except.bind, Derivation.generations_one,
        Contextual.generation_empty hs count hnot]
  rw [hrun order le_rfl]
  rfl

/-- **Contextual derivations commute with mirrors.** Whatever the rules, the start, the order and
    the options are, a derivation of the mirrored start by rules with mirrored replacements comes
    to the mirror of what the derivation of the start by the rules comes to, and if one of them
    fails, so does the other, with the same error. By no rules, from a start of which there is a
    first generation, and as long as no deadline passes, a derivation comes to the start at an even
    order and to its mirror at an odd one. -/
theorem derive_mirror (order : ℕ) (start : Word) (options : Derivation.Options) :
    (∀ rules : ContextRules, derive order (mirror start) (.contextual rules.mirror) options =
      (derive order start (.contextual rules) options).map mirror) ∧
    ((∀ number, 0 < number → number ≤ order → options.expired.before number = false) →
      (∃ w, derive 1 start (.contextual .empty) options = .ok w) →
      derive order start (.contextual .empty) options =
        .ok (if Even order then start else mirror start)) := by
  refine ⟨fun rules => derive_mirror_eq_map rules order start options, ?_⟩
  rintro hexpired ⟨w, hfirst⟩
  rw [derive_empty_eq_iterate hexpired hfirst]
  split_ifs with heven
  · rw [involutive_mirror.iterate_even heven, id_eq]
  · rw [involutive_mirror.iterate_odd (Nat.not_even_iff_odd.1 heven)]

/-- A rule by which a `1` between two `0` grows a branch to the left and a twig in it to the
    right. -/
def leaning : ContextRules :=
  .ofList [(Context.key ⟨'0', '1', '0'⟩, ['1', '[', '+', 'F', '[', '-', 'F', ']', ']'])]

/-- In the mirror, the branch grows to the right and the twig to the left. A symbol that is to blame
    is the same there. Without rules, a turn has changed its side after three generations. -/
theorem derive_mirror_leaning :
    derive 1 ['0', '+', '1', '-', '0'] (.contextual leaning) =
      .ok ['0', '-', '1', '[', '+', 'F', '[', '-', 'F', ']', ']', '+', '0'] ∧
    derive 1 ['0', '-', '1', '+', '0'] (.contextual leaning.mirror) =
      .ok ['0', '+', '1', '[', '-', 'F', '[', '+', 'F', ']', ']', '-', '0'] ∧
    derive 2 ['-', '0', 'X'] (.contextual leaning.mirror) = .error (.unsupportedSymbol 'X' 2) ∧
    (∃ w, derive 1 ['+', '0'] (.contextual .empty) = .ok w) ∧
    derive 3 ['+', '0'] (.contextual .empty) = .ok ['-', '0'] := by
  have hgrows : derive 1 ['0', '+', '1', '-', '0'] (.contextual leaning) =
    .ok ['0', '-', '1', '[', '+', 'F', '[', '-', 'F', ']', ']', '+', '0'] := rfl
  have hblames : derive 2 ['+', '0', 'X'] (.contextual leaning) =
    .error (.unsupportedSymbol 'X' 2) := rfl
  have hfirst : ∃ w, derive 1 ['+', '0'] (.contextual .empty) = .ok w := ⟨['-', '0'], rfl⟩
  obtain ⟨hmirror, -⟩ := derive_mirror 1 ['0', '+', '1', '-', '0'] {}
  obtain ⟨hmirror', -⟩ := derive_mirror 2 ['+', '0', 'X'] {}
  obtain ⟨-, halternates⟩ := derive_mirror 3 ['+', '0'] {}
  exact ⟨hgrows, (hmirror leaning).trans (congrArg (Except.map mirror) hgrows),
    (hmirror' leaning).trans (congrArg (Except.map mirror) hblames), hfirst,
    halternates (fun _ _ _ => rfl) hfirst⟩

end Lindenmayer

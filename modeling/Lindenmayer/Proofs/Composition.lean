import Lindenmayer.Proofs.Reading

/-!
# Words composed of headings and symbols

A word in which every `(` opens a heading is a sequence of headings in parentheses and of
symbols that stand for themselves (`Composed`). A composed word can be cut between two of
its parts, and then it is read part by part (`readFrom_append`), or inside a heading
(`Composed.cut`); it is never cut inside a heading at a symbol that headings are not
written with (`Composed.cut_at`), nor between two turns that undo each other
(`Composed.cut_opposite`). One sweep tells whether a word is composed
(`Composed.recognise_iff`).

Position by position, a word is well written if each `(` opens a heading and the symbols
of headings stand in headings only (`WellWritten`). These are the composed words whose
other symbols are none of those (`WellWritten.tidy`, `wellWritten_of_tidy`).
-/

namespace Lindenmayer

open Word

/-- A word composed of headings in parentheses and of other symbols with a property. -/
inductive Composed (P : Char → Prop) : Word → Prop
  | nil : Composed P []
  | symbol {c : Char} {w : Word} : c ≠ '(' → P c → Composed P w → Composed P (c :: w)
  | heading {literal w : Word} {d : Decimal} : (∀ c ∈ literal, isHeadingSymbol c) →
    Decimal.read? literal = some d → Composed P w → Composed P ('(' :: (literal ++ ')' :: w))

namespace Composed

variable {P Q : Char → Prop} {c a b : Char} {u v w : Word}

theorem append (hu : Composed P u) (hv : Composed P v) : Composed P (u ++ v) := by
  induction hu with
  | nil => exact hv
  | symbol hc hp _ ih => exact .symbol hc hp ih
  | heading hliteral hread _ ih =>
    rw [List.cons_append, List.append_assoc]
    exact .heading hliteral hread ih

theorem of_forall (h : ∀ c ∈ w, c ≠ '(' ∧ P c) : Composed P w := by
  induction w with
  | nil => exact .nil
  | cons c w ih =>
    obtain ⟨⟨hopen, hc⟩, hw⟩ := List.forall_mem_cons.1 h
    exact .symbol hopen hc (ih hw)

theorem of_cons (h : Composed P (c :: w)) (hc : c ≠ '(') : P c ∧ Composed P w := by
  cases h with
  | symbol _ hp hw => exact ⟨hp, hw⟩
  | heading => exact absurd rfl hc

theorem of_heading {literal : Word} (h : Composed P ('(' :: (literal ++ ')' :: w)))
    (hliteral : ∀ c ∈ literal, isHeadingSymbol c) : Composed P w := by
  generalize hx : literal ++ ')' :: w = x at h
  cases h with
  | symbol hc => exact absurd rfl hc
  | @heading literal' w' d hliteral' _ hw' =>
    -- Both literals are what precedes the first `)`.
    have htails := congrArg (List.dropWhile isHeadingSymbol) hx
    rw [dropWhile_append_cons hliteral (by decide),
      dropWhile_append_cons hliteral' (by decide)] at htails
    exact (List.cons.inj htails).2 ▸ hw'

/-! ## Recognition -/

/-- Whether a word is composed behind its first `skip` symbols, which belong to a heading. -/
def recognise (P : Char → Prop) [DecidablePred P] : ℕ → Word → Bool
  | _, [] => true
  | skip + 1, _ :: w => recognise P skip w
  | 0, c :: w =>
    if c = '(' then
      match headingLiteral? w with
      | some (_, length) => recognise P (length + 1) w
      | none => false
    else P c && recognise P 0 w

section

variable [DecidablePred P]

theorem recognise_append (v w : Word) : recognise P v.length (v ++ w) = recognise P 0 w := by
  induction v with
  | nil => rfl
  | cons c v ih => exact ih

theorem recognise_heading {literal : Word} {d : Decimal}
    (hliteral : ∀ c ∈ literal, isHeadingSymbol c) (hread : Decimal.read? literal = some d)
    (w : Word) : recognise P 0 ('(' :: (literal ++ ')' :: w)) = recognise P 0 w := by
  rw [recognise, if_pos rfl, headingLiteral?_append hliteral hread]
  simpa using recognise_append (P := P) (literal ++ [')']) w

theorem of_recognise {skip : ℕ} (h : recognise P skip w) : Composed P (w.drop skip) := by
  induction w generalizing skip with
  | nil => simpa using nil
  | cons c w ih =>
    cases skip with
    | succ skip => exact ih h
    | zero =>
      rw [recognise] at h
      split_ifs at h with hc
      · subst hc
        cases hlit : headingLiteral? w with
        | none => simp [hlit] at h
        | some lit =>
          obtain ⟨d, length⟩ := lit
          simp only [hlit] at h
          obtain ⟨literal, tail, rfl, rfl, hliteral, hread⟩ := headingLiteral?_eq_some hlit
          have hdrop : (literal ++ ')' :: tail).drop (literal.length + 1) = tail := by simp
          exact heading hliteral hread (hdrop ▸ ih h)
      · rw [Bool.and_eq_true, decide_eq_true_eq] at h
        exact symbol hc h.1 (ih h.2)

theorem recognise_iff : recognise P 0 w ↔ Composed P w := by
  refine ⟨of_recognise, fun h => ?_⟩
  induction h with
  | nil => rfl
  | symbol hc hp _ ih => rw [recognise, if_neg hc, decide_eq_true hp, Bool.true_and, ih]
  | heading hliteral hread _ ih => rw [recognise_heading hliteral hread, ih]

instance : DecidablePred (Composed P) := fun _ => decidable_of_iff _ recognise_iff

end

/-! ## Cutting -/

/-- A composed word is cut between two parts, or inside a heading. -/
theorem cut (h : Composed P (u ++ v)) :
    (Composed P u ∧ Composed P v) ∨
    ∃ front l₁ l₂ tail d, u = front ++ '(' :: l₁ ∧ v = l₂ ++ ')' :: tail ∧
      (∀ c ∈ l₁ ++ l₂, isHeadingSymbol c) ∧ Decimal.read? (l₁ ++ l₂) = some d := by
  generalize hw : u ++ v = w at h
  induction h generalizing u with
  | nil =>
    obtain ⟨rfl, rfl⟩ := List.append_eq_nil_iff.1 hw
    exact .inl ⟨.nil, .nil⟩
  | symbol hc hp hrest ih =>
    cases u with
    | nil =>
      obtain rfl : v = _ := hw
      exact .inl ⟨.nil, .symbol hc hp hrest⟩
    | cons e u =>
      obtain ⟨rfl, htail⟩ := List.cons.inj hw
      rcases ih htail with ⟨hu, hv⟩ | ⟨front, l₁, l₂, tail, d, rfl, hinside⟩
      · exact .inl ⟨.symbol hc hp hu, hv⟩
      · exact .inr ⟨e :: front, l₁, l₂, tail, d, rfl, hinside⟩
  | @heading literal w d hliteral hread hrest ih =>
    cases u with
    | nil =>
      obtain rfl : v = _ := hw
      exact .inl ⟨.nil, .heading hliteral hread hrest⟩
    | cons e u =>
      obtain ⟨rfl, htail⟩ := List.cons.inj hw
      -- The cut is inside the literal or in front of its `)`, or it is behind the heading.
      rcases List.append_eq_append_iff.1 htail with ⟨s, rfl, hs⟩ | ⟨s, rfl, hs⟩
      · exact .inr ⟨[], u, s, w, d, rfl, hs, hliteral, hread⟩
      · cases s with
        | nil =>
          exact .inr ⟨[], literal, [], w, d, by simp, hs.symm, by simpa using hliteral,
            by simpa using hread⟩
        | cons f s =>
          obtain ⟨rfl, hw'⟩ := List.cons.inj hs
          rcases ih hw'.symm with ⟨hu, hv⟩ | ⟨front, l₁, l₂, tail, d', rfl, hinside⟩
          · exact .inl ⟨.heading hliteral hread hu, hv⟩
          · exact .inr ⟨'(' :: (literal ++ ')' :: front), l₁, l₂, tail, d', by simp, hinside⟩

/-- A symbol that is no part of a heading cuts a composed word. -/
theorem cut_at (h : Composed P (u ++ c :: v)) (hsymbol : ¬ isHeadingSymbol c) (hopen : c ≠ '(')
    (hclose : c ≠ ')') : Composed P u ∧ P c ∧ Composed P v := by
  rcases h.cut with ⟨hu, hv⟩ | ⟨front, l₁, l₂, tail, d, -, hv, hliteral, -⟩
  · exact ⟨hu, hv.of_cons hopen⟩
  · cases l₂ with
    | nil => exact absurd (List.cons.inj hv).1 hclose
    | cons e l₂ =>
      obtain rfl := (List.cons.inj hv).1
      exact absurd (hliteral c (by simp)) hsymbol

/-- Two turns that undo each other are no part of a heading, which has one sign at most. -/
theorem cut_opposite (h : Composed P (u ++ a :: b :: v)) (hab : opposite a b) :
    Composed P u ∧ Composed P v := by
  have hsigns : a ∈ ['+', '-'] ∧ b ∈ ['+', '-'] := by
    rcases opposite_iff.1 hab with ⟨rfl, rfl⟩ | ⟨rfl, rfl⟩ <;> decide
  rcases h.cut with ⟨hu, hv⟩ | ⟨front, l₁, l₂, tail, d, -, hv, -, hread⟩
  · have ha : a ≠ '(' := by rintro rfl; simp at hsigns
    have hb : b ≠ '(' := by rintro rfl; simp at hsigns
    exact ⟨hu, ((hv.of_cons ha).2.of_cons hb).2⟩
  · -- The heading would end at the first or the second turn, or hold both.
    rcases l₂ with _ | ⟨e, _ | ⟨f, l₂⟩⟩
    · obtain ⟨rfl, -⟩ := List.cons.inj hv
      simp at hsigns
    · obtain ⟨-, hv⟩ := List.cons.inj hv
      obtain ⟨rfl, -⟩ := List.cons.inj hv
      simp at hsigns
    · obtain ⟨-, hv⟩ := List.cons.inj hv
      obtain ⟨rfl, -⟩ := List.cons.inj hv
      have hmem : b ∈ (l₁ ++ e :: b :: l₂).tail := by cases l₁ <;> simp
      rcases mem_tail_of_read? hread b hmem with hdigit | rfl
      · rcases opposite_iff.1 hab with ⟨-, rfl⟩ | ⟨-, rfl⟩ <;> cases hdigit
      · simp at hsigns

end Composed

/-! ## Reading -/

variable {P : Char → Prop} {c : Char} {u v w : Word}

/-- The symbols of a word that are no `(` have a command or are variables. -/
theorem command?_or_variable (hc : c ≠ '(') :
    (∃ command, (Op.ofSymbol c).command? = some command) ∨ Op.ofSymbol c = .variable := by
  cases hop : Op.ofSymbol c with
  | setHeading => exact absurd (ofSymbol_eq_setHeading.1 hop) hc
  | «variable» => exact .inr rfl
  | _ => exact .inl ⟨_, rfl⟩

/-- Behind a composed word reading goes on as from anywhere else. -/
theorem readFrom_append (hu : Composed P u) (position : ℕ) (v : Word) :
    readFrom position (u ++ v) = readFrom position u ++ readFrom (position + u.length) v := by
  induction hu generalizing position with
  | nil => simp
  | @symbol c w hc _ _ ih =>
    have hlength : position + (c :: w).length = position + 1 + w.length := by
      rw [List.length_cons]
      omega
    rw [hlength, List.cons_append]
    rcases command?_or_variable hc with ⟨command, h⟩ | h
    · rw [readFrom_command h, readFrom_command h, ih, List.cons_append]
    · rw [readFrom_variable h, readFrom_variable h, ih]
  | @heading literal w d hliteral hread _ ih =>
    have hlength : position + ('(' :: (literal ++ ')' :: w)).length =
        position + literal.length + 2 + w.length := by
      rw [List.length_cons, List.length_append, List.length_cons]
      omega
    rw [hlength, List.cons_append, List.append_assoc, List.cons_append,
      readFrom_heading hliteral hread, readFrom_heading hliteral hread, ih, List.cons_append]

/-- A word is composed if every `(` that is met when it is read opens a heading. -/
theorem composed_of_readFrom {position : ℕ}
    (h : ∀ i ∈ readFrom position w, i.command ≠ .malformed) : Composed (fun _ => True) w := by
  induction position, w using readFrom_induction with
  | nil => exact .nil
  | command position c rest command hc ih =>
    rw [readFrom_command hc] at h
    exact .symbol (ne_open_of_command? hc) trivial (ih fun i hi => h i (List.mem_cons_of_mem _ hi))
  | heading position literal tail d hliteral hread ih =>
    rw [readFrom_heading hliteral hread] at h
    exact .heading hliteral hread (ih fun i hi => h i (List.mem_cons_of_mem _ hi))
  | malformed position rest hlit =>
    rw [readFrom_malformed hlit] at h
    exact absurd rfl (h _ List.mem_cons_self)
  | skip position c rest hc ih =>
    rw [readFrom_variable hc] at h
    exact .symbol (ne_open_of_variable hc) trivial (ih h)

/-! ## Positions -/

/-- The symbols, besides the signs, that stand in a heading behind its `(`. -/
def isLiteralSymbol (c : Char) : Bool := c.isDigit ∨ c = '.' ∨ c = ')'

/-- A position behind the `(` of a heading, up to its `)`. -/
def InHeading (w : Word) (p : ℕ) : Prop :=
  ∃ start d close, w[start]? = some '(' ∧ headingAt w start = .ok (d, close) ∧
    start < p ∧ p ≤ close

/-- Every `(` opens a heading, and the symbols of headings stand in headings only. -/
structure WellWritten (w : Word) : Prop where
  opens : ∀ p, w[p]? = some '(' → ∃ d close, headingAt w p = .ok (d, close)
  inside : ∀ p c, w[p]? = some c → isLiteralSymbol c → InHeading w p

/-- A word composed of headings and of symbols that headings are not written with, signs
    excepted. -/
abbrev Tidy (w : Word) : Prop := Composed (fun c => ¬ isLiteralSymbol c) w

theorem headingAt_eq_ok_iff {w : Word} {start close : ℕ} {d : Decimal} :
    headingAt w start = .ok (d, close) ↔
      ∃ length, headingLiteral? (w.drop (start + 1)) = some (d, length) ∧
        close = start + 1 + length := by
  rw [headingAt, headingFrom]
  cases headingLiteral? (w.drop (start + 1)) with
  | none => simp
  | some lit => simp [Prod.ext_iff, eq_comm, and_assoc]

theorem headingAt_append (u v : Word) (p : ℕ) :
    headingAt (u ++ v) (u.length + p) =
      (headingAt v p).map fun (d, close) => (d, u.length + close) := by
  have hdrop : (u ++ v).drop (u.length + p + 1) = v.drop (p + 1) := by
    rw [Nat.add_assoc, List.drop_length_add_append]
  rw [headingAt, headingAt, headingFrom, headingFrom, hdrop]
  cases headingLiteral? (v.drop (p + 1)) with
  | none => rfl
  | some lit => simp [Except.map, Nat.add_assoc]

theorem getElem?_length_add (u v : Word) (p : ℕ) : (u ++ v)[u.length + p]? = v[p]? := by
  rw [List.getElem?_append_right (Nat.le_add_right _ _), Nat.add_sub_cancel_left]

theorem heading_eq_append (literal w : Word) :
    '(' :: (literal ++ ')' :: w) = '(' :: (literal ++ [')']) ++ w := by
  simp

theorem headingAt_heading {literal : Word} {d : Decimal}
    (hliteral : ∀ c ∈ literal, isHeadingSymbol c) (hread : Decimal.read? literal = some d)
    (w : Word) :
    headingAt ('(' :: (literal ++ ')' :: w)) 0 = .ok (d, 0 + 1 + literal.length) :=
  headingAt_eq_ok_iff.2 ⟨_, headingLiteral?_append hliteral hread w, rfl⟩

/-- The only `(` of a heading is its first symbol. -/
theorem eq_zero_of_open {literal : Word} {p : ℕ} (hliteral : ∀ c ∈ literal, isHeadingSymbol c)
    (hp : ('(' :: (literal ++ [')']))[p]? = some '(') : p = 0 := by
  cases p with
  | zero => rfl
  | succ p =>
    have hmem : '(' ∈ literal ++ [')'] := List.mem_of_getElem? hp
    rcases List.mem_append.1 hmem with hmem | hmem
    · exact absurd (hliteral _ hmem) (by decide)
    · exact absurd hmem (by decide)

/-- What stands behind the headings of a word that is well written is well written. -/
theorem WellWritten.of_append {u v : Word} (h : WellWritten (u ++ v))
    (hu : ∀ start d close, u[start]? = some '(' →
      headingAt (u ++ v) start = .ok (d, close) → close < u.length) : WellWritten v where
  opens p hp := by
    rw [← getElem?_length_add u] at hp
    obtain ⟨d, close, hclose⟩ := h.opens (u.length + p) hp
    rw [headingAt_append] at hclose
    cases hv : headingAt v p with
    | error e => simp [hv, Except.map] at hclose
    | ok x => exact ⟨x.1, x.2, rfl⟩
  inside p c hp hc := by
    rw [← getElem?_length_add u] at hp
    obtain ⟨start, d, close, hopen, hclose, hlt, hle⟩ := h.inside (u.length + p) c hp hc
    -- The heading begins behind `u`, since those of `u` end in `u`.
    rcases Nat.lt_or_ge start u.length with hstart | hstart
    · rw [List.getElem?_append_left hstart] at hopen
      have := hu start d close hopen hclose
      omega
    · obtain ⟨s, rfl⟩ := Nat.exists_eq_add_of_le hstart
      rw [getElem?_length_add] at hopen
      rw [headingAt_append] at hclose
      cases hv : headingAt v s with
      | error e => simp [hv, Except.map] at hclose
      | ok x =>
        simp only [hv, Except.map, Except.ok.injEq, Prod.mk.injEq] at hclose
        exact ⟨s, x.1, x.2, hopen, hv, by omega, by omega⟩

theorem WellWritten.tidy {w : Word} (h : WellWritten w) : Tidy w := by
  induction hn : w.length using Nat.strong_induction_on generalizing w with
  | _ n ih =>
    subst hn
    cases w with
    | nil => exact .nil
    | cons c rest =>
      by_cases hc : c = '('
      · subst hc
        obtain ⟨d, close, hclose⟩ := h.opens 0 rfl
        obtain ⟨length, hlit, rfl⟩ := headingAt_eq_ok_iff.1 hclose
        obtain ⟨literal, tail, heq, rfl, hliteral, hread⟩ := headingLiteral?_eq_some hlit
        obtain rfl : rest = literal ++ ')' :: tail := heq
        refine .heading hliteral hread (ih tail.length (by simp; omega) ?_ rfl)
        rw [heading_eq_append] at h hclose
        refine WellWritten.of_append h fun start d' close' hstart hclose' => ?_
        obtain rfl := eq_zero_of_open hliteral hstart
        rw [hclose] at hclose'
        simp only [Except.ok.injEq, Prod.mk.injEq] at hclose'
        rw [List.length_cons, List.length_append, List.length_singleton]
        omega
      · refine .symbol hc (fun hliteral => ?_) (ih rest.length (by simp) ?_ rfl)
        · obtain ⟨start, -, -, -, -, hlt, -⟩ := h.inside 0 c rfl hliteral
          exact absurd hlt (Nat.not_lt_zero start)
        · refine WellWritten.of_append (u := [c]) h fun start d close hstart _ => ?_
          exact absurd (List.mem_singleton.1 (List.mem_of_getElem? hstart)).symm hc

theorem InHeading.append_left {v : Word} {p : ℕ} (h : InHeading v p) (u : Word) :
    InHeading (u ++ v) (u.length + p) := by
  obtain ⟨start, d, close, hopen, hclose, hlt, hle⟩ := h
  refine ⟨u.length + start, d, u.length + close, ?_, ?_, by omega, by omega⟩
  · rw [getElem?_length_add]
    exact hopen
  · rw [headingAt_append, hclose]
    rfl

/-- A word that is well written is put together from a part that is and what stands before
    it, if the headings of that end there and its symbols are in them. -/
theorem WellWritten.append_left {u v : Word} (h : WellWritten v)
    (hopens : ∀ p, u[p]? = some '(' → ∃ d close, headingAt (u ++ v) p = .ok (d, close))
    (hinside : ∀ p c, u[p]? = some c → isLiteralSymbol c → InHeading (u ++ v) p) :
    WellWritten (u ++ v) where
  opens p hp := by
    rcases Nat.lt_or_ge p u.length with hlt | hge
    · exact hopens p (List.getElem?_append_left hlt ▸ hp)
    · obtain ⟨q, rfl⟩ := Nat.exists_eq_add_of_le hge
      rw [getElem?_length_add] at hp
      obtain ⟨d, close, hclose⟩ := h.opens q hp
      exact ⟨d, u.length + close, by rw [headingAt_append, hclose]; rfl⟩
  inside p c hp hc := by
    rcases Nat.lt_or_ge p u.length with hlt | hge
    · exact hinside p c (List.getElem?_append_left hlt ▸ hp) hc
    · obtain ⟨q, rfl⟩ := Nat.exists_eq_add_of_le hge
      rw [getElem?_length_add] at hp
      exact (h.inside q c hp hc).append_left u

theorem wellWritten_of_tidy {w : Word} (h : Tidy w) : WellWritten w := by
  induction h with
  | nil => exact ⟨fun p hp => by simp at hp, fun p c hp => by simp at hp⟩
  | @symbol c w hc hliteral _ ih =>
    refine ih.append_left (u := [c]) (fun p hp => ?_) (fun p e hp he => ?_)
    · exact absurd (List.mem_singleton.1 (List.mem_of_getElem? hp)).symm hc
    · obtain rfl := List.mem_singleton.1 (List.mem_of_getElem? hp)
      exact absurd he hliteral
  | @heading literal w d hliteral hread _ ih =>
    have hparse := headingAt_heading hliteral hread w
    rw [heading_eq_append] at hparse ⊢
    refine ih.append_left (fun p hp => ?_) (fun p e hp he => ?_)
    · obtain rfl := eq_zero_of_open hliteral hp
      exact ⟨_, _, hparse⟩
    · obtain ⟨hlt, -⟩ := List.getElem?_eq_some_iff.1 hp
      rw [List.length_cons, List.length_append, List.length_singleton] at hlt
      refine ⟨0, d, _, rfl, hparse, Nat.pos_of_ne_zero ?_, by omega⟩
      rintro rfl
      obtain rfl : '(' = e := Option.some.inj hp
      cases he

end Lindenmayer

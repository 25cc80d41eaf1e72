import Lindenmayer.Proofs.Composition
import Lindenmayer.Proofs.Exact

/-!
# Normalisation

Before it walks, a turtle cancels opposite turns that meet, and while it walks it takes
variables out of the word. Neither changes what is drawn, if the word keeps the symbols of
headings to headings (`WellWritten`) and headings are added without rounding
(`Heading.Exact`).

* `Omits.obey_orders`: to leave out one variable, or two turns that undo each other, does
  not change a walk, and leaves a word whose headings are intact;
* `omits_stream`: the stream of a word is reached by leaving out one after the other;
* `compile_iff_draw_asWritten`: so a word is drawn as if it were walked symbol by symbol,
  with nothing cancelled and nothing taken out. Only positions in errors may differ.
-/

namespace Lindenmayer

open Word Relation

/-! ## Leaving out symbols -/

/-- Two adjacent turns that undo each other are left out. -/
inductive CancelsPair : Word → Word → Prop
  | mk {a b : Char} (u v : Word) : opposite a b → CancelsPair (u ++ a :: b :: v) (u ++ v)

/-- A variable is left out, or two turns that undo each other. -/
inductive Omits : Word → Word → Prop
  | idle {c : Char} (u v : Word) : Op.ofSymbol c = .variable → ¬ isLiteralSymbol c →
    Omits (u ++ c :: v) (u ++ v)
  | turns {u v : Word} : CancelsPair u v → Omits u v

variable {c : Char} {u v w : Word}

theorem reflTransGen_foldl_cancelStep (done w : Word) :
    ReflTransGen CancelsPair (done.reverse ++ w) (w.foldl cancelStep done).reverse := by
  induction w generalizing done with
  | nil => simpa using ReflTransGen.refl
  | cons c w ih =>
    cases done with
    | nil => exact ih [c]
    | cons d rest =>
      rw [List.foldl_cons, cancelStep]
      split_ifs with hdc
      · refine .head ?_ (ih rest)
        simpa using CancelsPair.mk rest.reverse w hdc
      · simpa using ih (c :: d :: rest)

/-- Turns are cancelled one pair after the other. -/
theorem cancels_cancelTurns (w : Word) : ReflTransGen CancelsPair w w.cancelTurns :=
  reflTransGen_foldl_cancelStep [] w

theorem CancelsPair.append_left (h : CancelsPair v w) (u : Word) :
    CancelsPair (u ++ v) (u ++ w) := by
  cases h with
  | mk v₁ v₂ hab =>
    rw [← List.append_assoc, ← List.append_assoc]
    exact .mk _ _ hab

theorem Omits.append_left (h : Omits v w) (u : Word) : Omits (u ++ v) (u ++ w) := by
  cases h with
  | idle v₁ v₂ hc hliteral =>
    rw [← List.append_assoc, ← List.append_assoc]
    exact .idle _ _ hc hliteral
  | turns h => exact .turns (h.append_left u)

theorem omits_append_left (h : ReflTransGen Omits v w) (u : Word) :
    ReflTransGen Omits (u ++ v) (u ++ w) :=
  h.lift (u ++ ·) fun _ _ h => h.append_left u

/-- To take a variable out of a word is to leave out its occurrences one by one. -/
theorem omits_without (hc : Op.ofSymbol c = .variable) (hliteral : ¬ isLiteralSymbol c)
    (w : Word) : ReflTransGen Omits w (without c w) := by
  induction w with
  | nil => exact .refl
  | cons e w ih =>
    by_cases he : e = c
    · subst he
      have hwithout : without e (e :: w) = without e w := by simp [without]
      rw [hwithout]
      exact .head (.idle [] w hc hliteral) ih
    · have hwithout : without c (e :: w) = e :: without c w := by simp [without, he]
      rw [hwithout]
      exact omits_append_left ih [e]

theorem isHeadingSymbol_of_variable (hc : Op.ofSymbol c = .variable)
    (hliteral : ¬ isLiteralSymbol c) : ¬ isHeadingSymbol c := by
  intro h
  simp only [isHeadingSymbol, decide_eq_true_eq] at h
  simp only [isLiteralSymbol, decide_eq_true_eq, not_or] at hliteral
  rcases h with rfl | rfl | h | h
  · cases hc
  · cases hc
  · exact hliteral.2.1 h
  · exact hliteral.1 h

theorem Composed.cut_variable (h : Tidy (u ++ c :: v)) (hc : Op.ofSymbol c = .variable)
    (hliteral : ¬ isLiteralSymbol c) : Tidy u ∧ Tidy v := by
  have hclose : c ≠ ')' := by
    rintro rfl
    exact hliteral (by decide)
  obtain ⟨hu, -, hv⟩ :=
    h.cut_at (isHeadingSymbol_of_variable hc hliteral) (ne_open_of_variable hc) hclose
  exact ⟨hu, hv⟩

/-- What is left out of a tidy word is no part of a heading. -/
theorem Omits.tidy (h : Omits v w) (hv : Tidy v) : Tidy w := by
  cases h with
  | idle u₁ u₂ hc hliteral =>
    obtain ⟨h₁, h₂⟩ := hv.cut_variable hc hliteral
    exact h₁.append h₂
  | turns h =>
    cases h with
    | mk u₁ u₂ hab =>
      obtain ⟨h₁, h₂⟩ := hv.cut_opposite hab
      exact h₁.append h₂

theorem tidy_of_omits (h : ReflTransGen Omits v w) (hv : Tidy v) : Tidy w := by
  induction h with
  | refl => exact hv
  | tail _ hstep ih => exact hstep.tidy ih

theorem omits_streamFrom (position : ℕ) (w : Word) (hw : Tidy w) :
    ReflTransGen Omits w (streamFrom w) := by
  induction position, w using reading_induction with
  | nil => simpa using ReflTransGen.refl
  | command position c rest command h ih =>
    rw [streamFrom_command h]
    exact omits_append_left (ih (hw.of_cons (ne_open_of_command? h)).2) [c]
  | heading position literal tail d hliteral hread ih =>
    rw [streamFrom_heading hliteral hread]
    simpa using omits_append_left (ih (hw.of_heading hliteral)) ('(' :: (literal ++ [')']))
  | malformed position rest h =>
    rw [streamFrom_malformed h]
  | idle position c rest h ih =>
    obtain ⟨hliteral, hrest⟩ := hw.of_cons (ne_open_of_variable h)
    have hwithout := omits_without h hliteral rest
    rw [streamFrom_variable h]
    exact .head (.idle [] rest h hliteral) (hwithout.trans (ih (tidy_of_omits hwithout hrest)))

/-- The stream of a tidy word is reached by leaving out symbols one after the other. -/
theorem omits_stream (hw : Tidy w) : ReflTransGen Omits w (stream w) := by
  have hcancel : ReflTransGen Omits w w.cancelTurns :=
    (cancels_cancelTurns w).lift id fun _ _ => .turns
  exact hcancel.trans (omits_streamFrom 0 _ (tidy_of_omits hcancel hw))

theorem tidy_stream (hw : Tidy w) : Tidy (stream w) := tidy_of_omits (omits_stream hw) hw

/-! ## Orders -/

/-- What a turtle is told by a word read as it stands, without positions. -/
def orders (w : Word) : List Command := (readFrom 0 w).map Instruction.command

theorem map_command_readFrom (position position' : ℕ) (w : Word) :
    (readFrom position w).map Instruction.command =
      (readFrom position' w).map Instruction.command := by
  induction position, w using readFrom_induction generalizing position' with
  | nil => simp
  | command position c rest command h ih =>
    rw [readFrom_command h, readFrom_command h, List.map_cons, List.map_cons,
      ih (position' + 1)]
  | heading position literal tail d hliteral hread ih =>
    rw [readFrom_heading hliteral hread, readFrom_heading hliteral hread, List.map_cons,
      List.map_cons, ih (position' + literal.length + 2)]
  | malformed position rest h => rw [readFrom_malformed h, readFrom_malformed h]; rfl
  | skip position c rest h ih =>
    rw [readFrom_variable h, readFrom_variable h, ih (position' + 1)]

theorem orders_cons {command : Command} (h : (Op.ofSymbol c).command? = some command) :
    orders (c :: w) = command :: orders w := by
  rw [orders, readFrom_command h, List.map_cons, map_command_readFrom _ 0]
  rfl

theorem orders_cons_variable (h : Op.ofSymbol c = .variable) : orders (c :: w) = orders w := by
  rw [orders, readFrom_variable h, map_command_readFrom _ 0]
  rfl

theorem orders_append {P : Char → Prop} (hu : Composed P u) (v : Word) :
    orders (u ++ v) = orders u ++ orders v := by
  rw [orders, readFrom_append hu, List.map_append, map_command_readFrom (0 + u.length) 0]
  rfl

/-! ## Walks without positions -/

/-- The instruction with its position forgotten. -/
def Instruction.unplaced (i : Instruction) : Instruction := ⟨0, i.command⟩

/-- The error with its position forgotten. -/
def Error.unplaced : Error → Error
  | .configuration (.polygonNested _) => .configuration (.polygonNested 0)
  | .configuration (.polygonNotOpen _) => .configuration (.polygonNotOpen 0)
  | .unsupportedSymbol symbol _ => .unsupportedSymbol symbol 0
  | .stackUnderflow _ => .stackUnderflow 0
  | e => e

section

variable {η κ : Type} [Heading η] [Coordinate κ] {unit : η → Point κ} {angle : η}

/-- A position matters to a step only in the error that the step may end in. -/
theorem Recording.step_unplaced (r : Recording η κ) (i : Instruction) :
    (r.step unit angle i).mapError Error.unplaced = r.step unit angle i.unplaced := by
  obtain ⟨position, command⟩ := i
  unfold step Instruction.unplaced
  cases command with
  | beginPolygon => cases r.polygonOpen <;> rfl
  | endPolygon => cases r.polygonOpen <;> rfl
  | pop =>
    simp only [Walker.step, Walker.pop]
    cases r.walker.saved <;> rfl
  | _ => rfl

theorem Recording.run_unplaced (r : Recording η κ) (l : List Instruction) :
    (r.run unit angle l).mapError Error.unplaced =
      r.run unit angle (l.map Instruction.unplaced) := by
  induction l generalizing r with
  | nil => rfl
  | cons i l ih =>
    have hstep : (r.step unit angle i).mapError Error.unplaced = r.step unit angle i.unplaced :=
      r.step_unplaced i
    rw [List.map_cons]
    cases h : r.step unit angle i with
    | error e =>
      rw [h] at hstep
      rw [run, run, foldlM_cons_error h, foldlM_cons_error hstep.symm]
      rfl
    | ok r' =>
      rw [h] at hstep
      rw [run, run, foldlM_cons_ok h, foldlM_cons_ok hstep.symm]
      exact ih r'

theorem draw_unplaced (l : List Instruction) (originX : κ) :
    (draw unit l originX angle).mapError Error.unplaced =
      draw unit (l.map Instruction.unplaced) originX angle := by
  rw [draw, draw, ← Recording.run_unplaced]
  cases Recording.run unit angle (.start ⟨originX, Coordinate.ofInt 0⟩) l with
  | error e => rfl
  | ok r => cases hopen : r.polygonOpen <;> simp [Except.mapError, Error.unplaced, hopen]

/-- Carries out commands without positions. -/
def Recording.obey (unit : η → Point κ) (angle : η) (r : Recording η κ) (l : List Command) :
    Except Error (Recording η κ) :=
  r.run unit angle (l.map (Instruction.mk 0))

theorem Recording.obey_append (r : Recording η κ) (l m : List Command) :
    r.obey unit angle (l ++ m) = (r.obey unit angle l).bind (·.obey unit angle m) := by
  rw [obey, List.map_append, run, List.foldlM_append]
  rfl

/-! ## Exact headings -/

/-- Headings that are added without rounding: a turn back undoes a turn. -/
structure Heading.Exact (η : Type) [Heading η] : Prop where
  add_add_neg : ∀ h a : η, add (add h a) (neg a) = h
  add_neg_add : ∀ h a : η, add (add h (neg a)) a = h

theorem Recording.obey_turn (r : Recording η κ) (turn : Turn) (l : List Command) :
    r.obey unit angle (.turn turn :: l) =
      Recording.obey unit angle ⟨⟨r.walker.turtle.rotate (Walker.turnAngle angle turn),
        r.walker.saved⟩, r.primitives, r.polygonOpen⟩ l := by
  rw [obey, List.map_cons, run]
  exact foldlM_cons_ok rfl _

/-- Two turns that undo each other leave everything as it was. -/
theorem obey_opposite (hexact : Heading.Exact η) {a b : Char} (hab : opposite a b) (w : Word)
    (r : Recording η κ) :
    r.obey unit angle (orders (a :: b :: w)) = r.obey unit angle (orders w) := by
  have hleft : (Op.ofSymbol '+').command? = some (.turn .left) := rfl
  have hright : (Op.ofSymbol '-').command? = some (.turn .right) := rfl
  rcases opposite_iff.1 hab with ⟨rfl, rfl⟩ | ⟨rfl, rfl⟩
  · rw [orders_cons hleft, orders_cons hright, Recording.obey_turn, Recording.obey_turn]
    simp only [Turtle.rotate, Walker.turnAngle, hexact.add_add_neg]
  · rw [orders_cons hright, orders_cons hleft, Recording.obey_turn, Recording.obey_turn]
    simp only [Turtle.rotate, Walker.turnAngle, hexact.add_neg_add]

/-- What may be left out of a tidy word does not change a walk. -/
theorem Omits.obey_orders (hexact : Heading.Exact η) (h : Omits v w) (hv : Tidy v)
    (r : Recording η κ) :
    r.obey unit angle (orders v) = r.obey unit angle (orders w) := by
  cases h with
  | idle u₁ u₂ hc hliteral =>
    obtain ⟨h₁, -⟩ := hv.cut_variable hc hliteral
    rw [orders_append h₁, orders_append h₁, orders_cons_variable hc]
  | turns h =>
    cases h with
    | mk u₁ u₂ hab =>
      obtain ⟨h₁, -⟩ := hv.cut_opposite hab
      rw [orders_append h₁, orders_append h₁, Recording.obey_append, Recording.obey_append]
      cases r.obey unit angle (orders u₁) with
      | error e => rfl
      | ok r' => exact obey_opposite hexact hab u₂ r'

theorem obey_orders_of_omits (hexact : Heading.Exact η) (h : ReflTransGen Omits v w)
    (hv : Tidy v) (r : Recording η κ) :
    r.obey unit angle (orders v) = r.obey unit angle (orders w) := by
  induction h with
  | refl => rfl
  | tail hfront hstep ih => exact ih.trans (hstep.obey_orders hexact (tidy_of_omits hfront hv) r)

/-! ## Drawings -/

theorem draw_readFrom_unplaced (w : Word) (originX : κ) :
    (draw unit (readFrom 0 w) originX angle).mapError Error.unplaced =
      draw unit ((orders w).map (Instruction.mk 0)) originX angle := by
  rw [draw_unplaced, orders, List.map_map]
  rfl

/-- Left out or not: a tidy word is drawn the same when it is read as it stands. -/
theorem draw_of_omits (hexact : Heading.Exact η) (h : ReflTransGen Omits v w) (hv : Tidy v)
    (originX : κ) :
    (draw unit (readFrom 0 v) originX angle).mapError Error.unplaced =
      (draw unit (readFrom 0 w) originX angle).mapError Error.unplaced := by
  have hrun : Recording.run unit angle (.start ⟨originX, Coordinate.ofInt 0⟩)
      ((orders v).map (Instruction.mk 0)) =
        Recording.run unit angle (.start ⟨originX, Coordinate.ofInt 0⟩)
          ((orders w).map (Instruction.mk 0)) :=
    obey_orders_of_omits hexact h hv _
  rw [draw_readFrom_unplaced, draw_readFrom_unplaced, draw, draw, hrun]

/-- A tidy word is drawn as if it were read as it stands, up to positions in errors. -/
theorem compile_eq_draw_of_tidy (hexact : Heading.Exact η) (hw : Tidy w) (hne : w ≠ [])
    (hangle : Heading.isZero angle = false) (originX : κ) :
    (compile unit w originX angle).mapError Error.unplaced =
      (draw unit (readFrom 0 w) originX angle).mapError Error.unplaced := by
  rw [compile_eq_draw hne hangle, draw_of_omits hexact (omits_stream hw) hw]

/-- Outcomes that are equal up to positions in errors are the same results or the same
    errors at some positions. -/
theorem ok_iff_and_error_of_unplaced {α : Type} {x y : Except Error α}
    (h : x.mapError Error.unplaced = y.mapError Error.unplaced) :
    (∀ a, x = .ok a ↔ y = .ok a) ∧
      ∀ e, x = .error e → ∃ e', y = .error e' ∧ e'.unplaced = e.unplaced := by
  cases x <;> cases y <;> simp_all [Except.mapError]

/-- Normalisation does not change a drawing. In exact headings, a word that is well written
    compiles if the walk over the word as it stands goes through, and to the same drawing:
    no turns are cancelled in that walk, and variables are passed by where they stand. The
    errors of the two agree as well, up to their positions. In particular, to leave out
    variables or turns that undo each other does not change the drawing, nor does it to put
    them in. -/
theorem compile_iff_draw_asWritten (hexact : Heading.Exact η) (unit : η → Point κ) {w : Word}
    (hne : w ≠ []) (hw : WellWritten w) {angle : η} (hangle : Heading.isZero angle = false)
    (originX : κ) :
    (∀ d, compile unit w originX angle = .ok d ↔
      draw unit (readFrom 0 w) originX angle = .ok d) ∧
    (∀ e, compile unit w originX angle = .error e →
      ∃ e', draw unit (readFrom 0 w) originX angle = .error e' ∧ e'.unplaced = e.unplaced) ∧
    (∀ v, ReflTransGen Omits w v → v ≠ [] → ∀ d,
      compile unit v originX angle = .ok d ↔ compile unit w originX angle = .ok d) := by
  have hdraw : (compile unit w originX angle).mapError Error.unplaced =
      (draw unit (readFrom 0 w) originX angle).mapError Error.unplaced :=
    compile_eq_draw_of_tidy hexact hw.tidy hne hangle originX
  obtain ⟨hok, herror⟩ := ok_iff_and_error_of_unplaced hdraw
  refine ⟨hok, herror, fun v hv hvne d => ?_⟩
  have hsame : (compile unit v originX angle).mapError Error.unplaced =
      (compile unit w originX angle).mapError Error.unplaced := by
    rw [compile_eq_draw_of_tidy hexact (tidy_of_omits hv hw.tidy) hvne hangle,
      ← draw_of_omits hexact hv hw.tidy, hdraw]
  exact (ok_iff_and_error_of_unplaced hsame).1 d

end

theorem Heading.exact_rat : Heading.Exact ℚ where
  add_add_neg := add_neg_cancel_right
  add_neg_add := neg_add_cancel_right

/-- The variable keeps the turns apart until it is taken out, and one in front of a `]`
    moves the error. -/
theorem compile_iff_draw_asWritten_aroundVariable :
    (∃ d, compile (unitStep fun _ => (Point.origin : Point ℚ))
        ['+', 'X', '-', '(', '9', ')', 'F'] 0 (30 : ℚ) = .ok d ∧
      draw (unitStep fun _ => Point.origin) (readFrom 0 ['+', 'X', '-', '(', '9', ')', 'F']) 0
        (30 : ℚ) = .ok d ∧
      compile (unitStep fun _ => Point.origin) ['(', '9', ')', 'F'] 0 (30 : ℚ) = .ok d) ∧
    ∃ e, draw (unitStep fun _ => (Point.origin : Point ℚ)) (readFrom 0 ['X', ']']) 0 (30 : ℚ) =
      .error e ∧ e.unplaced = .stackUnderflow 0 := by
  have hcompile : (compile (unitStep fun _ => (Point.origin : Point ℚ))
      ['+', 'X', '-', '(', '9', ')', 'F'] 0 (30 : ℚ)).toOption.isSome := by
    decide +kernel
  have hfail : compile (unitStep fun _ => (Point.origin : Point ℚ)) ['X', ']'] 0 (30 : ℚ) =
      .error (.stackUnderflow 0) := by
    decide +kernel
  have hangle : Heading.isZero (30 : ℚ) = false := by decide +kernel
  have hread : Decimal.read? ['9'] = some ⟨false, 9, 0⟩ := rfl
  have hheading : Tidy ['(', '9', ')', 'F'] :=
    .heading (by simp [isHeadingSymbol]) hread (.symbol (by decide) (by decide) .nil)
  have hword : WellWritten ['+', 'X', '-', '(', '9', ')', 'F'] :=
    wellWritten_of_tidy (.symbol (by decide) (by decide) (.symbol (by decide) (by decide)
      (.symbol (by decide) (by decide) hheading)))
  have hidle : Omits ['+', 'X', '-', '(', '9', ')', 'F'] ['+', '-', '(', '9', ')', 'F'] :=
    .idle ['+'] ['-', '(', '9', ')', 'F'] (by decide) (by decide)
  have hturns : Omits ['+', '-', '(', '9', ')', 'F'] ['(', '9', ')', 'F'] :=
    .turns (.mk [] ['(', '9', ')', 'F'] (by decide))
  have hword' : WellWritten ['X', ']'] :=
    wellWritten_of_tidy (.symbol (by decide) (by decide) (.symbol (by decide) (by decide) .nil))
  obtain ⟨hok, -, hsame⟩ := compile_iff_draw_asWritten Heading.exact_rat
    (unitStep fun _ => (Point.origin : Point ℚ)) (by decide) hword hangle 0
  constructor
  · obtain ⟨d, hd⟩ := exists_ok_of_toOption hcompile
    exact ⟨d, hd, (hok d).1 hd, (hsame _ (.tail (.single hidle) hturns) (by decide) d).2 hd⟩
  · exact (compile_iff_draw_asWritten Heading.exact_rat
      (unitStep fun _ => (Point.origin : Point ℚ)) (by decide) hword' hangle 0).2.1 _ hfail

end Lindenmayer

import Lindenmayer.Canvas.Layout
import Lindenmayer.Proofs.Walk

/-!
# The dry run

How far a word reaches to the left is found out before the word is drawn, by a walk of
its own. Both walks carry out the same commands, so they go through together or fail
together (`leftmostExcursion_agree`), as long as the braces of the word, which only a
drawing looks at, fit; and the least `x` of the dry run is the left bound of the drawing
(`leftmostExcursion_of_compile`). No law of arithmetic is used: the two numbers are
equal in binary64 as well.
-/

namespace Lindenmayer

variable {η κ : Type} [Heading η] [Coordinate κ] {unit : η → Point κ} {angle : η}

/-! ## The walk of a dry run -/

theorem Excursion.step_agree (e : Excursion η κ) (i : Instruction) :
    Agree (fun (e' : Excursion η κ) (w : Walker η κ) => e'.walker = w)
      (e.step unit angle i) (e.walker.step unit angle i) := by
  rw [Excursion.step]
  cases e.walker.step unit angle i with
  | error err => exact .error err
  | ok w => cases i.command <;> exact .ok rfl

/-- A dry run goes through if the walk does, and otherwise fails as the walk does. -/
theorem leftmostExcursion_agree (unit : η → Point κ) (w : Word) (angle : η) :
    Agree (fun (_ : κ) (_ : Walker η κ) => True) (leftmostExcursion unit w angle)
      (Walker.run unit angle (.ofTurtle (.facingEast Point.origin)) (commands w)) := by
  have hrun : Agree (fun (e : Excursion η κ) (v : Walker η κ) => e.walker = v)
      ((commands w).foldlM (Excursion.step unit angle)
        ⟨.ofTurtle (.facingEast Point.origin), Coordinate.ofInt 0⟩)
      (Walker.run unit angle (.ofTurtle (.facingEast Point.origin)) (commands w)) :=
    foldlM_agree (fun e v i h => h ▸ e.step_agree i) _ rfl
  unfold leftmostExcursion
  dsimp only
  generalize (commands w).foldlM (Excursion.step unit angle) _ = x at hrun ⊢
  generalize Walker.run unit angle _ (commands w) = y at hrun ⊢
  cases hrun with
  | error e => exact .error e
  | ok h => exact .ok trivial

/-! ## Bounds -/

theorem Drawing.bounds_append (start : Point κ) (l m : List (Primitive κ)) :
    Drawing.bounds start (l ++ m) =
      (m.filterMap Primitive.moveEnd?).foldl .widen (Drawing.bounds start l) := by
  rw [Drawing.bounds, Drawing.bounds, List.filterMap_append, List.foldl_append]

/-- A step of a recorded walk widens the bounds by the end of a move, and only by that. -/
theorem Recording.bounds_leaves (start p q : Point κ) (l : List (Primitive κ))
    (command : Command) :
    Drawing.bounds start (l ++ (leaves p q command).toList) =
      match command with
      | .forward _ => (Drawing.bounds start l).widen q
      | _ => Drawing.bounds start l := by
  rw [Drawing.bounds_append]
  cases command with
  | forward drawn => cases drawn <;> rfl
  | _ => rfl

/-- The dry run follows the recorded walk, with the left bound of what is recorded. -/
theorem Excursion.step_of_recording_step {start : Point κ} {r r' : Recording η κ}
    {e : Excursion η κ} {i : Instruction} (h : r.step unit angle i = .ok r')
    (hwalker : e.walker = r.walker)
    (hxMin : e.xMin = (Drawing.bounds start r.primitives.reverse).xMin) :
    ∃ e', e.step unit angle i = .ok e' ∧ e'.walker = r'.walker ∧
      e'.xMin = (Drawing.bounds start r'.primitives.reverse).xMin := by
  obtain ⟨w, inside, hw, -, rfl⟩ := Recording.step_eq_ok_iff.1 h
  have hreverse : ∀ o : Option (Primitive κ), (o.toList ++ r.primitives).reverse =
      r.primitives.reverse ++ o.toList := by
    intro o
    cases o <;> simp
  rw [hreverse, Recording.bounds_leaves]
  rw [← hwalker] at hw
  rw [Excursion.step, hw]
  -- Only a move leaves a point for the bounds, and only a move is looked at by a dry run.
  cases i.command with
  | forward drawn => exact ⟨_, rfl, rfl, by rw [hxMin]; rfl⟩
  | _ => exact ⟨_, rfl, rfl, hxMin⟩

/-- The dry run of a word that compiles finds the left bound of its drawing. -/
theorem leftmostExcursion_of_compile {w : Word} {d : Drawing κ}
    (h : compile unit w (Coordinate.ofInt 0) angle = .ok d) :
    leftmostExcursion unit w angle = .ok d.bbox.xMin := by
  obtain ⟨-, -, r, hr, -, rfl⟩ := compile_eq_ok_iff.1 h
  -- Step by step the two walks stay together, and so do the two left bounds.
  obtain ⟨e, he, -, hxMin⟩ := foldlM_forward
    (R := fun (r : Recording η κ) (e : Excursion η κ) => e.walker = r.walker ∧
      e.xMin = (Drawing.bounds Point.origin r.primitives.reverse).xMin)
    (g := Excursion.step unit angle)
    (fun _ _ _ _ hre hstep => Excursion.step_of_recording_step hstep hre.1 hre.2) hr
    (t := ⟨.ofTurtle (.facingEast Point.origin), Coordinate.ofInt 0⟩) ⟨rfl, rfl⟩
  rw [leftmostExcursion]
  dsimp only
  rw [he]
  exact congrArg Except.ok hxMin

/-! ## Agreement -/

/-- A drawing and its dry run fail together: with braces that follow each other, where
    the drawing starts does not matter. -/
theorem compile_agree_leftmostExcursion {w : Word} (hw : w ≠ [])
    (hangle : Heading.isZero angle = false) (hbraces : BracesFollow w) (originX : κ) :
    Agree (fun (_ : Drawing κ) (_ : κ) => True) (compile unit w originX angle)
      (leftmostExcursion unit w angle) := by
  -- The drawing agrees with the walk from where it starts, the dry run with the walk from
  -- the origin, and the two walks agree since no turtle is saved at first.
  have hdrawing := compile_agree_walker unit hw hangle hbraces originX
  have hdry := leftmostExcursion_agree unit w angle
  have hwalks := walker_run_agree unit angle
    (.ofTurtle (.facingEast ⟨originX, Coordinate.ofInt 0⟩))
    (.ofTurtle (.facingEast Point.origin)) (commands w) rfl
  generalize Walker.run unit angle (.ofTurtle (.facingEast ⟨originX, Coordinate.ofInt 0⟩))
    (commands w) = x at hdrawing hwalks
  generalize Walker.run unit angle (.ofTurtle (.facingEast Point.origin)) (commands w) = y
    at hdry hwalks
  generalize compile unit w originX angle = c at hdrawing
  generalize leftmostExcursion unit w angle = e at hdry
  cases hwalks with
  | error err =>
    cases hdrawing
    cases hdry
    exact .error err
  | ok _ =>
    cases hdrawing
    cases hdry
    exact .ok trivial

/-- The dry run and the drawing of a word agree: if the drawing at zero succeeds, so
    does the dry run, with the left bound of the drawing; if the dry run succeeds, so
    does every drawing of a word that is not empty, for an angle that is not zero and
    with braces that follow each other; and such drawings fail with the error of the dry
    run. -/
theorem dryRun_iff_drawing (unit : η → Point κ) (w : Word) (angle : η) :
    (∀ d, compile unit w (Coordinate.ofInt 0) angle = .ok d →
      leftmostExcursion unit w angle = .ok d.bbox.xMin) ∧
    (∀ x, leftmostExcursion unit w angle = .ok x → w ≠ [] → Heading.isZero angle = false →
      BracesFollow w → ∀ originX, ∃ d, compile unit w originX angle = .ok d) ∧
    (w ≠ [] → Heading.isZero angle = false → BracesFollow w → ∀ originX e,
      compile unit w originX angle = .error e ↔ leftmostExcursion unit w angle = .error e) := by
  refine ⟨fun d => leftmostExcursion_of_compile, ?_, ?_⟩
  · intro x hx hw hangle hbraces originX
    obtain ⟨d, hd, -⟩ :=
      (compile_agree_leftmostExcursion hw hangle hbraces originX).exists_left hx
    exact ⟨d, hd⟩
  · intro hw hangle hbraces originX e
    exact (compile_agree_leftmostExcursion hw hangle hbraces originX).error_iff

/-- A word that turns back and draws a polygon, and one that ends a branch too many. -/
theorem dryRun_iff_drawing_unmatched :
    (∃ d, compile floatStep "|F{F}".toList (Coordinate.ofInt 0) 90 = .ok d ∧
      leftmostExcursion floatStep "|F{F}".toList 90 = .ok d.bbox.xMin) ∧
    (∀ originX, ∃ d, compile floatStep "|F{F}".toList originX 90 = .ok d) ∧
    (∀ originX, compile floatStep "|F]".toList originX 90 = .error (.stackUnderflow 2)) := by
  have hdry : (leftmostExcursion floatStep "|F{F}".toList 90).toOption.isSome := by
    decide +kernel
  have hfail : leftmostExcursion floatStep "|F]".toList 90 = .error (.stackUnderflow 2) := by
    decide +kernel
  have hangle : Heading.isZero (90 : Float) = false := by
    decide +kernel
  obtain ⟨x, hx⟩ := exists_ok_of_toOption hdry
  have hdrawn : ∀ originX, ∃ d, compile floatStep "|F{F}".toList originX 90 = .ok d :=
    (dryRun_iff_drawing floatStep _ 90).2.1 x hx (by decide) hangle ⟨1, by decide⟩
  obtain ⟨d, hd⟩ := hdrawn (Coordinate.ofInt 0)
  have hfails := (dryRun_iff_drawing floatStep "|F]".toList 90).2.2 (by decide) hangle
    ⟨0, by decide⟩
  exact ⟨⟨d, hd, (dryRun_iff_drawing floatStep _ 90).1 d hd⟩, hdrawn,
    fun originX => (hfails originX _).2 hfail⟩

end Lindenmayer

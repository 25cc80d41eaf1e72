import Lindenmayer.Proofs.Exact

/-!
# Walks on the lattice

A turtle that only ever turns by right angles, and that starts at a point with whole
coordinates, stays on points with whole coordinates, in exact numbers. It walks as a turtle of
integers does (`Lattice.step`), which knows four directions.

The heading is never reduced, and may have grown to any multiple of 90 degrees, above or below
zero; what is left of it after whole turns has its sign (`turnRemainder_quarters`). Each of the
seven remainders is a direction along the axes (`Lattice.Faces.axisStep?_eq`), so that a step along
other headings is never asked for.

* `Lattice.step_agree`: a step of either turtle is followed by one of the other;
* `compile_eq_lattice`: so are whole drawings, and their errors.
-/

namespace Lindenmayer

/-! ## The turtle of integers -/

namespace Lattice

/-- The unit step in one of four directions, counted in right angles from due east. -/
def unit (direction : ZMod 4) : Point ℤ :=
  if direction = 0 then ⟨1, 0⟩
  else if direction = 1 then ⟨0, 1⟩
  else if direction = 2 then ⟨-1, 0⟩
  else ⟨0, -1⟩

/-- The right angles in a heading. -/
def quarters (a : Decimal) : ℤ := ⌊a.toRat / 90⌋

/-- A direction and a position. -/
structure Pose where
  direction : ZMod 4
  position : Point ℤ

/-- A turtle of integers on its way, with the turtles saved and what has been left so far, the
    last first. -/
structure Walk where
  turtle : Pose
  saved : List Pose
  primitives : List (Primitive ℤ)
  polygonOpen : Bool

/-- The start at `(x, 0)`, due east. -/
def start (x : ℤ) : Walk := ⟨⟨0, ⟨x, 0⟩⟩, [], [], false⟩

/-- One unit ahead. -/
def Pose.ahead (t : Pose) : Pose :=
  ⟨t.direction, ⟨t.position.x + (unit t.direction).x, t.position.y + (unit t.direction).y⟩⟩

/-- Carries out a command. A turn is by `m` right angles. -/
def step (m : ZMod 4) (l : Walk) (i : Instruction) : Except Error Walk :=
  let t := l.turtle
  match i.command with
  | .forward true => .ok
      { l with turtle := t.ahead, primitives := .segment t.position t.ahead.position :: l.primitives }
  | .forward false => .ok
      { l with turtle := t.ahead, primitives := .travel t.position t.ahead.position :: l.primitives }
  | .turn .left => .ok { l with turtle := ⟨t.direction + m, t.position⟩ }
  | .turn .right => .ok { l with turtle := ⟨t.direction - m, t.position⟩ }
  | .turn .around => .ok { l with turtle := ⟨t.direction + 2, t.position⟩ }
  | .face a => .ok { l with turtle := ⟨quarters a, t.position⟩ }
  | .push => .ok { l with saved := t :: l.saved }
  | .pop =>
    match l.saved with
    | [] => .error (.stackUnderflow i.position)
    | t :: saved =>
      .ok { l with turtle := t, saved, primitives := .restore t.position :: l.primitives }
  | .beginPolygon =>
    if l.polygonOpen then .error (.configuration (.polygonNested i.position))
    else .ok { l with primitives := .polygonBegin t.position :: l.primitives, polygonOpen := true }
  | .endPolygon =>
    if l.polygonOpen then
      .ok { l with primitives := .polygonEnd :: l.primitives, polygonOpen := false }
    else .error (.configuration (.polygonNotOpen i.position))
  | .idle _ => .ok l
  | .malformed => .error (.configuration .malformedHeading)

/-- The drawing of a word by a turtle of integers that starts at `(x, 0)` and turns by `m`
    right angles. -/
def draw (w : Word) (x m : ℤ) : Except Error (Drawing ℤ) :=
  if w = [] then .error (.configuration .emptyWord)
  else if m = 0 then .error (.configuration .zeroAngle)
  else
    match (commands w).foldlM (step m) (start x) with
    | .error e => .error e
    | .ok l =>
      if l.polygonOpen then .error (.configuration .polygonNotClosed)
      else .ok ⟨l.primitives.reverse, Drawing.bounds ⟨x, 0⟩ l.primitives.reverse, x⟩

end Lattice

/-! ## Whole coordinates -/

section

variable (κ : Type) [IntCast κ]

/-- The same point, in other numbers. -/
def Point.cast (p : Point ℤ) : Point κ := ⟨p.x, p.y⟩

/-- The same box, in other numbers. -/
def BoundingBox.cast (b : BoundingBox ℤ) : BoundingBox κ := ⟨b.xMin, b.xMax, b.yMin, b.yMax⟩

/-- The same drawing, in other numbers. -/
def Drawing.cast (d : Drawing ℤ) : Drawing κ :=
  ⟨d.primitives.map (.map (.cast κ)), d.bbox.cast κ, d.originX⟩

end

/-! ## Headings -/

/-- What is left of right angles after whole turns are right angles, fewer than four, with the
    same sign. -/
theorem turnRemainder_quarters (k : ℤ) : turnRemainder (90 * k) = 90 * (k.tmod 4 : ℤ) := by
  have hcast : (90 * k : ℚ) = ((90 * k : ℤ) : ℚ) := by push_cast; rfl
  have hturns : (90 * k).tdiv (360 * ((1 : ℕ) : ℤ)) = k.tdiv 4 :=
    Int.mul_tdiv_mul_of_pos k 4 (by decide)
  rw [turnRemainder, hcast, Rat.num_intCast, Rat.den_intCast, hturns, Int.tmod_def]
  push_cast
  ring

namespace Lattice

/-- A heading of right angles, whole turns apart, in a direction. -/
def Faces (a : ℚ) (direction : ZMod 4) : Prop := ∃ k : ℤ, a = 90 * k ∧ (k : ZMod 4) = direction

variable {a b : ℚ} {direction turn : ZMod 4}

theorem faces_quarters (k : ℤ) : Faces (90 * k) k := ⟨k, rfl, rfl⟩

theorem Faces.add (ha : Faces a direction) (hb : Faces b turn) :
    Faces (a + b) (direction + turn) := by
  obtain ⟨k, rfl, rfl⟩ := ha
  obtain ⟨n, rfl, rfl⟩ := hb
  exact ⟨k + n, by push_cast; ring, by push_cast; rfl⟩

theorem Faces.sub (ha : Faces a direction) (hb : Faces b turn) :
    Faces (a - b) (direction - turn) := by
  obtain ⟨k, rfl, rfl⟩ := ha
  obtain ⟨n, rfl, rfl⟩ := hb
  exact ⟨k - n, by push_cast; ring, by push_cast; rfl⟩

theorem faces_ofNat (n : ℕ) : Faces (Decimal.ofNat (90 * n)).toRat n :=
  ⟨n, by simp [Decimal.toRat, Decimal.ofNat, Rat.mkRat_one], Int.cast_natCast n⟩

theorem quarters_eq {a : Decimal} {k : ℤ} (h : a.toRat = 90 * k) : quarters a = k := by
  rw [quarters, h, mul_div_cancel_left₀ _ (by norm_num), Int.floor_intCast]

/-- Due north is one right angle from due east. -/
example : quarters (.ofNat 90) = 1 := quarters_eq (by norm_num [Decimal.toRat, Decimal.ofNat])

theorem faces_literal {a : Decimal} (h : ∃ k : ℤ, a.toRat = 90 * k) :
    Faces a.toRat (quarters a) := by
  obtain ⟨k, hk⟩ := h
  rw [hk, quarters_eq hk]
  exact faces_quarters k

variable {κ : Type} [Ring κ] [LinearOrder κ]

theorem axisStep?_cast (a : ℚ) : axisStep? a = (axisStep? a).map (Point.cast κ) := by
  simp only [axisStep?]
  split_ifs <;> rfl

/-- Of the seven remainders, those that differ by a whole turn are one direction. -/
theorem axisStep?_remainder : ∀ r ∈ Finset.Ioo (-4 : ℤ) 4,
    axisStep? (90 * (r : ℚ)) = some (unit r) := by
  decide +kernel

/-- A heading of right angles is a direction along an axis, however often the turtle has turned
    around, and to whichever side. -/
theorem Faces.axisStep?_eq (h : Faces a direction) :
    axisStep? (turnRemainder a) = some ((unit direction).cast κ) := by
  obtain ⟨k, rfl, rfl⟩ := h
  have hrange : k.tmod 4 ∈ Finset.Ioo (-4 : ℤ) 4 :=
    Finset.mem_Ioo.2 ⟨Int.lt_tmod_of_pos k (by decide), Int.tmod_lt_of_pos k (by decide)⟩
  have hdirection : ((k.tmod 4 : ℤ) : ZMod 4) = k := by
    have hfour : (4 : ZMod 4) = 0 := rfl
    rw [Int.tmod_def]
    push_cast
    rw [hfour, zero_mul, sub_zero]
  rw [turnRemainder_quarters, axisStep?_cast, axisStep?_remainder _ hrange, hdirection]
  rfl

theorem Faces.unitStep_eq (h : Faces a direction) (oblique : ℚ → Point κ) :
    unitStep oblique a = (unit direction).cast κ := by
  have hstep : (Heading.degrees? a).bind (fun d => axisStep? (turnRemainder d)) =
      some ((unit direction).cast κ) := h.axisStep?_eq
  rw [unitStep, hstep]

/-! ## Walks -/

/-- A turtle in exact numbers that is where a turtle of integers is. -/
structure Follows (t : Turtle ℚ κ) (u : Pose) : Prop where
  heading : Faces t.heading u.direction
  position : t.position = u.position.cast κ

/-- A recorded walk in exact numbers that has come as far as a turtle of integers. -/
structure Tracks (r : Recording ℚ κ) (l : Walk) : Prop where
  turtle : Follows r.walker.turtle l.turtle
  saved : List.Forall₂ Follows r.walker.saved l.saved
  primitives : r.primitives = l.primitives.map (Primitive.map (.cast κ))
  polygonOpen : r.polygonOpen = l.polygonOpen

variable {r : Recording ℚ κ} {l : Walk} {oblique : ℚ → Point κ} {m : ℤ}

theorem tracks_start (x : ℤ) : Tracks (.start ⟨(x : κ), Coordinate.ofInt 0⟩) (start x) where
  turtle := ⟨faces_ofNat 0, rfl⟩
  saved := .nil
  primitives := rfl
  polygonOpen := rfl

theorem Follows.ahead {t : Turtle ℚ κ} {u : Pose} (h : Follows t u) (oblique : ℚ → Point κ) :
    Follows (t.advance (unitStep oblique)) u.ahead := by
  refine ⟨h.heading, ?_⟩
  rw [Turtle.advance, h.heading.unitStep_eq, h.position]
  simp only [Point.add, Point.cast, Pose.ahead, Int.cast_add]
  rfl

omit [LinearOrder κ] in
/-- Both turtles turn, wherever they are. -/
theorem Tracks.turnTo (h : Tracks r l) (ha : Faces a direction) :
    Tracks ⟨⟨r.walker.turtle.face a, r.walker.saved⟩, r.primitives, r.polygonOpen⟩
      { l with turtle := ⟨direction, l.turtle.position⟩ } where
  turtle := ⟨ha, h.turtle.position⟩
  saved := h.saved
  primitives := h.primitives
  polygonOpen := h.polygonOpen

/-- A step of either turtle is followed by one of the other, if it does not set a heading
    between the axes. -/
theorem step_agree (h : Tracks r l) {i : Instruction}
    (hi : ∀ a, i.command = .face a → ∃ k : ℤ, a.toRat = 90 * k) :
    Agree Tracks (r.step (unitStep oblique) (90 * m) i) (step m l i) := by
  have hposition : r.position = l.turtle.position.cast κ := h.turtle.position
  unfold Recording.step Walker.step step
  cases hc : i.command with
  | forward drawn =>
    have hahead := h.turtle.ahead oblique
    cases drawn
    all_goals
      refine .ok ⟨hahead, h.saved, ?_, h.polygonOpen⟩
      simp only [Recording.trace?, Option.toList_some, List.singleton_append, List.map_cons,
        Primitive.map]
      rw [hposition, hahead.position, h.primitives]
  | turn turn =>
    cases turn with
    | left => exact .ok (h.turnTo (h.turtle.heading.add (faces_quarters m)))
    | right =>
      have hright := h.turtle.heading.sub (faces_quarters m)
      rw [sub_eq_add_neg] at hright
      exact .ok (h.turnTo hright)
    | around => exact .ok (h.turnTo (h.turtle.heading.add (faces_ofNat 2)))
  | face a => exact .ok (h.turnTo (faces_literal (hi a hc)))
  | push => exact .ok ⟨h.turtle, .cons h.turtle h.saved, h.primitives, h.polygonOpen⟩
  | pop =>
    have hsaved := h.saved
    simp only [Walker.pop]
    cases hr : r.walker.saved with
    | nil =>
      rw [hr, List.forall₂_nil_left_iff] at hsaved
      rw [hsaved]
      exact .error _
    | cons t saved =>
      rw [hr, List.forall₂_cons_left_iff] at hsaved
      obtain ⟨u, saved', hu, hsaved', hl⟩ := hsaved
      rw [hl]
      refine .ok ⟨hu, hsaved', ?_, h.polygonOpen⟩
      simp only [Recording.trace?, Option.toList_some, List.singleton_append, List.map_cons,
        Primitive.map]
      rw [hu.position, h.primitives]
  | beginPolygon =>
    dsimp only
    rw [h.polygonOpen]
    split_ifs
    · exact .error _
    · refine .ok ⟨h.turtle, h.saved, ?_, rfl⟩
      rw [hposition, h.primitives]
      rfl
  | endPolygon =>
    dsimp only
    rw [h.polygonOpen]
    split_ifs
    · refine .ok ⟨h.turtle, h.saved, ?_, rfl⟩
      rw [h.primitives]
      rfl
    · exact .error _
  | idle => exact .ok h
  | malformed => exact .error _

/-- Walks from the same point agree at each command. -/
theorem run_agree (oblique : ℚ → Point κ) (x m : ℤ) {instructions : List Instruction}
    (hi : ∀ i ∈ instructions, ∀ a, i.command = .face a → ∃ k : ℤ, a.toRat = 90 * k) :
    Agree Tracks
      (Recording.run (unitStep oblique) (90 * m) (.start ⟨(x : κ), Coordinate.ofInt 0⟩)
        instructions)
      (instructions.foldlM (step m) (start x)) :=
  foldlM_agree_of_mem (fun _ _ i hmem h => step_agree h (hi i hmem)) (tracks_start x)

end Lattice

/-! ## Drawings -/

variable {κ : Type} [Ring κ] [LinearOrder κ] [IsStrictOrderedRing κ]

theorem BoundingBox.widen_cast (b : BoundingBox ℤ) (p : Point ℤ) :
    (b.cast κ).widen (p.cast κ) = (b.widen p).cast κ := by
  simp only [widen, cast, Point.cast, Coordinate.lesser, Coordinate.greater, Int.cast_min,
    Int.cast_max]

theorem isZero_quarters (m : ℤ) : Heading.isZero (90 * m : ℚ) = decide (m = 0) := by
  rw [Bool.eq_iff_iff]
  simp [Heading.isZero, Heading.degrees?]

/-- A turtle that turns by right angles, and to headings of right angles, walks as a turtle of
    integers does, which has four directions. Everything in its drawing is whole, or it fails as
    the other one does; and whatever its heading has grown to, its next step is along an axis,
    so that no other step is asked for. -/
theorem compile_eq_lattice (oblique : ℚ → Point κ) {w : Word} (x m : ℤ)
    (h : ∀ i ∈ commands w, ∀ a, i.command = .face a → ∃ k : ℤ, a.toRat = 90 * k) :
    compile (unitStep oblique) w (x : κ) (90 * m : ℚ) =
        (Lattice.draw w x m).map (Drawing.cast κ) ∧
      ∀ front back r, commands w = front ++ back →
        Recording.run (unitStep oblique) (90 * m : ℚ) (.start ⟨(x : κ), 0⟩) front = .ok r →
        (axisStep? (turnRemainder r.walker.turtle.heading) : Option (Point κ)).isSome := by
  have hzero : Coordinate.ofInt 0 = (0 : κ) := ofInt_zero
  refine ⟨?_, fun front back r hw hrun => ?_⟩
  · have hrun := Lattice.run_agree oblique x m h
    rw [compile, Lattice.draw, isZero_quarters]
    simp only [List.isEmpty_iff, decide_eq_true_eq]
    split_ifs with hempty hturn
    · rfl
    · rfl
    · generalize Recording.run (unitStep oblique) _ _ (commands w) = y at hrun ⊢
      generalize (commands w).foldlM (Lattice.step m) (Lattice.start x) = y' at hrun ⊢
      cases hrun with
      | error e => rfl
      | @ok r l hr =>
        have hbounds := Drawing.bounds_map (f := Point.cast κ) (g := BoundingBox.cast κ)
          (fun _ => rfl) BoundingBox.widen_cast ⟨x, 0⟩ l.primitives.reverse
        have hstart : Point.cast κ ⟨x, 0⟩ = ⟨(x : κ), Coordinate.ofInt 0⟩ := rfl
        rw [List.map_reverse, ← hr.primitives, hstart] at hbounds
        dsimp only
        rw [hr.polygonOpen, hbounds, hr.primitives, ← List.map_reverse]
        split_ifs <;> rfl
  · have hfront := Lattice.run_agree oblique x m
      fun i hi => h i (hw ▸ List.mem_append_left back hi)
    rw [hzero] at hfront
    obtain ⟨l, -, hr⟩ := hfront.exists_right hrun
    rw [hr.turtle.heading.axisStep?_eq, Option.isSome_some]

/-- The turtle faces south, more than a whole turn to the right, and east behind a turn of more
    than a whole turn to the left. -/
theorem compile_eq_lattice_far :
    (∀ i ∈ commands "(-450)F+[|f]F".toList, ∀ a, i.command = .face a →
      ∃ k : ℤ, a.toRat = 90 * k) ∧
    compile (unitStep fun _ => ⟨1 / 2, 1 / 2⟩) "(-450)F+[|f]F".toList ((3 : ℤ) : ℚ)
        (90 * (5 : ℤ) : ℚ) =
      .ok (.cast ℚ ⟨[.segment ⟨3, 0⟩ ⟨3, -1⟩, .travel ⟨3, -1⟩ ⟨2, -1⟩, .restore ⟨3, -1⟩,
        .segment ⟨3, -1⟩ ⟨4, -1⟩], ⟨2, 4, -1, 0⟩, 3⟩) := by
  have hcommands : commands "(-450)F+[|f]F".toList =
      [⟨0, .face ⟨true, 450, 0⟩⟩, ⟨6, .forward true⟩, ⟨7, .turn .left⟩, ⟨8, .push⟩,
        ⟨9, .turn .around⟩, ⟨10, .forward false⟩, ⟨11, .pop⟩, ⟨12, .forward true⟩] := by
    decide +kernel
  have hliteral : ∀ i ∈ commands "(-450)F+[|f]F".toList, ∀ a, i.command = .face a →
      ∃ k : ℤ, a.toRat = 90 * k := by
    rw [hcommands]
    simp only [List.mem_cons, List.not_mem_nil, or_false, forall_eq_or_imp, forall_eq,
      reduceCtorEq, false_implies, implies_true, and_true, Command.face.injEq]
    rintro a rfl
    exact ⟨-5, by norm_num [Decimal.toRat]⟩
  have hdraw : Lattice.draw "(-450)F+[|f]F".toList 3 5 = .ok ⟨[.segment ⟨3, 0⟩ ⟨3, -1⟩,
      .travel ⟨3, -1⟩ ⟨2, -1⟩, .restore ⟨3, -1⟩, .segment ⟨3, -1⟩ ⟨4, -1⟩],
      ⟨2, 4, -1, 0⟩, 3⟩ := by
    decide +kernel
  refine ⟨hliteral, ?_⟩
  rw [(compile_eq_lattice _ 3 5 hliteral).1, hdraw]
  rfl

end Lindenmayer

import Lindenmayer.Canvas
import Lindenmayer.Proofs.Walk

/-!
# Drawings in exact numbers

With the numbers of an ordered ring for coordinates nothing is rounded, and the laws of
geometry hold of drawings:

* `compile_shift`: a drawing that starts elsewhere on the axis is the same drawing,
  shifted — its moves, its branches and its bounds;
* `compile_bounds`: the bounds are in order and contain the start.

What a step along a heading is does not matter for either, and headings may be rounded.
-/

namespace Lindenmayer

/-- The numbers of an ordered ring measure positions without rounding. -/
instance (priority := low) exactCoordinate {κ : Type} [Ring κ] [LinearOrder κ] :
    Coordinate κ where
  ofInt n := n
  add := (· + ·)
  abs x := |x|
  lesser := min
  greater := max

/-- Rational degrees are added without rounding. -/
instance : Heading ℚ where
  ofDecimal := Decimal.toRat
  add := (· + ·)
  neg := (- ·)
  degrees? := some

variable {η κ : Type} [Heading η] [Ring κ] [LinearOrder κ]

theorem ofInt_zero : Coordinate.ofInt 0 = (0 : κ) := Int.cast_zero

/-! ## Other points -/

/-- The primitive with other points in place of its points. -/
def Primitive.map {κ κ' : Type} (f : Point κ → Point κ') : Primitive κ → Primitive κ'
  | .segment start stop => .segment (f start) (f stop)
  | .travel start stop => .travel (f start) (f stop)
  | .restore stop => .restore (f stop)
  | .polygonBegin origin => .polygonBegin (f origin)
  | .polygonEnd => .polygonEnd

theorem Primitive.moveEnd?_map {κ κ' : Type} (f : Point κ → Point κ') (p : Primitive κ) :
    (p.map f).moveEnd? = p.moveEnd?.map f := by
  cases p <;> rfl

/-- The bounds of other points are told from the bounds if this is so of a single point and
    of a box that is widened. -/
theorem Drawing.bounds_map {κ κ' : Type} [Coordinate κ] [Coordinate κ'] {f : Point κ → Point κ'}
    {g : BoundingBox κ → BoundingBox κ'} (hpoint : ∀ p, .ofPoint (f p) = g (.ofPoint p))
    (hwiden : ∀ b p, (g b).widen (f p) = g (b.widen p)) (start : Point κ)
    (l : List (Primitive κ)) : bounds (f start) (l.map (Primitive.map f)) = g (bounds start l) := by
  have hends : (l.map (Primitive.map f)).filterMap Primitive.moveEnd? =
      (l.filterMap Primitive.moveEnd?).map f := by
    rw [List.filterMap_map, List.map_filterMap]
    exact congrArg (List.filterMap · l) (funext (Primitive.moveEnd?_map f))
  rw [bounds, hends, List.foldl_map, hpoint, bounds]
  exact List.foldl_hom g hwiden

/-! ## Shifting -/

/-- The point moved by `x` along the first axis. -/
def Point.shift (x : κ) (p : Point κ) : Point κ := ⟨x + p.x, p.y⟩

theorem Point.add_shift (x : κ) (p q : Point κ) : (p.shift x).add q = (p.add q).shift x := by
  simp only [Point.add, Point.shift]
  exact congrArg (Point.mk · _) (add_assoc x p.x q.x)

/-- The turtle moved by `x` along the first axis. -/
def Turtle.shift (x : κ) (t : Turtle η κ) : Turtle η κ := { t with position := t.position.shift x }

/-- The turtle and the turtles saved, moved by `x` along the first axis. -/
def Walker.shift (x : κ) (w : Walker η κ) : Walker η κ :=
  ⟨w.turtle.shift x, w.saved.map (Turtle.shift x)⟩

/-- The primitive moved by `x` along the first axis. -/
def Primitive.shift (x : κ) : Primitive κ → Primitive κ
  | .segment start stop => .segment (start.shift x) (stop.shift x)
  | .travel start stop => .travel (start.shift x) (stop.shift x)
  | .restore stop => .restore (stop.shift x)
  | .polygonBegin origin => .polygonBegin (origin.shift x)
  | .polygonEnd => .polygonEnd

/-- The box moved by `x` along the first axis. -/
def BoundingBox.shift (x : κ) (b : BoundingBox κ) : BoundingBox κ :=
  ⟨x + b.xMin, x + b.xMax, b.yMin, b.yMax⟩

/-- The record moved by `x` along the first axis. -/
def Recording.shift (x : κ) (r : Recording η κ) : Recording η κ :=
  ⟨r.walker.shift x, r.primitives.map (Primitive.shift x), r.polygonOpen⟩

/-- The drawing moved by `x` along the first axis. -/
def Drawing.shift (x : κ) (d : Drawing κ) : Drawing κ :=
  ⟨d.primitives.map (Primitive.shift x), d.bbox.shift x, x + d.originX⟩

variable {unit : η → Point κ} {angle : η}

theorem Walker.step_shift (x : κ) (w : Walker η κ) (i : Instruction) :
    Agree (fun v v' : Walker η κ => v' = v.shift x)
      (w.step unit angle i) ((w.shift x).step unit angle i) := by
  unfold Walker.step
  cases i.command with
  | forward drawn =>
    refine .ok ?_
    simp only [Walker.shift, Turtle.shift, Turtle.advance, Point.add_shift]
  | pop =>
    rw [Walker.pop]
    cases hs : w.saved with
    | nil =>
      simp only [Walker.shift, hs, List.map_nil]
      exact .error _
    | cons t saved =>
      simp only [Walker.shift, hs, List.map_cons]
      exact .ok rfl
  | malformed => exact .error _
  | _ => exact .ok rfl

omit [LinearOrder κ] in
theorem Recording.leaves_shift (x : κ) (p q : Point κ) (command : Command) :
    leaves (p.shift x) (q.shift x) command = (leaves p q command).map (Primitive.shift x) := by
  cases command with
  | forward drawn => cases drawn <;> rfl
  | _ => rfl

theorem Recording.step_shift (x : κ) (r : Recording η κ) (i : Instruction) :
    Agree (fun s s' : Recording η κ => s' = s.shift x)
      (r.step unit angle i) ((r.shift x).step unit angle i) := by
  -- The walk is shifted, the marks are the same, and what is left is shifted.
  have hwalk : Agree (fun v v' : Walker η κ => v' = v.shift x)
      (r.walker.step unit angle i) ((r.walker.shift x).step unit angle i) := r.walker.step_shift x i
  cases hw : r.walker.step unit angle i with
  | error e =>
    have hw' : (r.shift x).walker.step unit angle i = .error e := (hw ▸ hwalk).error_iff.1 rfl
    rw [step_of_walker_error hw, step_of_walker_error hw']
    exact .error e
  | ok v =>
    obtain ⟨v', hw', rfl⟩ := hwalk.exists_right hw
    cases hmark : polygonAfter r.polygonOpen i.command.brace?.toList with
    | none =>
      rw [step_of_mark_none hmark, step_of_mark_none (r := r.shift x) hmark]
      exact .error _
    | some inside =>
      rw [step_of_walker_ok hw hmark, step_of_walker_ok (r := r.shift x) hw' hmark]
      refine .ok ?_
      have hleaves : leaves (r.shift x).position (v.shift x).turtle.position i.command =
          (leaves r.position v.turtle.position i.command).map (Primitive.shift x) :=
        leaves_shift x _ _ _
      rw [hleaves]
      cases leaves r.position v.turtle.position i.command <;> rfl

/-! ## Bounds -/

omit [LinearOrder κ] in
theorem Primitive.shift_eq_map (x : κ) : Primitive.shift x = Primitive.map (Point.shift x) := by
  funext p
  cases p <;> rfl

variable [IsStrictOrderedRing κ]

theorem BoundingBox.widen_shift (x : κ) (b : BoundingBox κ) (p : Point κ) :
    (b.shift x).widen (p.shift x) = (b.widen p).shift x := by
  simp only [widen, shift, Point.shift]
  exact congrArg₂ (BoundingBox.mk · · _ _) (min_add_add_left x b.xMin p.x)
    (max_add_add_left x b.xMax p.x)

theorem Drawing.bounds_shift (x : κ) (start : Point κ) (l : List (Primitive κ)) :
    bounds (start.shift x) (l.map (Primitive.shift x)) = (bounds start l).shift x := by
  rw [Primitive.shift_eq_map]
  exact bounds_map (fun _ => rfl) (fun b p => b.widen_shift x p) start l

/-- A drawing that starts at `x` is the drawing that starts at zero, shifted by `x`. -/
theorem compile_shift (unit : η → Point κ) (w : Word) (x : κ) (angle : η) :
    Agree (fun d d' : Drawing κ => d' = d.shift x)
      (compile unit w (Coordinate.ofInt 0) angle) (compile unit w x angle) := by
  have hzero : x + Coordinate.ofInt 0 = x := by
    rw [ofInt_zero, add_zero]
  have hpoint : Point.shift x ⟨Coordinate.ofInt 0, Coordinate.ofInt 0⟩ =
      ⟨x, Coordinate.ofInt 0⟩ := congrArg (Point.mk · _) hzero
  have hstart : (.start ⟨x, Coordinate.ofInt 0⟩ : Recording η κ) =
      (Recording.start ⟨Coordinate.ofInt 0, Coordinate.ofInt 0⟩).shift x := by
    rw [← hpoint]
    rfl
  have hrun : Agree (fun r r' : Recording η κ => r' = r.shift x)
      (Recording.run unit angle (.start ⟨Coordinate.ofInt 0, Coordinate.ofInt 0⟩) (commands w))
      (Recording.run unit angle (.start ⟨x, Coordinate.ofInt 0⟩) (commands w)) :=
    foldlM_agree (fun (r r' : Recording η κ) i h => h ▸ r.step_shift x i) _ hstart
  unfold compile
  dsimp only
  split_ifs
  · exact .error _
  · exact .error _
  · generalize Recording.run unit angle (.start ⟨x, _⟩) (commands w) = y at hrun ⊢
    generalize Recording.run unit angle _ (commands w) = y' at hrun ⊢
    cases hrun with
    | error e => exact .error e
    | @ok r _ h =>
      subst h
      cases hopen : r.polygonOpen with
      | true =>
        simp only [Recording.shift, hopen, if_true]
        exact .error _
      | false =>
        simp only [Recording.shift, hopen, Bool.false_eq_true, if_false]
        refine .ok ?_
        rw [← List.map_reverse, ← hpoint, Drawing.bounds_shift, Drawing.shift, hzero]

/-! ## Boxes -/

/-- A box whose bounds are in order and which contains a point. -/
structure BoundingBox.Holds (b : BoundingBox κ) (p : Point κ) : Prop where
  xMin_le : b.xMin ≤ p.x
  le_xMax : p.x ≤ b.xMax
  yMin_le : b.yMin ≤ p.y
  le_yMax : p.y ≤ b.yMax

omit [IsStrictOrderedRing κ] in
theorem Drawing.bounds_holds_start (start : Point κ) (l : List (Primitive κ)) :
    (bounds start l).Holds start := by
  have hfold : ∀ (ps : List (Point κ)) (b : BoundingBox κ), b.Holds start →
      (ps.foldl .widen b).Holds start := by
    intro ps
    induction ps with
    | nil => exact fun _ h => h
    | cons p ps ih =>
      exact fun b h => ih _ ⟨(min_le_left _ _).trans h.xMin_le, h.le_xMax.trans (le_max_left _ _),
        (min_le_left _ _).trans h.yMin_le, h.le_yMax.trans (le_max_left _ _)⟩
  exact hfold _ _ ⟨le_rfl, le_rfl, le_rfl, le_rfl⟩

omit [IsStrictOrderedRing κ] in
/-- The bounds of a drawing contain its start. -/
theorem compile_bounds {w : Word} {x : κ} {d : Drawing κ} (h : compile unit w x angle = .ok d) :
    d.bbox.Holds ⟨x, 0⟩ := by
  obtain ⟨-, -, r, -, -, rfl⟩ := compile_eq_ok_iff.1 h
  have hzero : Coordinate.ofInt 0 = (0 : κ) := ofInt_zero
  exact hzero ▸ Drawing.bounds_holds_start _ _

end Lindenmayer

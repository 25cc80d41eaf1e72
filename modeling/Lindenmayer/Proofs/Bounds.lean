import Lindenmayer.Proofs.DryRun
import Lindenmayer.Proofs.Floats

/-!
# The bounds of a drawing

The bounds of a drawing are widened by the ends of its moves alone. They hold every point
that is named in the drawing nevertheless, since a turtle only ever stands where it has
started or where a move has ended (`Recording.Charted`): a branch brings it back to such a
point, and so a polygon begins at one.

* `charted_of_compile`: every point that a primitive names is visited;
* `bounds_isHull`: the bounds are the least box around the visited points, if all of their
  coordinates are numbers;
* `bbox_isHull`: so the bounds of a drawing in binary64 hold all that is drawn, each side of
  them is reached, and on the way they are only ever widened.
-/

namespace Lindenmayer

/-! ## Visited points -/

section

variable {κ : Type}

/-- The points that a primitive names. -/
def Primitive.points : Primitive κ → List (Point κ)
  | .segment start stop => [start, stop]
  | .travel start stop => [start, stop]
  | .restore stop => [stop]
  | .polygonBegin origin => [origin]
  | .polygonEnd => []

/-- The point that moves start from, and the points where they end. -/
def visits (start : Point κ) (primitives : List (Primitive κ)) : List (Point κ) :=
  start :: primitives.filterMap Primitive.moveEnd?

/-- The points of a drawing that its turtle has come to by moving, and the one where it has
    started. -/
def Drawing.visited [Coordinate κ] (d : Drawing κ) : List (Point κ) :=
  visits ⟨d.originX, Coordinate.ofInt 0⟩ d.primitives

/-- The points that are named in a drawing, and the one where it starts. -/
def Drawing.points [Coordinate κ] (d : Drawing κ) : List (Point κ) :=
  ⟨d.originX, Coordinate.ofInt 0⟩ :: d.primitives.flatMap Primitive.points

/-- What is visited stays visited when more is left. -/
theorem mem_visits_append {start p : Point κ} {l : List (Primitive κ)} (h : p ∈ visits start l)
    (m : List (Primitive κ)) : p ∈ visits start (m ++ l) := by
  rw [visits, List.mem_cons] at h ⊢
  rw [List.filterMap_append, List.mem_append]
  exact h.imp_right .inr

theorem mem_visits_reverse {start p : Point κ} {l : List (Primitive κ)} :
    p ∈ visits start l.reverse ↔ p ∈ visits start l := by
  simp [visits]

namespace Recording

variable {η : Type} {start : Point κ} {r r' : Recording η κ}

/-- Where the turtle is, where it may be brought back to, and what it has left points at are
    points it has started from or moved to. -/
structure Charted (start : Point κ) (r : Recording η κ) : Prop where
  position : r.position ∈ visits start r.primitives
  saved : ∀ t ∈ r.walker.saved, t.position ∈ visits start r.primitives
  named : ∀ a ∈ r.primitives, ∀ p ∈ a.points, p ∈ visits start r.primitives

theorem charted_start [Heading η] : Charted start (.start start : Recording η κ) where
  position := List.mem_cons_self
  saved _ ht := absurd ht List.not_mem_nil
  named _ ha := absurd ha List.not_mem_nil

theorem Charted.leave (h : Charted start r) {w : Walker η κ} {left : Option (Primitive κ)}
    {inside : Bool} (hposition : w.turtle.position ∈ visits start (left.toList ++ r.primitives))
    (hsaved : ∀ t ∈ w.saved, t.position ∈ visits start r.primitives)
    (hleft : ∀ a ∈ left, ∀ p ∈ a.points, p ∈ visits start (left.toList ++ r.primitives)) :
    Charted start ⟨w, left.toList ++ r.primitives, inside⟩ := by
  refine ⟨hposition, fun t ht => mem_visits_append (hsaved t ht) _, fun a ha p hp => ?_⟩
  rcases List.mem_append.1 ha with ha | ha
  · exact hleft a (Option.mem_toList.1 ha) p hp
  · exact mem_visits_append (h.named a ha p hp) _

variable [Heading η] [Coordinate κ] {unit : η → Point κ} {angle : η}

/-- A move goes to a point that is visited by it, and the end of a branch to one that was
    visited when the branch began. -/
theorem Charted.step {i : Instruction} (h : Charted start r)
    (hstep : r.step unit angle i = .ok r') : Charted start r' := by
  obtain ⟨w, inside, hw, -, rfl⟩ := step_eq_ok_iff.1 hstep
  rw [Walker.step] at hw
  have hstart : r.position ∈ visits start r.primitives := h.position
  cases hc : i.command with
  | forward drawn =>
    rw [hc] at hw
    obtain rfl := Except.ok.inj hw
    cases drawn
    all_goals
      refine h.leave (List.mem_cons_of_mem _ List.mem_cons_self) h.saved fun a ha p hp => ?_
      obtain rfl := Option.some.inj ha
      simp only [Primitive.points, List.mem_cons, List.not_mem_nil, or_false] at hp
      rcases hp with rfl | rfl
      · exact mem_visits_append hstart [_]
      · exact List.mem_cons_of_mem _ List.mem_cons_self
  | push =>
    rw [hc] at hw
    obtain rfl := Except.ok.inj hw
    exact ⟨hstart, List.forall_mem_cons.2 ⟨hstart, h.saved⟩, h.named⟩
  | pop =>
    rw [hc] at hw
    have hsaved := h.saved
    cases hs : r.walker.saved with
    | nil => simp [Walker.pop, hs] at hw
    | cons t saved =>
      rw [hs, List.forall_mem_cons] at hsaved
      simp only [Walker.pop, hs] at hw
      obtain rfl := Except.ok.inj hw
      refine h.leave hsaved.1 hsaved.2 fun a ha p hp => ?_
      obtain rfl := Option.some.inj ha
      obtain rfl := List.mem_singleton.1 hp
      exact hsaved.1
  | beginPolygon =>
    rw [hc] at hw
    obtain rfl := Except.ok.inj hw
    refine h.leave hstart h.saved fun a ha p hp => ?_
    obtain rfl := Option.some.inj ha
    obtain rfl := List.mem_singleton.1 hp
    exact hstart
  | endPolygon =>
    rw [hc] at hw
    obtain rfl := Except.ok.inj hw
    refine h.leave hstart h.saved fun a ha p hp => ?_
    obtain rfl := Option.some.inj ha
    cases hp
  | malformed =>
    rw [hc] at hw
    cases hw
  | _ =>
    rw [hc] at hw
    obtain rfl := Except.ok.inj hw
    exact ⟨hstart, h.saved, h.named⟩

theorem visits_subset_of_run (start : Point κ) {l : List Instruction}
    (h : r.run unit angle l = .ok r') :
    visits start r.primitives.reverse ⊆ visits start r'.primitives.reverse := by
  obtain ⟨left, hleft⟩ := exists_left_of_run h
  intro p hp
  rw [mem_visits_reverse] at hp ⊢
  exact hleft ▸ mem_visits_append hp left

theorem Charted.run {l : List Instruction} (h : Charted start r)
    (hrun : r.run unit angle l = .ok r') : Charted start r' :=
  foldlM_preserves (fun _ _ _ => Charted.step) hrun h

end Recording

variable {η : Type} [Heading η] [Coordinate κ] {unit : η → Point κ} {angle : η}

/-- Every point that is named in a drawing is visited. -/
theorem charted_of_compile {w : Word} {originX : κ} {d : Drawing κ}
    (h : compile unit w originX angle = .ok d) : ∀ p ∈ d.points, p ∈ d.visited := by
  obtain ⟨-, -, r, hr, -, rfl⟩ := compile_eq_ok_iff.1 h
  have hcharted := Recording.charted_start.run hr
  intro p hp
  rcases List.mem_cons.1 hp with rfl | hp
  · exact List.mem_cons_self
  obtain ⟨a, ha, hp⟩ := List.mem_flatMap.1 hp
  exact mem_visits_reverse.2 (hcharted.named a (List.mem_reverse.1 ha) p hp)

/-- Each side of a box that is widened by points is widened by their coordinates. -/
theorem foldl_widen (b : BoundingBox κ) (ps : List (Point κ)) :
    ps.foldl .widen b =
      ⟨(ps.map Point.x).foldl Coordinate.lesser b.xMin,
        (ps.map Point.x).foldl Coordinate.greater b.xMax,
        (ps.map Point.y).foldl Coordinate.lesser b.yMin,
        (ps.map Point.y).foldl Coordinate.greater b.yMax⟩ := by
  induction ps generalizing b with
  | nil => rfl
  | cons p ps ih => exact ih (b.widen p)

end

/-! ## Boxes in binary64 -/

/-- A point whose coordinates are numbers. -/
def Point.IsNumber (p : Point Float) : Prop := ¬ p.x.isNaN ∧ ¬ p.y.isNaN

instance (p : Point Float) : Decidable p.IsNumber :=
  inferInstanceAs (Decidable (¬ p.x.isNaN ∧ ¬ p.y.isNaN))

namespace BoundingBox

/-- The least box around points: it holds all of them, and each side is reached by one. -/
structure IsHull (b : BoundingBox Float) (ps : List (Point Float)) : Prop where
  contains : ∀ p ∈ ps, b.contains p
  xMin : ∃ p ∈ ps, b.xMin = p.x
  xMax : ∃ p ∈ ps, b.xMax = p.x
  yMin : ∃ p ∈ ps, b.yMin = p.y
  yMax : ∃ p ∈ ps, b.yMax = p.y

/-- A box that is no wider than another one, on any side. -/
structure Within (b c : BoundingBox Float) : Prop where
  xMin : c.xMin ≤ b.xMin
  xMax : b.xMax ≤ c.xMax
  yMin : c.yMin ≤ b.yMin
  yMax : b.yMax ≤ c.yMax

/-- The least box around more points is no narrower. -/
theorem IsHull.within {b c : BoundingBox Float} {ps qs : List (Point Float)} (hb : b.IsHull ps)
    (hc : c.IsHull qs) (hsub : ps ⊆ qs) : b.Within c := by
  have hin : ∀ p ∈ ps, c.xMin ≤ p.x ∧ p.x ≤ c.xMax ∧ c.yMin ≤ p.y ∧ p.y ≤ c.yMax :=
    fun p hp => of_decide_eq_true (hc.contains p (hsub hp))
  obtain ⟨p₁, h₁, hxMin⟩ := hb.xMin
  obtain ⟨p₂, h₂, hxMax⟩ := hb.xMax
  obtain ⟨p₃, h₃, hyMin⟩ := hb.yMin
  obtain ⟨p₄, h₄, hyMax⟩ := hb.yMax
  exact ⟨hxMin ▸ (hin p₁ h₁).1, hxMax ▸ (hin p₂ h₂).2.1, hyMin ▸ (hin p₃ h₃).2.2.1,
    hyMax ▸ (hin p₄ h₄).2.2.2⟩

end BoundingBox

/-- The bounds of moves are the least box around the points that are visited. -/
theorem bounds_isHull {start : Point Float} {l : List (Primitive Float)}
    (h : ∀ p ∈ visits start l, p.IsNumber) : (Drawing.bounds start l).IsHull (visits start l) := by
  have hx : ∀ x ∈ (visits start l).map Point.x, ¬ x.isNaN :=
    List.forall_mem_map.2 fun p hp => (h p hp).1
  have hy : ∀ y ∈ (visits start l).map Point.y, ¬ y.isNaN :=
    List.forall_mem_map.2 fun p hp => (h p hp).2
  obtain ⟨hxMin, hleft⟩ := selects_minNumber.foldl hx
  obtain ⟨hxMax, hright⟩ := selects_maxNumber.foldl hx
  obtain ⟨hyMin, hbelow⟩ := selects_minNumber.foldl hy
  obtain ⟨hyMax, habove⟩ := selects_maxNumber.foldl hy
  have hreached : ∀ {f : Point Float → Float} {v : Float}, v ∈ (visits start l).map f →
      ∃ p ∈ visits start l, v = f p := by
    intro f v hv
    obtain ⟨p, hp, rfl⟩ := List.mem_map.1 hv
    exact ⟨p, hp, rfl⟩
  rw [Drawing.bounds, foldl_widen]
  refine ⟨fun p hp => ?_, hreached hxMin, hreached hxMax, hreached hyMin, hreached hyMax⟩
  have hpx : p.x ∈ (visits start l).map Point.x := List.mem_map_of_mem hp
  have hpy : p.y ∈ (visits start l).map Point.y := List.mem_map_of_mem hp
  exact decide_eq_true ⟨hleft _ hpx, hright _ hpx, hbelow _ hpy, habove _ hpy⟩

/-- The bounds of a drawing are the hull of the path of its turtle, if all the coordinates
    it visits are numbers: they hold where the turtle starts and every point that is named
    in the drawing, and each side is reached by the start or by the end of a move. Along the
    walk, they are only ever widened. -/
theorem bbox_isHull {η : Type} [Heading η] {unit : η → Point Float} {angle : η} {w : Word}
    {originX : Float} {d : Drawing Float} (h : compile unit w originX angle = .ok d)
    (hnumber : ∀ p ∈ d.visited, p.IsNumber) :
    d.bbox.IsHull d.visited ∧ (∀ p ∈ d.points, d.bbox.contains p) ∧
    ∀ l₁ l₂ l₃, commands w = l₁ ++ l₂ ++ l₃ → ∃ r₁ r₂ : Recording η Float,
      Recording.run unit angle (.start ⟨originX, Coordinate.ofInt 0⟩) l₁ = .ok r₁ ∧
      Recording.run unit angle (.start ⟨originX, Coordinate.ofInt 0⟩) (l₁ ++ l₂) = .ok r₂ ∧
      (Drawing.bounds ⟨originX, Coordinate.ofInt 0⟩ r₁.primitives.reverse).Within
        (Drawing.bounds ⟨originX, Coordinate.ofInt 0⟩ r₂.primitives.reverse) := by
  have hcharted := charted_of_compile h
  obtain ⟨-, -, r, hr, -, rfl⟩ := compile_eq_ok_iff.1 h
  have hhull := bounds_isHull hnumber
  refine ⟨hhull, fun p hp => hhull.contains p (hcharted p hp), fun l₁ l₂ l₃ hl => ?_⟩
  rw [hl] at hr
  obtain ⟨r₂, hr₂, hr⟩ := Recording.run_append_eq_ok_iff.1 hr
  obtain ⟨r₁, hr₁, hr₁₂⟩ := Recording.run_append_eq_ok_iff.1 hr₂
  refine ⟨r₁, r₂, hr₁, hr₂, ?_⟩
  -- The points visited so far stay visited, and so do their coordinates stay numbers.
  have hsub₁ := Recording.visits_subset_of_run ⟨originX, Coordinate.ofInt 0⟩ hr₁₂
  have hsub₂ := Recording.visits_subset_of_run ⟨originX, Coordinate.ofInt 0⟩ hr
  have hhull₂ := bounds_isHull fun p hp => hnumber p (hsub₂ hp)
  have hhull₁ := bounds_isHull fun p hp => hnumber p (hsub₂ (hsub₁ hp))
  exact hhull₁.within hhull₂ hsub₁

/-- A polygon begins where a branch has been left, and one side goes up. -/
theorem bbox_isHull_behindBranch : ∃ d,
    compile floatStep ['F', '[', '+', 'F', ']', '{', 'F', '}'] 0 90 = .ok d ∧
      d.bbox.IsHull d.visited ∧ ∀ p ∈ d.points, d.bbox.contains p := by
  have hok : (compile floatStep ['F', '[', '+', 'F', ']', '{', 'F', '}'] 0 90).toOption.map
      (fun d => decide (∀ p ∈ d.visited, p.IsNumber)) = some true := by
    decide +kernel
  obtain ⟨d, hd, hnumber⟩ := exists_ok_of_map_toOption hok
  obtain ⟨hhull, hpoints, -⟩ := bbox_isHull hd (of_decide_eq_true hnumber)
  exact ⟨d, hd, hhull, hpoints⟩

end Lindenmayer

import Lindenmayer.Proofs.DryRun
import Lindenmayer.Proofs.Exact

/-!
# Placement

Drawings on a canvas do not overlap, in exact numbers. What leaves the room is the dry
run: a drawing reaches as far to the left of its start as its dry run does
(`xMin_of_compile`), so it begins right behind the gap to the drawing before it
(`xMin_of_gapBefore`). By induction over the words that are placed, neighbours are a gap
apart (`place_isChain`), and since every box contains its start (`compile_bounds`), so
are any two drawings (`pairwise_apart`).
-/

namespace Lindenmayer

variable {η κ : Type}

/-! ## Placing words -/

section

variable [Heading η] [Coordinate κ] {unit : η → Point κ}

/-- A word is placed if it compiles where it starts, the start of the next one is found,
    and the others are placed. -/
theorem place_cons_eq_ok_iff {input : SubplotInput η} {rest : List (SubplotInput η)} {x : κ}
    {subplots : List (Subplot κ)} :
    place unit x (input :: rest) = .ok subplots ↔ ∃ d next tail,
      compile unit input.word x input.angle = .ok d ∧ nextOrigin? unit d rest = .ok next ∧
      place unit (next.getD x) rest = .ok tail ∧ subplots = ⟨d, x, input.label⟩ :: tail := by
  rw [place]
  cases compile unit input.word x input.angle with
  | error e => simp [bind, Except.bind]
  | ok d =>
    cases hnext : nextOrigin? unit d rest with
    | error e => simp [bind, Except.bind, hnext]
    | ok next =>
      cases htail : place unit (next.getD x) rest with
      | error e => simp [bind, Except.bind, hnext, htail]
      | ok tail => simp [bind, Except.bind, hnext, htail, pure, Except.pure, eq_comm]

/-- Every subplot is the drawing of one of the words, from where it is placed. -/
theorem compile_of_place {inputs : List (SubplotInput η)} {x : κ} {subplots : List (Subplot κ)}
    (h : place unit x inputs = .ok subplots) : ∀ s ∈ subplots, ∃ input ∈ inputs,
      s.label = input.label ∧ compile unit input.word s.originX input.angle = .ok s.drawing := by
  induction inputs generalizing x subplots with
  | nil =>
    obtain rfl := Except.ok.inj h
    exact fun s hs => absurd hs List.not_mem_nil
  | cons input rest ih =>
    obtain ⟨d, next, tail, hd, -, htail, rfl⟩ := place_cons_eq_ok_iff.1 h
    intro s hs
    rcases List.mem_cons.1 hs with rfl | hs
    · exact ⟨input, List.mem_cons_self, rfl, hd⟩
    · obtain ⟨other, hother, hcompile⟩ := ih htail s hs
      exact ⟨other, List.mem_cons_of_mem _ hother, hcompile⟩

theorem layout_eq_ok_iff {inputs : List (SubplotInput η)} {canvas : Canvas κ} :
    layout unit inputs = .ok canvas ↔ inputs ≠ [] ∧ ∃ subplots,
      place unit (Coordinate.ofInt 0) inputs = .ok subplots ∧
      canvas = ⟨subplots, subplots.foldl (fun b s => b.union s.drawing.bbox)
        (.ofPoint Point.origin)⟩ := by
  rw [layout]
  cases inputs with
  | nil => simp
  | cons input rest =>
    cases hplace : place unit (Coordinate.ofInt 0) (input :: rest) with
    | error e => simp [bind, Except.bind]
    | ok subplots => simp [bind, Except.bind, pure, Except.pure, eq_comm]

end

variable [Heading η] [Ring κ] [LinearOrder κ] [IsStrictOrderedRing κ] {unit : η → Point κ}

/-! ## Neighbours -/

/-- A drawing reaches as far to the left of its start as its dry run does from zero. -/
theorem xMin_of_compile {w : Word} {x : κ} {angle : η} {d : Drawing κ}
    (h : compile unit w x angle = .ok d) :
    ∃ e, leftmostExcursion unit w angle = .ok e ∧ e ≤ 0 ∧ d.bbox.xMin = x + e := by
  obtain ⟨d₀, h₀, rfl⟩ := (compile_shift unit w x angle).exists_left h
  have hzero : Coordinate.ofInt 0 = (0 : κ) := ofInt_zero
  have hle : d₀.bbox.xMin ≤ Coordinate.ofInt 0 := (compile_bounds h₀).xMin_le
  exact ⟨_, leftmostExcursion_of_compile h₀, hzero ▸ hle, rfl⟩

/-- A drawing with the gap before it begins where the gap ends. -/
theorem xMin_of_gapBefore {w : Word} {x gap : κ} {angle : η} {d : Drawing κ}
    (hgap : gapBefore unit w angle = .ok gap)
    (h : compile unit w (Coordinate.add x gap) angle = .ok d) :
    d.bbox.xMin = x + gapNudge := by
  obtain ⟨e, he, hle, hxMin⟩ := xMin_of_compile h
  simp only [gapBefore, he, Except.ok.injEq] at hgap
  subst hgap
  calc d.bbox.xMin
      = (x + (|e| + gapNudge)) + e := hxMin
    _ = (x + (-e + gapNudge)) + e := by rw [abs_of_nonpos hle]
    _ = x + gapNudge := by abel

/-- The second subplot begins a gap behind the end of the first one. -/
def Beside (s t : Subplot κ) : Prop := t.drawing.bbox.xMin = s.drawing.bbox.xMax + gapNudge

/-- The box of a subplot contains where it starts. -/
def Anchored (s : Subplot κ) : Prop := s.drawing.bbox.Holds ⟨s.originX, 0⟩

omit [IsStrictOrderedRing κ] in
theorem place_anchored {x : κ} {inputs : List (SubplotInput η)} {subplots : List (Subplot κ)}
    (h : place unit x inputs = .ok subplots) : ∀ s ∈ subplots, Anchored s := by
  intro s hs
  obtain ⟨input, -, -, hcompile⟩ := compile_of_place h s hs
  exact compile_bounds hcompile

/-- Neighbours are a gap apart. -/
theorem place_isChain {x : κ} {inputs : List (SubplotInput η)} {subplots : List (Subplot κ)}
    (h : place unit x inputs = .ok subplots) : subplots.IsChain Beside := by
  induction inputs generalizing x subplots with
  | nil =>
    obtain rfl : [] = subplots := Except.ok.inj h
    exact .nil
  | cons input rest ih =>
    obtain ⟨d, next, tail, -, hnext, htail, rfl⟩ := place_cons_eq_ok_iff.1 h
    cases rest with
    | nil =>
      obtain rfl : [] = tail := Except.ok.inj htail
      exact .singleton _
    | cons input' rest =>
      have hchain := ih htail
      -- The next subplot starts behind its gap, so it begins where the gap ends.
      obtain ⟨d', next', tail', hd', -, -, rfl⟩ := place_cons_eq_ok_iff.1 htail
      cases hgap : gapBefore unit input'.word input'.angle with
      | error e => simp [nextOrigin?, hgap] at hnext
      | ok gap =>
        simp only [nextOrigin?, hgap, Except.ok.injEq] at hnext
        subst hnext
        exact List.isChain_cons_cons.2 ⟨xMin_of_gapBefore hgap hd', hchain⟩

/-- The second subplot lies and starts to the right of the first one, by the gap at
    least. -/
def Apart (s t : Subplot κ) : Prop :=
  s.drawing.bbox.xMax + gapNudge ≤ t.drawing.bbox.xMin ∧ s.originX < t.originX

theorem gapNudge_pos : (0 : κ) < gapNudge := by
  have h : (gapNudge : κ) = 2 := by
    change ((2 : ℤ) : κ) = 2
    norm_num
  rw [h]
  exact two_pos

/-- Subplots of which neighbours are a gap apart lie apart. -/
theorem pairwise_apart {subplots : List (Subplot κ)} (hchain : subplots.IsChain Beside)
    (hanchored : ∀ s ∈ subplots, Anchored s) : subplots.Pairwise Apart := by
  induction subplots with
  | nil => exact .nil
  | cons s rest ih =>
    have hrest : rest.Pairwise Apart :=
      ih hchain.tail fun t ht => hanchored t (List.mem_cons_of_mem _ ht)
    refine List.pairwise_cons.2 ⟨?_, hrest⟩
    cases rest with
    | nil => exact fun _ ht => absurd ht List.not_mem_nil
    | cons t rest =>
      have hbeside : Beside s t := (List.isChain_cons_cons.1 hchain).1
      have hs := hanchored s List.mem_cons_self
      have ht := hanchored t (List.mem_cons_of_mem _ List.mem_cons_self)
      have hpos : (0 : κ) < gapNudge := gapNudge_pos
      have hst : Apart s t := by
        refine ⟨hbeside.ge, ?_⟩
        calc s.originX ≤ s.drawing.bbox.xMax := hs.le_xMax
          _ < s.drawing.bbox.xMax + gapNudge := lt_add_of_pos_right _ hpos
          _ = t.drawing.bbox.xMin := hbeside.symm
          _ ≤ t.originX := ht.xMin_le
      intro u hu
      rcases List.mem_cons.1 hu with rfl | hu
      · exact hst
      · -- Behind the neighbour, by way of it.
        have htu : Apart t u := (List.pairwise_cons.1 hrest).1 u hu
        refine ⟨?_, hst.2.trans htu.2⟩
        calc s.drawing.bbox.xMax + gapNudge ≤ t.drawing.bbox.xMin := hst.1
          _ ≤ t.originX := ht.xMin_le
          _ ≤ t.drawing.bbox.xMax := ht.le_xMax
          _ ≤ t.drawing.bbox.xMax + gapNudge := (lt_add_of_pos_right _ hpos).le
          _ ≤ u.drawing.bbox.xMin := htu.1

/-! ## The bounds of a canvas -/

section

omit [Ring κ] [IsStrictOrderedRing κ]

/-- The least of a list and of a number that is not below all of it. -/
theorem isLeast_foldl_min {l : List κ} {b : κ} (h : ∃ y ∈ l, y ≤ b) :
    IsLeast {y | y ∈ l} (l.foldl min b) := by
  have hfold : IsLeast (insert b {y | y ∈ l}) (l.foldl min b) := by
    clear h
    induction l generalizing b with
    | nil => simp
    | cons c l ih =>
      have hrest := ih (b := min b c)
      refine ⟨?_, ?_⟩
      · rcases hrest.1 with h | h
        · rw [List.foldl_cons, h]
          rcases min_choice b c with hbc | hbc <;> simp [hbc]
        · exact .inr (List.mem_cons_of_mem _ h)
      · rintro y (rfl | hy)
        · exact (hrest.2 (.inl rfl)).trans (min_le_left _ _)
        · rcases List.mem_cons.1 hy with rfl | hy
          · exact (hrest.2 (.inl rfl)).trans (min_le_right _ _)
          · exact hrest.2 (.inr hy)
  obtain ⟨y, hy, hyb⟩ := h
  refine ⟨?_, fun z hz => hfold.2 (.inr hz)⟩
  rcases hfold.1 with hb | hmem
  · -- The number itself is the least, so it is in the list.
    rw [hb]
    exact le_antisymm (hb ▸ hfold.2 (.inr hy)) hyb ▸ hy
  · exact hmem

theorem isGreatest_foldl_max {l : List κ} {b : κ} (h : ∃ y ∈ l, b ≤ y) :
    IsGreatest {y | y ∈ l} (l.foldl max b) :=
  @isLeast_foldl_min κᵒᵈ _ l b h

end

omit [IsStrictOrderedRing κ] in
/-- The bounds of a union are the least and the greatest bounds. -/
theorem foldl_union (l : List (Subplot κ)) (b : BoundingBox κ) :
    l.foldl (fun b s => b.union s.drawing.bbox) b =
      ⟨(l.map (·.drawing.bbox.xMin)).foldl min b.xMin,
        (l.map (·.drawing.bbox.xMax)).foldl max b.xMax,
        (l.map (·.drawing.bbox.yMin)).foldl min b.yMin,
        (l.map (·.drawing.bbox.yMax)).foldl max b.yMax⟩ := by
  induction l generalizing b with
  | nil => rfl
  | cons s l ih =>
    rw [List.foldl_cons, ih]
    rfl

/-- Of subplots that lie apart, the first one reaches the furthest to the left. -/
theorem isLeast_xMin_head {s : Subplot κ} {rest : List (Subplot κ)}
    (hapart : (s :: rest).Pairwise Apart) (hs : Anchored s) :
    IsLeast {y | y ∈ (s :: rest).map (·.drawing.bbox.xMin)} s.drawing.bbox.xMin := by
  refine ⟨List.mem_cons_self, fun y hy => ?_⟩
  obtain ⟨t, ht, rfl⟩ := List.mem_map.1 hy
  rcases List.mem_cons.1 ht with rfl | ht
  · exact le_rfl
  · calc s.drawing.bbox.xMin ≤ s.originX := hs.xMin_le
      _ ≤ s.drawing.bbox.xMax := hs.le_xMax
      _ ≤ s.drawing.bbox.xMax + gapNudge := (lt_add_of_pos_right _ gapNudge_pos).le
      _ ≤ t.drawing.bbox.xMin := ((List.pairwise_cons.1 hapart).1 t ht).1

/-- Of subplots that lie apart, the last one reaches the furthest to the right. -/
theorem isGreatest_xMax_last {s : Subplot κ} {front : List (Subplot κ)}
    (hapart : (front ++ [s]).Pairwise Apart) (hs : Anchored s) :
    IsGreatest {y | y ∈ (front ++ [s]).map (·.drawing.bbox.xMax)} s.drawing.bbox.xMax := by
  refine ⟨List.mem_map.2 ⟨s, List.mem_append_right _ List.mem_cons_self, rfl⟩, fun y hy => ?_⟩
  obtain ⟨t, ht, rfl⟩ := List.mem_map.1 hy
  rcases List.mem_append.1 ht with ht | ht
  · have hts : Apart t s := (List.pairwise_append.1 hapart).2.2 t ht s List.mem_cons_self
    calc t.drawing.bbox.xMax ≤ t.drawing.bbox.xMax + gapNudge :=
          (lt_add_of_pos_right _ gapNudge_pos).le
      _ ≤ s.drawing.bbox.xMin := hts.1
      _ ≤ s.originX := hs.xMin_le
      _ ≤ s.drawing.bbox.xMax := hs.le_xMax
  · obtain rfl := List.mem_singleton.1 ht
    exact le_rfl

/-- Subplots never overlap: neighbours are exactly a gap apart, any two subplots at least
    a gap, and they start one to the right of the other. So the canvas begins with the
    first subplot and ends with the last one; below and above it has the bounds of the
    subplots that reach the furthest. -/
theorem layout_apart {inputs : List (SubplotInput η)} {canvas : Canvas κ}
    (h : layout unit inputs = .ok canvas) :
    (canvas.subplots.IsChain fun s t =>
      t.drawing.bbox.xMin = s.drawing.bbox.xMax + gapNudge) ∧
    (canvas.subplots.Pairwise fun s t =>
      s.drawing.bbox.xMax + gapNudge ≤ t.drawing.bbox.xMin ∧ s.originX < t.originX) ∧
    (∃ s, canvas.subplots.head? = some s ∧ canvas.bbox.xMin = s.drawing.bbox.xMin) ∧
    (∃ s, canvas.subplots.getLast? = some s ∧ canvas.bbox.xMax = s.drawing.bbox.xMax) ∧
    IsLeast {y | y ∈ canvas.subplots.map (·.drawing.bbox.yMin)} canvas.bbox.yMin ∧
    IsGreatest {y | y ∈ canvas.subplots.map (·.drawing.bbox.yMax)} canvas.bbox.yMax := by
  obtain ⟨hinputs, subplots, hplace, rfl⟩ := layout_eq_ok_iff.1 h
  have hchain := place_isChain hplace
  have hanchored := place_anchored hplace
  have hapart := pairwise_apart hchain hanchored
  -- The first subplot starts where the bounds of the canvas do.
  obtain ⟨first, rest, rfl, horigin⟩ :
      ∃ first rest, subplots = first :: rest ∧ first.originX = (0 : κ) := by
    cases inputs with
    | nil => exact absurd rfl hinputs
    | cons input rest =>
      obtain ⟨d, next, tail, -, -, -, rfl⟩ := place_cons_eq_ok_iff.1 hplace
      exact ⟨_, _, rfl, ofInt_zero⟩
  have hfirst : first.drawing.bbox.Holds ⟨0, 0⟩ := by
    have hholds := hanchored _ List.mem_cons_self
    rwa [Anchored, horigin] at hholds
  obtain ⟨front, last, hlast⟩ : ∃ front last, first :: rest = front ++ [last] :=
    ⟨_, _, (List.dropLast_append_getLast (List.cons_ne_nil first rest)).symm⟩
  have hzero : (Point.origin : Point κ) = ⟨0, 0⟩ :=
    congrArg₂ Point.mk ofInt_zero ofInt_zero
  refine ⟨hchain, hapart, ⟨first, rfl, ?_⟩, ⟨last, ?_, ?_⟩, ?_, ?_⟩ <;>
    simp only [foldl_union, hzero, BoundingBox.ofPoint]
  · exact (isLeast_foldl_min ⟨_, List.mem_cons_self, hfirst.xMin_le⟩).unique
      (isLeast_xMin_head hapart (hanchored _ List.mem_cons_self))
  · rw [hlast, List.getLast?_concat]
  · have hmax := isGreatest_foldl_max (l := (first :: rest).map (·.drawing.bbox.xMax)) (b := 0)
      ⟨_, List.mem_cons_self, hfirst.le_xMax⟩
    rw [hlast] at hapart hanchored hmax ⊢
    exact hmax.unique (isGreatest_xMax_last hapart
      (hanchored _ (List.mem_append_right _ List.mem_cons_self)))
  · exact isLeast_foldl_min ⟨_, List.mem_cons_self, hfirst.yMin_le⟩
  · exact isGreatest_foldl_max ⟨_, List.mem_cons_self, hfirst.le_yMax⟩

/-- Two words, the second of which turns back and reaches two units to the left. -/
def reachingBack : List (SubplotInput ℚ) :=
  [⟨['F', '+', 'F'], 90, "ahead"⟩, ⟨['|', 'F', 'F'], 90, "back"⟩]

/-- A word that reaches back is moved to the right by as much. -/
theorem layout_apart_reachingBack : ∃ canvas : Canvas ℚ,
    layout (unitStep fun _ => Point.origin) reachingBack = .ok canvas ∧
    canvas.subplots.map (·.originX) = [0, 5] ∧
    (canvas.subplots.IsChain fun s t =>
      t.drawing.bbox.xMin = s.drawing.bbox.xMax + gapNudge) ∧
    (canvas.subplots.Pairwise fun s t =>
      s.drawing.bbox.xMax + gapNudge ≤ t.drawing.bbox.xMin ∧ s.originX < t.originX) := by
  have horigins : (layout (unitStep fun _ => (Point.origin : Point ℚ)) reachingBack).toOption.map
      (·.subplots.map (·.originX)) = some [0, 5] := by
    decide +kernel
  obtain ⟨canvas, hcanvas, horigins⟩ := exists_ok_of_map_toOption horigins
  have hapart := layout_apart hcanvas
  exact ⟨canvas, hcanvas, horigins, hapart.1, hapart.2.1⟩

end Lindenmayer

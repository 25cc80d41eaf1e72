import Lindenmayer.Proofs.Primitives

/-!
# The directives of a drawing

A script draws an arrow for every segment outside polygons, whatever the polygons of the drawing are
(`filter_isArrow_drawCommands`), and an object for every polygon that is complete. In a drawing that
was compiled all polygons are complete, one behind the other. So it consists of figures, each a
polygon with what is left before it (`Figure`), and of what is left behind the last of them
(`exists_figures`); and its script is made of their directives, in the same order
(`drawCommands_figures`).

* `drawCommands_follow_primitives`: the arrows of any drawing, and all directives of one that
  was compiled.
-/

namespace Lindenmayer

/-! ## Figures -/

section

variable {κ : Type}

namespace Primitive

/-- Whether a primitive begins or ends a polygon. -/
def isMark (a : Primitive κ) : Bool := a.kind.isMark

/-- The ends of a segment; `none` for other primitives. -/
def segment? : Primitive κ → Option (Point κ × Point κ)
  | .segment start stop => some (start, stop)
  | _ => none

end Primitive

/-- A polygon with what is left before it. -/
structure Figure (κ : Type) where
  before : List (Primitive κ)
  origin : Point κ
  /-- What is left between the marks of the polygon. -/
  sides : List (Primitive κ)

namespace Figure

variable (f : Figure κ)

def primitives : List (Primitive κ) :=
  f.before ++ .polygonBegin f.origin :: (f.sides ++ [.polygonEnd])

/-- Where the sides end, in order; the return from a branch is none. -/
def corners : List (Point κ) := f.sides.filterMap Primitive.moveEnd?

/-- No polygon begins or ends before the polygon or between its marks. -/
def IsSimple : Prop := (∀ a ∈ f.before, ¬ a.isMark) ∧ ∀ a ∈ f.sides, ¬ a.isMark

end Figure

/-- Where the marks are pairs, one behind the other, each pair is that of a figure. -/
theorem exists_figures {n : ℕ} {l : List (Primitive κ)}
    (h : (l.map Primitive.kind).filter Primitive.Kind.isMark =
      (List.replicate n [.polygonBegin, .polygonEnd]).flatten) :
    ∃ (figures : List (Figure κ)) (rest : List (Primitive κ)),
      l = figures.flatMap Figure.primitives ++ rest ∧ figures.length = n ∧
      (∀ f ∈ figures, f.IsSimple) ∧ ∀ a ∈ rest, ¬ a.isMark := by
  induction n generalizing l with
  | zero =>
    refine ⟨[], l, rfl, rfl, by simp, fun a ha => ?_⟩
    exact List.filter_eq_nil_iff.1 h _ (List.mem_map_of_mem ha)
  | succ n ih =>
    -- The first two marks are those of the first figure.
    rw [List.replicate_succ, List.flatten_cons, List.cons_append, List.cons_append,
      List.nil_append, List.filter_map, List.map_eq_cons_iff] at h
    obtain ⟨first, marks, hfirst, hbegin, hmarks⟩ := h
    obtain ⟨second, marks', rfl, hend, hrest⟩ := List.map_eq_cons_iff.1 hmarks
    obtain ⟨before, l', rfl, hbefore, -, hsecond⟩ := List.filter_eq_cons_iff.1 hfirst
    obtain ⟨sides, l'', rfl, hsides, -, rfl⟩ := List.filter_eq_cons_iff.1 hsecond
    obtain ⟨origin, rfl⟩ : ∃ origin, first = .polygonBegin origin := by
      cases first <;> first | exact ⟨_, rfl⟩ | cases hbegin
    obtain rfl : second = .polygonEnd := by
      cases second <;> first | rfl | cases hend
    obtain ⟨figures, rest, rfl, hlength, hsimple, hnone⟩ := ih (List.filter_map.trans hrest)
    refine ⟨⟨before, origin, sides⟩ :: figures, rest, ?_, ?_, ?_, hnone⟩
    · simp [Figure.primitives]
    · rw [List.length_cons, hlength]
    · exact List.forall_mem_cons.2 ⟨⟨hbefore, hsides⟩, hsimple⟩

end

namespace Gnuplot

open Primitive

/-! ## Shapes -/

/-- The shapes found do not depend on those found before. -/
theorem shapesInto_eq (done : List Shape) (current : Option OpenPolygon)
    (l : List (Primitive Float)) :
    shapesInto done current l = done.reverse ++ shapesInto [] current l := by
  induction l generalizing done current with
  | nil => simp [shapesInto]
  | cons a l ih =>
    have hshape : ∀ shape : Shape, shapesInto (shape :: done) none l =
        done.reverse ++ shapesInto [shape] none l := by
      intro shape
      rw [ih, ih [shape], List.reverse_cons, List.append_assoc, List.reverse_singleton]
    cases a with
    | segment start stop =>
      cases current with
      | none => exact hshape _
      | some polygon => exact ih done _
    | travel start stop => cases current <;> exact ih done _
    | restore stop => exact ih done current
    | polygonBegin origin => exact ih done _
    | polygonEnd =>
      cases current with
      | none => exact ih done none
      | some polygon => exact hshape _

variable {l : List (Primitive Float)}

/-- Outside polygons every segment is an arrow. -/
theorem shapesInto_free (hfree : ∀ a ∈ l, ¬ a.isMark) (m : List (Primitive Float)) :
    shapesInto [] none (l ++ m) =
      (l.filterMap segment?).map (fun s => .arrow s.1 s.2) ++ shapesInto [] none m := by
  induction l with
  | nil => rfl
  | cons a l ih =>
    obtain ⟨ha, hl⟩ := List.forall_mem_cons.1 hfree
    cases a with
    | segment start stop =>
      have harrow := shapesInto_eq [.arrow start stop] none (l ++ m)
      rw [ih hl] at harrow
      exact harrow
    | travel start stop => exact ih hl
    | restore stop => exact ih hl
    | polygonBegin origin => exact absurd rfl ha
    | polygonEnd => exact absurd rfl ha

/-- Inside a polygon every move is one more side. -/
theorem shapesInto_sides (hsides : ∀ a ∈ l, ¬ a.isMark) (origin : Point Float)
    (corners : List (Point Float)) (m : List (Primitive Float)) :
    shapesInto [] (some (origin, corners)) (l ++ m) =
      shapesInto [] (some (origin, (l.filterMap moveEnd?).reverse ++ corners)) m := by
  induction l generalizing corners with
  | nil => rfl
  | cons a l ih =>
    obtain ⟨ha, hl⟩ := List.forall_mem_cons.1 hsides
    have hmove : ∀ stop, shapesInto [] (some (origin, stop :: corners)) (l ++ m) =
        shapesInto [] (some (origin,
          (stop :: l.filterMap moveEnd?).reverse ++ corners)) m := by
      intro stop
      rw [ih hl, List.reverse_cons, List.append_assoc, List.singleton_append]
    cases a with
    | segment start stop => exact hmove stop
    | travel start stop => exact hmove stop
    | restore stop => exact ih hl corners
    | polygonBegin origin => exact absurd rfl ha
    | polygonEnd => exact absurd rfl ha

/-- The shapes of a figure: its arrows, and then the polygon. -/
def figureShapes (f : Figure Float) : List Shape :=
  (f.before.filterMap segment?).map (fun s => .arrow s.1 s.2) ++ [.polygon f.origin f.corners]

theorem shapesInto_figure {f : Figure Float} (hf : f.IsSimple) (m : List (Primitive Float)) :
    shapesInto [] none (f.primitives ++ m) = figureShapes f ++ shapesInto [] none m := by
  have hpolygon : shapesInto [] none (.polygonBegin f.origin :: (f.sides ++ .polygonEnd :: m)) =
      .polygon f.origin f.corners :: shapesInto [] none m := by
    rw [shapesInto, shapesInto_sides hf.2, shapesInto, shapesInto_eq, List.append_nil,
      List.reverse_reverse]
    rfl
  rw [Figure.primitives, List.append_assoc, List.cons_append, List.append_assoc,
    List.singleton_append, shapesInto_free hf.1, hpolygon, figureShapes, List.append_assoc,
    List.singleton_append]

theorem shapesInto_figures {figures : List (Figure Float)} (h : ∀ f ∈ figures, f.IsSimple)
    (m : List (Primitive Float)) :
    shapesInto [] none (figures.flatMap Figure.primitives ++ m) =
      figures.flatMap figureShapes ++ shapesInto [] none m := by
  induction figures with
  | nil => rfl
  | cons f figures ih =>
    obtain ⟨hf, h⟩ := List.forall_mem_cons.1 h
    rw [List.flatMap_cons, List.flatMap_cons, List.append_assoc, List.append_assoc,
      shapesInto_figure hf, ih h]

/-! ## Directives -/

/-- How the object of a polygon begins. -/
def polygonCode : String := "set object polygon "

/-- Whether a directive draws a polygon. -/
def isPolygon (directive : String) : Bool := polygonCode.toList.isPrefixOf directive.toList

/-- The directive of a polygon with its corners. -/
def polygon (color : String) (corners : List (Point Float)) : String :=
  polygonCode ++ "fc rgb " ++ quoted color ++ " from " ++
    " to ".intercalate (corners.map coordinates)

theorem intercalate_cons (separator s : String) (l : List String) :
    separator.intercalate (s :: l) = s ++ String.join (l.map (separator ++ ·)) := by
  induction l generalizing s with
  | nil => simp [String.join]
  | cons t l ih =>
    rw [String.intercalate_cons_cons, ih, List.map_cons, String.join_cons]
    simp only [String.append_assoc]

theorem directive_polygon (color : String) (origin : Point Float) (corners : List (Point Float)) :
    Shape.directive color (.polygon origin corners) = polygon color (origin :: corners) := by
  have hcode : "set object polygon fc rgb " = polygonCode ++ "fc rgb " := by decide
  rw [polygon, List.map_cons, intercalate_cons, List.map_map, ← String.append_assoc,
    ← hcode]
  rfl

theorem isPolygon_polygon (color : String) (corners : List (Point Float)) :
    isPolygon (polygon color corners) = true := by
  rw [isPolygon, polygon, String.append_assoc, String.append_assoc, String.append_assoc]
  exact isPrefixOf_append _ _

theorem isPolygon_arrow (start stop : Point Float) : isPolygon (arrow start stop) = false := by
  rw [isPolygon, arrow, String.append_assoc, String.append_assoc]
  exact isPrefixOf_append_eq_false _ (by decide)

/-- The arrows of the segments of a list of primitives. -/
def lines (l : List (Primitive Float)) : List String :=
  (l.filterMap segment?).map fun s => arrow s.1 s.2

/-- The directives of a figure: its arrows, and then the polygon. -/
def figureCommands (color : String) (f : Figure Float) : List String :=
  lines f.before ++ [polygon color (f.origin :: f.corners)]

theorem map_directive_arrows (color : String) (l : List (Primitive Float)) :
    ((l.filterMap segment?).map fun s => Shape.arrow s.1 s.2).map (Shape.directive color) =
      lines l := by
  rw [List.map_map, lines]
  exact List.map_congr_left fun s _ => directive_arrow color s.1 s.2

theorem drawCommands_figures {figures : List (Figure Float)} (h : ∀ f ∈ figures, f.IsSimple)
    {rest : List (Primitive Float)} (hrest : ∀ a ∈ rest, ¬ a.isMark) {d : Drawing Float}
    (hd : d.primitives = figures.flatMap Figure.primitives ++ rest) (color : String) :
    drawCommands d color = figures.flatMap (figureCommands color) ++ lines rest := by
  have hshapes : shapes d = figures.flatMap figureShapes ++
      (rest.filterMap segment?).map fun s => .arrow s.1 s.2 := by
    have hfree := shapesInto_free hrest []
    rw [List.append_nil, shapesInto, List.reverse_nil, List.append_nil] at hfree
    rw [shapes, hd, shapesInto_figures h, hfree]
  have hfigure : ∀ f : Figure Float,
      (figureShapes f).map (Shape.directive color) = figureCommands color f := by
    intro f
    rw [figureShapes, List.map_append, map_directive_arrows, List.map_singleton,
      directive_polygon, figureCommands]
  rw [drawCommands, hshapes, List.map_append, List.map_flatMap, map_directive_arrows]
  simp only [hfigure]

theorem filter_isPolygon_lines (l : List (Primitive Float)) : (lines l).filter isPolygon = [] := by
  rw [lines, List.filter_map, List.filter_eq_nil_iff.2, List.map_nil]
  intro s _
  simp [isPolygon_arrow]

theorem filter_isPolygon_figures (color : String) (figures : List (Figure Float)) :
    (figures.flatMap (figureCommands color)).filter isPolygon =
      figures.map fun f => polygon color (f.origin :: f.corners) := by
  rw [List.filter_flatMap, List.map_eq_flatMap]
  refine List.flatMap_congr fun f _ => ?_
  rw [figureCommands, List.filter_append, filter_isPolygon_lines, List.nil_append,
    List.filter_cons_of_pos (isPolygon_polygon _ _), List.filter_nil]

end Gnuplot

/-- **The directives of a drawing follow its primitives.** The arrows of any drawing, whatever its
    polygons are, are the segments outside polygons, in order. A drawing that was compiled
    consists of figures, of which each has one polygon behind what is left before it, and of what
    is left behind the last. Its directives are, figure by figure, the arrows of the segments
    before the polygon and then the polygon, from where it begins along the ends of all its moves,
    and at last the arrows behind all polygons. So there is one directive for each polygon. -/
theorem drawCommands_follow_primitives :
    (∀ (d : Drawing Float) color, (Gnuplot.drawCommands d color).filter Gnuplot.isArrow =
      d.segments.map fun s => Gnuplot.arrow s.1 s.2) ∧
    ∀ {η : Type} [Heading η] (unit : η → Point Float) w originX angle d,
      compile unit w originX angle = .ok d →
      ∃ (figures : List (Figure Float)) (rest : List (Primitive Float)),
        (∀ f ∈ figures, f.IsSimple) ∧ (∀ a ∈ rest, ¬ a.isMark) ∧
        d.primitives = figures.flatMap Figure.primitives ++ rest ∧
        figures.length = d.polygonCount ∧ ∀ color,
          Gnuplot.drawCommands d color =
            figures.flatMap (Gnuplot.figureCommands color) ++ Gnuplot.lines rest ∧
          (Gnuplot.drawCommands d color).filter Gnuplot.isPolygon =
            figures.map fun f => Gnuplot.polygon color (f.origin :: f.corners) := by
  refine ⟨Gnuplot.filter_isArrow_drawCommands, ?_⟩
  intro η _ unit w originX angle d hd
  have hkinds := map_kind_of_compile hd
  have hcount : d.polygonCount = w.count '{' := polygonCount_eq_count hkinds
  have hmarks : (d.primitives.map Primitive.kind).filter Primitive.Kind.isMark =
      (List.replicate (w.count '{') [.polygonBegin, .polygonEnd]).flatten := by
    rw [hkinds, filter_isMark_filterMap, (bracesFollow_of_compile hd).braces_eq,
      List.filterMap_flatten, List.map_replicate]
    rfl
  obtain ⟨figures, rest, hprimitives, hlength, hsimple, hrest⟩ := exists_figures hmarks
  refine ⟨figures, rest, hsimple, hrest, hprimitives, hlength.trans hcount.symm, fun color => ?_⟩
  have hcommands := Gnuplot.drawCommands_figures hsimple hrest hprimitives color
  refine ⟨hcommands, ?_⟩
  rw [hcommands, List.filter_append, Gnuplot.filter_isPolygon_figures,
    Gnuplot.filter_isPolygon_lines, List.append_nil]

/-- The branch in the polygon is part of its outline, and the return from it adds no corner. -/
theorem drawCommands_follow_primitives_branch :
    ∃ d, compile floatStep "F{F[+F]f}F".toList 0 90 = .ok d ∧
    (∃ (figures : List (Figure Float)) (rest : List (Primitive Float)),
      (∀ f ∈ figures, f.IsSimple) ∧ (∀ a ∈ rest, ¬ a.isMark) ∧
      d.primitives = figures.flatMap Figure.primitives ++ rest ∧
      figures.length = d.polygonCount ∧ ∀ color,
        Gnuplot.drawCommands d color =
          figures.flatMap (Gnuplot.figureCommands color) ++ Gnuplot.lines rest ∧
        (Gnuplot.drawCommands d color).filter Gnuplot.isPolygon =
          figures.map fun f => Gnuplot.polygon color (f.origin :: f.corners)) ∧
    Gnuplot.drawCommands d "green" =
      ["set arrow as 1 from 0.000000,0.000000 to 1.000000,0.000000",
        "set object polygon fc rgb \"green\" from 1.000000,0.000000 to 2.000000,0.000000" ++
          " to 2.000000,1.000000 to 3.000000,0.000000",
        "set arrow as 1 from 3.000000,0.000000 to 4.000000,0.000000"] := by
  have hcompile : (compile floatStep "F{F[+F]f}F".toList 0 90).toOption.map
      (Gnuplot.drawCommands · "green") =
        some ["set arrow as 1 from 0.000000,0.000000 to 1.000000,0.000000",
          "set object polygon fc rgb \"green\" from 1.000000,0.000000 to 2.000000,0.000000" ++
            " to 2.000000,1.000000 to 3.000000,0.000000",
          "set arrow as 1 from 3.000000,0.000000 to 4.000000,0.000000"] := by
    decide +kernel
  obtain ⟨d, hd, hcommands⟩ := exists_ok_of_map_toOption hcompile
  exact ⟨d, hd, drawCommands_follow_primitives.2 floatStep _ 0 90 d hd, hcommands⟩

end Lindenmayer

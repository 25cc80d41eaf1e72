import Lindenmayer.Plot.Gnuplot
import Mathlib

/-!
# The arrows of a script

The lines of a script are its arrows, one directive for each (`isArrow`). Whatever the
primitives of a drawing, also with polygons that are nested or do not fit, the arrows of
its directives are the segments outside the polygons, in order
(`filter_isArrow_drawCommands`). No other directive of a script is an arrow, apart from
what the caller writes in the first two.
-/

namespace Lindenmayer

/-- The segments found do not depend on those found before. -/
theorem Drawing.segmentsInto_eq {κ : Type} (done : List (Point κ × Point κ)) (inside : Bool)
    (l : List (Primitive κ)) :
    segmentsInto done inside l = done.reverse ++ segmentsInto [] inside l := by
  induction l generalizing done inside with
  | nil => simp [segmentsInto]
  | cons a l ih =>
    cases a with
    | segment start stop =>
      cases inside with
      | true => exact ih done true
      | false =>
        -- The segment moves from the front of the rest to the end of what is done.
        have hdone := ih ((start, stop) :: done) false
        rw [List.reverse_cons, List.append_assoc, ← List.reverse_singleton,
          ← ih [(start, stop)] false] at hdone
        exact hdone
    | travel start stop => exact ih done inside
    | restore stop => exact ih done inside
    | polygonBegin origin => exact ih done true
    | polygonEnd => exact ih done false

namespace Gnuplot

/-! ## Arrows among shapes -/

/-- The ends of an arrow. -/
def Shape.ends? : Shape → Option (Point Float × Point Float)
  | .arrow start stop => some (start, stop)
  | .polygon _ _ => none

/-- The arrows of a list of primitives are its segments outside the polygons. -/
theorem filterMap_ends_shapesInto (done : List Shape) (current : Option OpenPolygon)
    (l : List (Primitive Float)) :
    (shapesInto done current l).filterMap Shape.ends? =
      Drawing.segmentsInto (done.filterMap Shape.ends?) current.isSome l := by
  -- Both go through the primitives with what is done so far; of the open polygon only
  -- matters whether there is one.
  induction l generalizing done current with
  | nil => exact List.filterMap_reverse
  | cons a l ih =>
    cases a with
    | segment start stop =>
      cases current with
      | none => exact ih (.arrow start stop :: done) none
      | some polygon => exact ih done _
    | travel start stop =>
      cases current with
      | none => exact ih done none
      | some polygon => exact ih done _
    | restore stop => exact ih done current
    | polygonBegin origin => exact ih done _
    | polygonEnd =>
      cases current with
      | none => exact ih done none
      | some polygon => exact ih (.polygon polygon.1 polygon.2.reverse :: done) none

/-! ## Arrows among directives -/

theorem isPrefixOf_append (code s : String) :
    code.toList.isPrefixOf (code ++ s).toList = true := by
  rw [List.isPrefixOf_iff_prefix, String.toList_append]
  exact List.prefix_append _ _

/-- A directive that begins in another way does not have the code. -/
theorem isPrefixOf_append_eq_false {code s : String} (t : String)
    (h : ¬ (code.toList <+: s.toList ∨ s.toList <+: code.toList)) :
    code.toList.isPrefixOf (s ++ t).toList = false := by
  rw [← Bool.not_eq_true, List.isPrefixOf_iff_prefix, String.toList_append]
  exact fun hst => h (List.prefix_or_prefix_of_prefix hst (List.prefix_append _ _))

/-- How an arrow begins. -/
def arrowCode : String := "set arrow as 1 from "

/-- Whether a directive draws an arrow. -/
def isArrow (directive : String) : Bool := arrowCode.toList.isPrefixOf directive.toList

/-- The directive of an arrow. -/
def arrow (start stop : Point Float) : String :=
  arrowCode ++ coordinates start ++ " to " ++ coordinates stop

theorem isArrow_arrow (start stop : Point Float) : isArrow (arrow start stop) = true := by
  rw [isArrow, arrow, String.append_assoc, String.append_assoc]
  exact isPrefixOf_append _ _

/-- A directive that begins in another way is not an arrow. -/
theorem isArrow_append_eq_false {s : String} (t : String)
    (h : ¬ (arrowCode.toList <+: s.toList ∨ s.toList <+: arrowCode.toList)) :
    isArrow (s ++ t) = false :=
  isPrefixOf_append_eq_false t h

theorem directive_arrow (color : String) (start stop : Point Float) :
    Shape.directive color (.arrow start stop) = arrow start stop := by
  unfold Shape.directive arrow arrowCode
  with_reducible rfl

theorem isArrow_polygon (color : String) (origin : Point Float) (corners : List (Point Float)) :
    isArrow (Shape.directive color (.polygon origin corners)) = false := by
  unfold Shape.directive
  dsimp only
  simp only [String.append_assoc]
  exact isArrow_append_eq_false _ (by decide)

/-- The arrows of a drawing, one for each segment. -/
def arrows (d : Drawing Float) : List String := d.segments.map fun s => arrow s.1 s.2

theorem filter_isArrow_drawCommands (d : Drawing Float) (color : String) :
    (drawCommands d color).filter isArrow = arrows d := by
  have hends : d.segments = (shapes d).filterMap Shape.ends? :=
    (filterMap_ends_shapesInto [] none d.primitives).symm
  rw [arrows, hends, drawCommands]
  induction shapes d with
  | nil => rfl
  | cons shape l ih =>
    rw [List.map_cons]
    cases shape with
    | arrow start stop =>
      rw [directive_arrow, List.filter_cons_of_pos (isArrow_arrow start stop), ih]
      rfl
    | polygon origin corners =>
      rw [List.filter_cons_of_neg (by simp [isArrow_polygon]), ih]
      rfl

/-! ## Other directives -/

/-- No directive of a list is an arrow. -/
def NoArrow (l : List String) : Prop := ∀ directive ∈ l, isArrow directive = false

variable {l m : List String}

theorem NoArrow.nil : NoArrow [] :=
  fun _ h => absurd h List.not_mem_nil

theorem NoArrow.cons {directive : String} (h : isArrow directive = false) (hl : NoArrow l) :
    NoArrow (directive :: l) :=
  List.forall_mem_cons.2 ⟨h, hl⟩

theorem NoArrow.append (hl : NoArrow l) (hm : NoArrow m) : NoArrow (l ++ m) :=
  List.forall_mem_append.2 ⟨hl, hm⟩

theorem NoArrow.filter_eq_nil (h : NoArrow l) : l.filter isArrow = [] :=
  List.filter_eq_nil_iff.2 fun directive hd => by simp [h directive hd]

theorem noArrow_labelCommands (s : Subplot Float) (color : String) :
    NoArrow (labelCommands s color) := by
  rw [labelCommands]
  split_ifs
  · exact .nil
  · simp only [String.append_assoc]
    exact .cons (isArrow_append_eq_false _ (by decide)) .nil

theorem noArrow_ranges (b : BoundingBox Float) : NoArrow (ranges b) := by
  simp only [ranges, String.append_assoc]
  exact .cons (isArrow_append_eq_false _ (by decide))
    (.cons (isArrow_append_eq_false _ (by decide)) .nil)

theorem noArrow_offsets (b : BoundingBox Float) : NoArrow [offsets b] :=
  .cons (isArrow_append_eq_false _ (by decide)) .nil

theorem noArrow_trailer (color : String) : NoArrow (trailer color) := by
  simp only [trailer, String.append_assoc]
  exact .cons (by decide) (.cons (isArrow_append_eq_false _ (by decide))
    (.cons (by decide) .nil))

/-- A script begins with the terminal and the output, which are the caller's; what else
    is set before the drawing is not an arrow. -/
theorem preamble_eq (s : Style) (bottom : String) (square : Bool) :
    ∃ settings, preamble s bottom square = s.terminal :: s.output :: settings ∧
      NoArrow settings := by
  have hmargins (top : String) : NoArrow ["unset border", "unset tics", "set bmargin " ++ bottom,
      "set tmargin " ++ top, "set rmargin " ++ narrow, "set lmargin " ++ narrow] := by
    refine .cons (by decide) (.cons (by decide) ?_)
    refine .cons ?_ (.cons ?_ (.cons ?_ (.cons ?_ .nil)))
    all_goals exact isArrow_append_eq_false _ (by decide)
  have hsquare : NoArrow (if square then ["set size square"] else []) := by
    split_ifs
    · exact .cons (by decide) .nil
    · exact .nil
  have hstyle : NoArrow ["set autoscale fix",
      "set style fill solid 1.0 border rgb " ++ quoted s.lineColor,
      "set style arrow 1 nohead lc rgb " ++ quoted s.lineColor] := by
    refine .cons (by decide) (.cons ?_ (.cons ?_ .nil))
    all_goals exact isArrow_append_eq_false _ (by decide)
  have htitle : NoArrow (s.caption?.toList.map fun title =>
      "set title " ++ quoted title ++ " tc rgb " ++ quoted s.lineColor) := by
    intro directive h
    obtain ⟨title, -, rfl⟩ := List.mem_map.1 h
    simp only [String.append_assoc]
    exact isArrow_append_eq_false _ (by decide)
  exact ⟨_, rfl, (((hmargins _).append hsquare).append hstyle).append htitle⟩

/-! ## Scripts -/

/-- Behind the directives of the caller, the arrows of a plot are those of its
    drawing. -/
theorem plot_eq (d : Drawing Float) {s : Style} (hcolor : validateColor s.lineColor = .ok ()) :
    ∃ rest, plot d s = .ok (s.terminal :: s.output :: rest) ∧
      rest.filter isArrow = arrows d := by
  obtain ⟨settings, hpreamble, hsettings⟩ := preamble_eq s narrow true
  refine ⟨settings ++ drawCommands d s.lineColor ++ ranges d.bbox ++ [offsets d.bbox] ++
    trailer s.lineColor, ?_, ?_⟩
  · rw [plot, hcolor, hpreamble]
    rfl
  · simp only [List.filter_append, hsettings.filter_eq_nil, (noArrow_ranges d.bbox).filter_eq_nil,
      (noArrow_offsets d.bbox).filter_eq_nil, (noArrow_trailer s.lineColor).filter_eq_nil,
      List.nil_append, List.append_nil]
    exact filter_isArrow_drawCommands d s.lineColor

/-- Behind the directives of the caller, the arrows of the plot of a canvas are those of
    its drawings, from left to right. -/
theorem multiPlot_eq (c : Canvas Float) {s : Style}
    (hcolor : validateColor s.lineColor = .ok ()) :
    ∃ rest, multiPlot c s = .ok (s.terminal :: s.output :: rest) ∧
      rest.filter isArrow = c.subplots.flatMap fun subplot => arrows subplot.drawing := by
  obtain ⟨settings, hpreamble, hsettings⟩ :=
    preamble_eq s (if c.hasLabels then wide else narrow) false
  refine ⟨settings ++ c.subplots.flatMap (subplotCommands s.lineColor) ++ ranges c.bbox ++
    trailer s.lineColor, ?_, ?_⟩
  · rw [multiPlot, hcolor]
    dsimp only [bind, Except.bind]
    rw [hpreamble]
    rfl
  · have hsubplots : (c.subplots.flatMap (subplotCommands s.lineColor)).filter isArrow =
        c.subplots.flatMap fun subplot => arrows subplot.drawing := by
      rw [List.filter_flatMap]
      congr 1
      funext subplot
      rw [subplotCommands, List.filter_append,
        (noArrow_labelCommands subplot s.lineColor).filter_eq_nil, List.nil_append]
      exact filter_isArrow_drawCommands subplot.drawing s.lineColor
    simp only [List.filter_append, hsettings.filter_eq_nil, hsubplots,
      (noArrow_ranges c.bbox).filter_eq_nil, (noArrow_trailer s.lineColor).filter_eq_nil,
      List.nil_append, List.append_nil]

end Gnuplot

end Lindenmayer

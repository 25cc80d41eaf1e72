import Lindenmayer.Proofs.Figures
import Lindenmayer.Proofs.Numerals

/-!
# The lines of a script

A script is written with one directive on a line. It can be read back line by line as long as there
is no line break inside a directive (`textLines_eq_iff`), and what is written there by the plot
itself has none: putting the texts of the caller on one line puts the directives on one line, and
changes nothing else of them (`plot_oneLine`, `multiPlot_oneLine`). These texts are the terminal,
the output, the colour, the title and the captions; each of them stands in a directive.

* `textLines_iff_unbroken`: the directives of a plot are the lines of its text exactly if none of
  these texts has a line break.
-/

namespace Lindenmayer.Gnuplot

/-! ## Line breaks -/

/-- A text without a line break. -/
def Unbroken (text : String) : Prop := '\n' ∉ text.toList

instance : DecidablePred Unbroken := fun text => inferInstanceAs (Decidable ('\n' ∉ text.toList))

/-- The text with a blank for each line break. -/
def oneLine (text : String) : String := text.map fun c => if c = '\n' then ' ' else c

section

variable {s t : String}

theorem toList_oneLine (t : String) :
    (oneLine t).toList = t.toList.map fun c => if c = '\n' then ' ' else c :=
  String.toList_map

theorem unbroken_oneLine (t : String) : Unbroken (oneLine t) := by
  rw [Unbroken, toList_oneLine, List.mem_map]
  rintro ⟨c, -, hc⟩
  split_ifs at hc with h
  · exact absurd hc (by decide)
  · exact h hc

theorem oneLine_of_unbroken (h : Unbroken t) : oneLine t = t := by
  rw [← String.toList_inj, toList_oneLine]
  refine (List.map_congr_left fun c hc => ?_).trans (List.map_id _)
  exact if_neg (ne_of_mem_of_not_mem hc h)

theorem oneLine_eq_self_iff : oneLine t = t ↔ Unbroken t :=
  ⟨fun h => h ▸ unbroken_oneLine t, oneLine_of_unbroken⟩

theorem oneLine_append (s t : String) : oneLine (s ++ t) = oneLine s ++ oneLine t := by
  rw [← String.toList_inj, String.toList_append]
  simp only [toList_oneLine, String.toList_append, List.map_append]

theorem oneLine_eq_empty_iff : oneLine t = "" ↔ t = "" := String.map_eq_empty

theorem isEmpty_oneLine (t : String) : (oneLine t).isEmpty = t.isEmpty := by
  rw [Bool.eq_iff_iff, String.isEmpty_iff, String.isEmpty_iff, oneLine_eq_empty_iff]

theorem unbroken_append_iff : Unbroken (s ++ t) ↔ Unbroken s ∧ Unbroken t := by
  simp only [Unbroken, String.toList_append, List.mem_append, not_or]

end

/-! ## Lines -/

/-- The lines of a text. -/
def textLines (text : String) : List String := (text.split '\n').toList.map String.Slice.copy

example : textLines "a\n\nb\n" = ["a", "", "b", ""] := by cbv

/-- What stands between two separators has none. -/
theorem not_mem_of_mem_splitOn {α : Type} [BEq α] [LawfulBEq α] {a : α} {l piece : List α}
    (h : piece ∈ l.splitOn a) : a ∉ piece := by
  induction l generalizing piece with
  | nil =>
    rw [List.splitOn_nil, List.mem_singleton] at h
    exact h ▸ List.not_mem_nil
  | cons b l ih =>
    obtain ⟨first, rest, hsplit⟩ := List.exists_cons_of_ne_nil (List.splitOn_ne_nil a l)
    rw [hsplit] at ih
    rw [List.splitOn_cons_eq_if_modifyHead, hsplit] at h
    split_ifs at h with hb
    · rcases List.mem_cons.1 h with rfl | h
      · exact List.not_mem_nil
      · exact ih h
    · rw [List.modifyHead_cons] at h
      rcases List.mem_cons.1 h with rfl | h
      · have hne : a ≠ b := fun hab => hb (beq_of_eq hab.symm)
        exact List.not_mem_cons_of_ne_of_not_mem hne (ih List.mem_cons_self)
      · exact ih (List.mem_cons_of_mem _ h)

/-- Directives are the lines of their script exactly if none of them has a line break. -/
theorem textLines_eq_iff {script : Script} (hne : script ≠ []) :
    textLines script.text = script ↔ ∀ directive ∈ script, Unbroken directive := by
  constructor
  · intro h directive hmem
    rw [← h, textLines, String.toList_split_char, List.mem_map] at hmem
    obtain ⟨piece, hpiece, rfl⟩ := hmem
    rw [Unbroken, String.toList_ofList]
    exact not_mem_of_mem_splitOn hpiece
  · intro h
    exact (String.toList_split_intercalate h).trans (if_neg hne)

/-! ## Texts of the caller -/

/-- A style whose texts have no line breaks. -/
structure Style.IsUnbroken (s : Style) : Prop where
  terminal : Unbroken s.terminal
  output : Unbroken s.output
  lineColor : Unbroken s.lineColor
  title : ∀ title ∈ s.title, Unbroken title

/-- The style with each of its texts on one line. -/
def Style.oneLine (s : Style) : Style where
  terminal := Gnuplot.oneLine s.terminal
  output := Gnuplot.oneLine s.output
  title := s.title.map Gnuplot.oneLine
  lineColor := Gnuplot.oneLine s.lineColor

theorem Style.IsUnbroken.oneLine_eq {s : Style} (h : s.IsUnbroken) : s.oneLine = s := by
  obtain ⟨terminal, output, title, lineColor⟩ := s
  have htitle : title.map Gnuplot.oneLine = title := by
    cases title with
    | none => rfl
    | some title => exact congrArg some (oneLine_of_unbroken (h.title title rfl))
  rw [Style.oneLine, oneLine_of_unbroken h.terminal, oneLine_of_unbroken h.output, htitle,
    oneLine_of_unbroken h.lineColor]

theorem Style.lineColor_oneLine (s : Style) : s.oneLine.lineColor = Gnuplot.oneLine s.lineColor :=
  rfl

theorem Style.caption?_oneLine (s : Style) :
    s.oneLine.caption? = s.caption?.map Gnuplot.oneLine := by
  simp only [caption?, oneLine, Option.filter_map, Function.comp_def, isEmpty_oneLine]

/-- A canvas with each of its captions on one line. -/
def oneLineCanvas (c : Canvas Float) : Canvas Float :=
  { c with subplots := c.subplots.map fun p => { p with label := oneLine p.label } }

theorem oneLineCanvas_of_unbroken {c : Canvas Float} (h : ∀ p ∈ c.subplots, Unbroken p.label) :
    oneLineCanvas c = c := by
  have hsubplots : c.subplots.map (fun p => { p with label := oneLine p.label }) = c.subplots := by
    refine (List.map_congr_left fun p hp => ?_).trans (List.map_id _)
    rw [oneLine_of_unbroken (h p hp), id_eq]
  rw [oneLineCanvas, hsubplots]

theorem hasLabels_oneLineCanvas (c : Canvas Float) : (oneLineCanvas c).hasLabels = c.hasLabels := by
  simp only [Canvas.hasLabels, oneLineCanvas, List.any_map, Function.comp_def, isEmpty_oneLine]

theorem validateColor_eq_ok_iff {color : String} : validateColor color = .ok () ↔
    color ≠ "" ∧ ('#' ∈ color.toList → isHexColor color.toList) := by
  simp [validateColor, String.toList_eq_nil_iff]

/-- A colour with a `#` has nothing behind it but digits. -/
theorem unbroken_of_isHexColor {color : String} (h : isHexColor color.toList) :
    Unbroken color := by
  intro hbreak
  unfold isHexColor at h
  split at h
  · next digits hcolor =>
    obtain ⟨-, hall⟩ := of_decide_eq_true h
    rw [hcolor] at hbreak
    rcases List.mem_cons.1 hbreak with heq | hbreak
    · exact absurd heq (by decide)
    · exact absurd (List.all_eq_true.1 hall '\n' hbreak) (by decide)
  · cases h

/-- A colour that is accepted is accepted on one line. -/
theorem validateColor_oneLine {color : String} (h : validateColor color = .ok ()) :
    validateColor (oneLine color) = .ok () := by
  obtain ⟨hne, hhex⟩ := validateColor_eq_ok_iff.1 h
  refine validateColor_eq_ok_iff.2 ⟨oneLine_eq_empty_iff.not.2 hne, fun hmem => ?_⟩
  have hmem' : '#' ∈ color.toList := by
    rw [toList_oneLine, List.mem_map] at hmem
    obtain ⟨c, hc, heq⟩ := hmem
    split_ifs at heq with hbreak
    · exact absurd heq (by decide)
    · exact heq ▸ hc
  rw [oneLine_of_unbroken (unbroken_of_isHexColor (hhex hmem'))]
  exact hhex hmem'

/-! ## Directives -/

theorem unbroken_fixed (x : Float) : Unbroken (fixed x) := by
  intro h
  have hbreak : ¬ IsNumeral '\n' := by decide
  exact hbreak (isNumeral_of_mem_fixed h)

theorem oneLine_fixed (x : Float) : oneLine (fixed x) = fixed x :=
  oneLine_of_unbroken (unbroken_fixed x)

theorem oneLine_intercalate {separator : String} (h : Unbroken separator) (l : List String) :
    oneLine (separator.intercalate l) = separator.intercalate (l.map oneLine) := by
  induction l with
  | nil => rw [List.map_nil, String.intercalate_nil, oneLine_of_unbroken (by decide)]
  | cons s l ih =>
    cases l with
    | nil => simp only [List.map_cons, List.map_nil, String.intercalate_singleton]
    | cons t l =>
      rw [String.intercalate_cons_cons, oneLine_append, oneLine_append, ih, oneLine_of_unbroken h]
      simp only [List.map_cons, String.intercalate_cons_cons]

theorem oneLine_quoted (t : String) : oneLine (quoted t) = quoted (oneLine t) := by
  simp (disch := decide) only [quoted, oneLine_append, oneLine_of_unbroken]

theorem unbroken_quoted_iff {t : String} : Unbroken (quoted t) ↔ Unbroken t := by
  have hquote : Unbroken "\"" := by decide
  simp only [quoted, unbroken_append_iff, hquote, true_and, and_true]

theorem oneLine_coordinates (p : Point Float) : oneLine (coordinates p) = coordinates p := by
  simp only [coordinates, oneLine_append, oneLine_fixed]
  simp (disch := decide) only [oneLine_of_unbroken]

theorem oneLine_directive (color : String) (shape : Shape) :
    oneLine (shape.directive color) = shape.directive (oneLine color) := by
  cases shape with
  | arrow start stop =>
    simp only [directive_arrow, arrow, oneLine_append, oneLine_coordinates]
    simp (disch := decide) only [oneLine_of_unbroken]
  | polygon origin corners =>
    have hseparator : Unbroken " to " := by decide
    simp only [directive_polygon, polygon, oneLine_append, oneLine_quoted, List.map_map,
      oneLine_intercalate hseparator, Function.comp_def, oneLine_coordinates]
    simp (disch := decide) only [oneLine_of_unbroken]

theorem map_oneLine_drawCommands (d : Drawing Float) (color : String) :
    (drawCommands d color).map oneLine = drawCommands d (oneLine color) := by
  simp only [drawCommands, List.map_map, Function.comp_def, oneLine_directive]

theorem map_oneLine_labelCommands (p : Subplot Float) (color : String) :
    (labelCommands p color).map oneLine =
      labelCommands { p with label := oneLine p.label } (oneLine color) := by
  rw [labelCommands, labelCommands, isEmpty_oneLine]
  split_ifs
  · rfl
  · simp only [List.map_cons, List.map_nil, oneLine_append, oneLine_quoted, oneLine_fixed]
    simp (disch := decide) only [oneLine_of_unbroken]

theorem map_oneLine_ranges (b : BoundingBox Float) : (ranges b).map oneLine = ranges b := by
  simp only [ranges, List.map_cons, List.map_nil, oneLine_append, oneLine_fixed]
  simp (disch := decide) only [oneLine_of_unbroken]

theorem oneLine_offsets (b : BoundingBox Float) : oneLine (offsets b) = offsets b := by
  have hseparator : Unbroken "," := by decide
  simp only [offsets, oneLine_append, oneLine_intercalate hseparator, List.map_cons, List.map_nil,
    oneLine_fixed]
  simp (disch := decide) only [oneLine_of_unbroken]

theorem map_oneLine_trailer (color : String) :
    (trailer color).map oneLine = trailer (oneLine color) := by
  simp only [trailer, List.map_cons, List.map_nil, oneLine_append, oneLine_quoted]
  simp (disch := decide) only [oneLine_of_unbroken]

theorem map_oneLine_preamble (s : Style) {bottom : String} (hbottom : Unbroken bottom)
    (square : Bool) :
    (preamble s bottom square).map oneLine = preamble s.oneLine bottom square := by
  have hcaption : s.oneLine.caption?.isSome = s.caption?.isSome := by
    rw [Style.caption?_oneLine, Option.isSome_map]
  have htop : Unbroken (if s.caption?.isSome then wide else narrow) := by
    split_ifs <;> decide
  have hsquare : (if square then ["set size square"] else []).map oneLine =
      if square then ["set size square"] else [] := by
    split_ifs
    · exact congrArg (· :: []) (oneLine_of_unbroken (by decide))
    · rfl
  have hnarrow : Unbroken narrow := by decide
  have htitle : (s.caption?.toList.map fun title =>
      "set title " ++ quoted title ++ " tc rgb " ++ quoted s.lineColor).map oneLine =
      s.oneLine.caption?.toList.map fun title =>
        "set title " ++ quoted title ++ " tc rgb " ++ quoted s.oneLine.lineColor := by
    rw [Style.caption?_oneLine]
    cases s.caption? with
    | none => rfl
    | some title =>
      simp only [Option.map_some, Option.toList_some, List.map_cons, List.map_nil, oneLine_append,
        oneLine_quoted]
      simp (disch := decide) only [oneLine_of_unbroken]
      rfl
  simp only [preamble, List.map_append, List.map_cons, List.map_nil, oneLine_append, oneLine_quoted,
    hcaption, hsquare, htitle, oneLine_of_unbroken htop, oneLine_of_unbroken hbottom,
    oneLine_of_unbroken hnarrow]
  simp (disch := decide) only [oneLine_of_unbroken]
  rfl

/-! ## Scripts -/

variable {s : Style}

theorem plot_eq_ok (d : Drawing Float) (hcolor : validateColor s.lineColor = .ok ()) :
    plot d s = .ok (preamble s narrow true ++ drawCommands d s.lineColor ++ ranges d.bbox ++
      [offsets d.bbox] ++ trailer s.lineColor) := by
  rw [plot, hcolor]
  rfl

theorem multiPlot_eq_ok (c : Canvas Float) (hcolor : validateColor s.lineColor = .ok ()) :
    multiPlot c s = .ok (preamble s (if c.hasLabels then wide else narrow) false ++
      c.subplots.flatMap (subplotCommands s.lineColor) ++ ranges c.bbox ++
      trailer s.lineColor) := by
  rw [multiPlot, hcolor]
  rfl

/-- The plot with the texts of the caller on one line has each directive on one line. -/
theorem plot_oneLine (d : Drawing Float) (hcolor : validateColor s.lineColor = .ok ()) :
    plot d s.oneLine = (plot d s).map (List.map oneLine) := by
  have hnarrow : Unbroken narrow := by decide
  have hcolor' : validateColor s.oneLine.lineColor = .ok () := validateColor_oneLine hcolor
  rw [plot_eq_ok d hcolor, plot_eq_ok d hcolor', s.lineColor_oneLine]
  simp only [Except.map, List.map_append, map_oneLine_preamble s hnarrow, map_oneLine_drawCommands,
    map_oneLine_ranges, map_oneLine_trailer, List.map_cons, List.map_nil, oneLine_offsets]

theorem map_oneLine_subplotCommands (p : Subplot Float) (color : String) :
    (subplotCommands color p).map oneLine =
      subplotCommands (oneLine color) { p with label := oneLine p.label } := by
  rw [subplotCommands, subplotCommands, List.map_append, map_oneLine_labelCommands,
    map_oneLine_drawCommands]

/-- The plot of a canvas with the texts of the caller on one line has each directive on one
    line. -/
theorem multiPlot_oneLine (c : Canvas Float) (hcolor : validateColor s.lineColor = .ok ()) :
    multiPlot (oneLineCanvas c) s.oneLine = (multiPlot c s).map (List.map oneLine) := by
  have hbottom : Unbroken (if c.hasLabels then wide else narrow) := by split_ifs <;> decide
  have hsubplots : (c.subplots.flatMap (subplotCommands s.lineColor)).map oneLine =
      (oneLineCanvas c).subplots.flatMap (subplotCommands (oneLine s.lineColor)) := by
    simp only [List.map_flatMap, map_oneLine_subplotCommands, oneLineCanvas, List.flatMap_map]
  have hcolor' : validateColor s.oneLine.lineColor = .ok () := validateColor_oneLine hcolor
  rw [multiPlot_eq_ok c hcolor, multiPlot_eq_ok _ hcolor', hasLabels_oneLineCanvas,
    s.lineColor_oneLine]
  simp only [Except.map, List.map_append, map_oneLine_preamble s hbottom, hsubplots,
    map_oneLine_ranges, map_oneLine_trailer]
  rfl

/-! ## Texts in directives -/

theorem map_oneLine_eq_self_iff {script : Script} :
    script.map oneLine = script ↔ ∀ directive ∈ script, Unbroken directive := by
  have hpointwise : script.map oneLine = script.map id ↔
      ∀ directive ∈ script, oneLine directive = directive := List.map_inj_left
  rw [List.map_id] at hpointwise
  exact hpointwise.trans (forall₂_congr fun _ _ => oneLine_eq_self_iff)

/-- The texts of a style stand in the directives before the drawing. -/
theorem isUnbroken_of_preamble {bottom : String} {square : Bool}
    (h : ∀ directive ∈ preamble s bottom square, Unbroken directive) : s.IsUnbroken where
  terminal := h _ (by simp [preamble])
  output := h _ (by simp [preamble])
  lineColor := by
    have hfill : Unbroken ("set style fill solid 1.0 border rgb " ++ quoted s.lineColor) :=
      h _ (by simp [preamble])
    simp only [unbroken_append_iff, unbroken_quoted_iff] at hfill
    exact hfill.2
  title := by
    intro title htitle
    by_cases hempty : title = ""
    · rw [hempty]
      decide
    · have hcaption : s.caption? = some title := by
        simp [Style.caption?, Option.mem_def.1 htitle, Option.filter, hempty]
      have hdirective : Unbroken ("set title " ++ quoted title ++ " tc rgb " ++
          quoted s.lineColor) := h _ (by simp [preamble, hcaption])
      simp only [unbroken_append_iff, unbroken_quoted_iff] at hdirective
      exact hdirective.1.1.2

/-- A caption stands in the directive that writes it. -/
theorem unbroken_of_labelCommands {p : Subplot Float} {color : String}
    (h : ∀ directive ∈ labelCommands p color, Unbroken directive) : Unbroken p.label := by
  by_cases hempty : p.label = ""
  · rw [hempty]
    decide
  · have hdirective : Unbroken ("set label " ++ quoted p.label ++ " at " ++ fixed p.originX ++
        ",character 1 center front tc rgb " ++ quoted color) :=
      h _ (by simp [labelCommands, hempty])
    simp only [unbroken_append_iff, unbroken_quoted_iff] at hdirective
    exact hdirective.1.1.1.1.2

/-- A plot has each directive on one line exactly if the texts of its style are. -/
theorem forall_unbroken_plot_iff {d : Drawing Float} {script : Script}
    (hcolor : validateColor s.lineColor = .ok ()) (hplot : plot d s = .ok script) :
    (∀ directive ∈ script, Unbroken directive) ↔ s.IsUnbroken := by
  constructor
  · intro h
    rw [plot_eq_ok d hcolor, Except.ok.injEq] at hplot
    subst hplot
    simp only [List.forall_mem_append] at h
    exact isUnbroken_of_preamble h.1.1.1.1
  · intro h
    have hone := plot_oneLine d hcolor
    rw [h.oneLine_eq, hplot] at hone
    exact map_oneLine_eq_self_iff.1 (Except.ok.inj hone).symm

/-- The plot of a canvas has each directive on one line exactly if the texts of its style and its
    captions are. -/
theorem forall_unbroken_multiPlot_iff {c : Canvas Float} {script : Script}
    (hcolor : validateColor s.lineColor = .ok ()) (hplot : multiPlot c s = .ok script) :
    (∀ directive ∈ script, Unbroken directive) ↔
      s.IsUnbroken ∧ ∀ p ∈ c.subplots, Unbroken p.label := by
  constructor
  · intro h
    rw [multiPlot_eq_ok c hcolor, Except.ok.injEq] at hplot
    subst hplot
    simp only [List.forall_mem_append, List.forall_mem_flatMap] at h
    obtain ⟨⟨⟨hpreamble, hsubplots⟩, -⟩, -⟩ := h
    refine ⟨isUnbroken_of_preamble hpreamble, fun p hp => ?_⟩
    exact unbroken_of_labelCommands fun directive hmem =>
      hsubplots p hp directive (List.mem_append_left _ hmem)
  · rintro ⟨h, hlabels⟩
    have hone := multiPlot_oneLine c hcolor
    rw [h.oneLine_eq, oneLineCanvas_of_unbroken hlabels, hplot] at hone
    exact map_oneLine_eq_self_iff.1 (Except.ok.inj hone).symm

/-- **Directives and lines.** Let the colour of a style be one that is accepted. Then the plot of
    any drawing, and that of any canvas, has the lines of its text for directives exactly if there
    is no line break in the terminal, the output, the colour, the title and the captions. Nothing
    else breaks a directive: in the plot with these texts on one line, each directive is the same on
    one line. -/
theorem textLines_iff_unbroken (hcolor : validateColor s.lineColor = .ok ()) :
    (∀ d, ∃ script, plot d s = .ok script ∧
      (textLines script.text = script ↔ s.IsUnbroken) ∧
      plot d s.oneLine = .ok (script.map oneLine)) ∧
    ∀ c, ∃ script, multiPlot c s = .ok script ∧
      (textLines script.text = script ↔ s.IsUnbroken ∧ ∀ p ∈ c.subplots, Unbroken p.label) ∧
      multiPlot (oneLineCanvas c) s.oneLine = .ok (script.map oneLine) := by
  refine ⟨fun d => ?_, fun c => ?_⟩
  · have hplot := plot_eq_ok d hcolor
    have hone := plot_oneLine d hcolor
    rw [hplot] at hone
    refine ⟨_, hplot, ?_, hone⟩
    exact (textLines_eq_iff (by simp [preamble])).trans (forall_unbroken_plot_iff hcolor hplot)
  · have hplot := multiPlot_eq_ok c hcolor
    have hone := multiPlot_oneLine c hcolor
    rw [hplot] at hone
    refine ⟨_, hplot, ?_, hone⟩
    exact (textLines_eq_iff (by simp [preamble])).trans
      (forall_unbroken_multiPlot_iff hcolor hplot)

/-- A drawing of one segment. -/
def oneSegment : Drawing Float := ⟨[.segment ⟨0, 0⟩ ⟨1, 0⟩], ⟨0, 1, 0, 0⟩, 0⟩

/-- A name of a colour is accepted with a line break too, and a caption is written as it is. -/
theorem textLines_iff_unbroken_skyBlue :
    (∃ script, plot oneSegment {} = .ok script ∧ textLines script.text = script) ∧
    (∃ script, plot oneSegment { lineColor := "sky\nblue" } = .ok script ∧
      textLines script.text ≠ script) ∧
    ∃ script, multiPlot ⟨[⟨oneSegment, 0, "A\nB"⟩], ⟨0, 1, 0, 0⟩⟩ {} = .ok script ∧
      textLines script.text ≠ script := by
  have hdefault : ({} : Style).IsUnbroken :=
    ⟨by decide, by decide, by decide, fun title h => by cases h⟩
  obtain ⟨hplot, hmulti⟩ := textLines_iff_unbroken (s := {}) rfl
  obtain ⟨hbroken, -⟩ := textLines_iff_unbroken (s := { lineColor := "sky\nblue" }) rfl
  refine ⟨?_, ?_, ?_⟩
  · obtain ⟨script, hscript, hlines, -⟩ := hplot oneSegment
    exact ⟨script, hscript, hlines.2 hdefault⟩
  · obtain ⟨script, hscript, hlines, -⟩ := hbroken oneSegment
    have hcolor : ¬ Unbroken "sky\nblue" := by decide
    exact ⟨script, hscript, fun h => hcolor (hlines.1 h).lineColor⟩
  · obtain ⟨script, hscript, hlines, -⟩ := hmulti ⟨[⟨oneSegment, 0, "A\nB"⟩], ⟨0, 1, 0, 0⟩⟩
    have hlabel : ¬ Unbroken "A\nB" := by decide
    exact ⟨script, hscript, fun h => hlabel ((hlines.1 h).2 _ List.mem_cons_self)⟩

end Lindenmayer.Gnuplot

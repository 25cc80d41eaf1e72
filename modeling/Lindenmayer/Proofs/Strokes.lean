import Lindenmayer.Proofs.Arrows
import Lindenmayer.Proofs.Placement
import Lindenmayer.Proofs.Plotter
import Lindenmayer.Proofs.Trail

/-!
# The lines of a plot

The two plots of a drawing show the same lines. A script says of every line where it
starts, while the plotter has to be there already: pen commands say only where to go.
So the plots agree because a drawing is a trail (`compile_trail`). With the point read
last where the trail starts, the strokes of its pen events are its segments, and the
point read last is where the trail ends (`foldl_event_of_trail`).

Around the pen commands there are texts that draw nothing; every drawing of a canvas
starts with a move of its own, so nothing is drawn from one drawing, or from a label, to
the next (`Draws`).
-/

namespace Lindenmayer

namespace Hpgl

/-! ## Trails of pen events -/

/-- The stroke along a segment. -/
def Stroke.ofSegment (s : Point Float × Point Float) : Stroke := ⟨written s.1, written s.2⟩

/-- The strokes of a drawing, one for each segment. -/
def segmentStrokes (d : Drawing Float) : List Stroke := d.segments.map Stroke.ofSegment

/-- The events of a trail draw its segments, if the pen is where it starts. -/
theorem foldl_event_of_trail {p q : Point Float} {l : List (Primitive Float)}
    (h : Trail p l q) (inside : Bool) (drawn : List Stroke) :
    (l.map Event.ofPrimitive).foldl Plotter.event ⟨some (written p), inside, drawn⟩ =
      ⟨some (written q), l.foldl Primitive.leavesOpen inside,
        drawn ++ (Drawing.segmentsInto [] inside l).map Stroke.ofSegment⟩ := by
  induction h generalizing inside drawn with
  | nil p => simp [Drawing.segmentsInto]
  | @cons p q a l ha _ ih =>
    rw [List.map_cons, List.foldl_cons]
    cases a with
    | segment start stop =>
      obtain rfl : start = p := ha start rfl
      cases inside with
      | true =>
        -- A side of a polygon moves the pen and draws nothing.
        rw [Event.ofPrimitive, Plotter.event, Plotter.moveTo_of_inPolygon rfl]
        exact ih true drawn
      | false =>
        -- The stroke is drawn from where the segment starts, since the trail has come there.
        have hrest := ih false (drawn ++ [Stroke.ofSegment (start, stop)])
        have hsegments : Drawing.segmentsInto [] false (.segment start stop :: l) =
            (start, stop) :: Drawing.segmentsInto [] false l :=
          Drawing.segmentsInto_eq [(start, stop)] false l
        rw [hsegments, List.map_cons, List.append_cons]
        exact hrest
    | travel start stop =>
      rw [Event.ofPrimitive, Plotter.event, Plotter.moveTo_up]
      exact ih inside drawn
    | restore stop =>
      rw [Event.ofPrimitive, Plotter.event, Plotter.moveTo_up]
      exact ih inside drawn
    | polygonBegin origin => exact ih true drawn
    | polygonEnd => exact ih false drawn

/-! ## Texts that draw -/

/-- Read outside a polygon, a text draws strokes of its own, wherever the pen is, and
    leaves no polygon open. -/
def Draws (text : String) (drawn : List Stroke) : Prop :=
  ∃ effect, Performs text effect ∧ ∀ P : Plotter, P.inPolygon = false →
    (effect P).inPolygon = false ∧ (effect P).strokes = P.strokes ++ drawn

variable {s t : String} {drawn drawn' : List Stroke}

theorem Draws.append (hs : Draws s drawn) (ht : Draws t drawn') :
    Draws (s ++ t) (drawn ++ drawn') := by
  obtain ⟨f, hf, hfdraws⟩ := hs
  obtain ⟨g, hg, hgdraws⟩ := ht
  refine ⟨g ∘ f, hf.append hg, fun P hP => ?_⟩
  obtain ⟨hfopen, hfstrokes⟩ := hfdraws P hP
  obtain ⟨hgopen, hgstrokes⟩ := hgdraws (f P) hfopen
  refine ⟨hgopen, ?_⟩
  rw [Function.comp_apply, hgstrokes, hfstrokes, List.append_assoc]

theorem Performs.draws (h : Performs s id) : Draws s [] :=
  ⟨id, h, fun P hP => ⟨hP, (List.append_nil P.strokes).symm⟩⟩

theorem Draws.join {α : Type} {text : α → String} {new : α → List Stroke} {l : List α}
    (h : ∀ a ∈ l, Draws (text a) (new a)) : Draws (String.join (l.map text)) (l.flatMap new) := by
  induction l with
  | nil => exact performs_empty.draws
  | cons a l ih =>
    rw [List.map_cons, String.join_cons, List.flatMap_cons]
    exact (h a List.mem_cons_self).append (ih fun b hb => h b (List.mem_cons_of_mem a hb))

theorem Draws.strokes_eq (h : Draws s drawn) : strokes s = drawn := by
  obtain ⟨effect, hperforms, hdraws⟩ := h
  rw [strokes, hperforms .start]
  exact (hdraws .start rfl).2

/-- A label draws nothing. -/
theorem draws_label (x y : Float) (position : String) {text : String}
    (hposition : position.toList.all Char.isDigit) (htext : '\x03' ∉ text.toList) :
    Draws (label x y position text) [] := by
  refine ⟨_, performs_label x y position hposition htext, fun P hP => ?_⟩
  rw [Plotter.moveTo_up, List.append_nil]
  exact ⟨hP, rfl⟩

variable {η : Type} [Heading η] {unit : η → Point Float} {w : Word} {originX : Float} {angle : η}

/-- The pen commands of a drawing draw its segments, wherever the pen was before. -/
theorem draws_penCommands {d : Drawing Float} (h : compile unit w originX angle = .ok d) :
    Draws (penCommands d) (segmentStrokes d) := by
  obtain ⟨⟨q, htrail⟩, hclosed⟩ := compile_trail h
  refine ⟨_, performs_penCommands d, fun P hP => ?_⟩
  -- The first event moves the pen to where the trail starts.
  have hstart : P.event (.move .up ⟨d.originX, 0⟩) =
      ⟨some (written ⟨d.originX, Coordinate.ofInt 0⟩), false, P.strokes⟩ := by
    rw [Plotter.event, Plotter.moveTo_up, hP]
    rfl
  rw [penEvents, List.foldl_cons, hstart, foldl_event_of_trail htrail]
  exact ⟨hclosed, rfl⟩

/-- A subplot draws its segments; its caption draws nothing. -/
theorem draws_subplotCommands {s : Subplot Float}
    (h : compile unit w originX angle = .ok s.drawing) (hlabel : '\x03' ∉ s.label.toList) :
    Draws (subplotCommands s) (segmentStrokes s.drawing) := by
  have hcaption : Draws (if s.label.isEmpty then "" else label s.originX (-textGap) "16" s.label)
      [] := by
    split_ifs
    · exact performs_empty.draws
    · exact draws_label _ _ _ rfl hlabel
  exact hcaption.append (draws_penCommands h)

/-! ## Plots -/

theorem draws_plotTitle (b : BoundingBox Float) {title : String} (h : '\x03' ∉ title.toList) :
    Draws (plotTitle b title) [] := by
  have hreset : Performs "IR;" id := fun _ => rfl
  exact ((hreset.draws.append (performs_window _ _ _ _).draws).append
    (performs_scaling b false).draws).append (draws_label _ _ _ rfl h)

theorem draws_caption {o : Options} (htitle : ∀ t, o.title = some t → '\x03' ∉ t.toList)
    {text : String → String} (htext : ∀ t, '\x03' ∉ t.toList → Draws (text t) []) :
    Draws ((o.caption?.map text).getD "") [] := by
  cases hcaption : o.caption? with
  | none => exact performs_empty.draws
  | some t => exact htext t (htitle t (Option.eq_some_of_filter_eq_some hcaption))

theorem performs_line : Performs "\n" id :=
  fun _ => rfl

/-- A plot draws the segments of its drawing. -/
theorem draws_plot {d : Drawing Float} (h : compile unit w originX angle = .ok d) {o : Options}
    (htitle : ∀ t, o.title = some t → '\x03' ∉ t.toList) :
    Draws (plot d o) (segmentStrokes d) := by
  have hsetup : Draws (startUp ++ window narrow narrow (100.0 - narrow) (topMargin o.caption?) ++
      scaling d.bbox.squared true ++ penSetup o.penWidth) [] :=
    ((performs_startUp.draws.append (performs_window _ _ _ _).draws).append
      (performs_scaling _ _).draws).append (performs_penSetup _).draws
  have hcaption := draws_caption htitle fun t => draws_plotTitle d.bbox.squared
  have hpage : Performs "PG;\n" id := fun _ => rfl
  -- Only one of the parts draws.
  have hplot := (((hsetup.append (draws_penCommands h)).append performs_line.draws).append
    hcaption).append hpage.draws
  rw [List.nil_append, List.append_nil, List.append_nil, List.append_nil] at hplot
  exact hplot

/-- The plot of a canvas draws the segments of its drawings, from left to right. -/
theorem draws_multiPlot {c : Canvas Float}
    (h : ∀ s ∈ c.subplots, ∃ w originX angle, compile unit w originX angle = .ok s.drawing)
    (hlabels : ∀ s ∈ c.subplots, '\x03' ∉ s.label.toList) {o : Options}
    (htitle : ∀ t, o.title = some t → '\x03' ∉ t.toList) :
    Draws (multiPlot c o) (c.subplots.flatMap fun s => segmentStrokes s.drawing) := by
  have hlandscape : Performs "RO90;\n" id := fun _ => rfl
  have hsetup : Draws (startUp ++ "RO90;\n" ++ window narrow (if c.hasLabels then wide else narrow)
      (100.0 - narrow) (topMargin o.caption?) ++ scaling c.bbox false ++ penSetup o.penWidth) [] :=
    (((performs_startUp.draws.append hlandscape.draws).append
      (performs_window _ _ _ _).draws).append (performs_scaling _ _).draws).append
        (performs_penSetup _).draws
  have hsubplots : Draws (String.join (c.subplots.map subplotCommands))
      (c.subplots.flatMap fun s => segmentStrokes s.drawing) := by
    -- Every drawing draws its own segments, wherever the one before it has left the pen.
    refine Draws.join fun s hs => ?_
    obtain ⟨w, originX, angle, hs'⟩ := h s hs
    exact draws_subplotCommands hs' (hlabels s hs)
  have hcaption := draws_caption htitle fun t =>
    draws_label (middle c.bbox.xMin c.bbox.xMax) (c.bbox.yMax + textGap) "14" rfl
  have hpage : Performs "PG;" id := fun _ => rfl
  have hplot := (((hsetup.append hsubplots).append performs_line.draws).append
    hcaption).append hpage.draws
  rw [List.nil_append, List.append_nil, List.append_nil, List.append_nil] at hplot
  exact hplot

/-! ## Arrows -/

/-- The text of a point, as scripts write it. -/
def WrittenPoint.text (p : WrittenPoint) : String := String.ofList p.1 ++ "," ++ String.ofList p.2

theorem text_written (p : Point Float) : (written p).text = Gnuplot.coordinates p := by
  simp only [WrittenPoint.text, written, String.ofList_toList, Gnuplot.coordinates]

/-- The directive that draws a stroke in a script. -/
def Stroke.directive (s : Stroke) : String :=
  Gnuplot.arrowCode ++ s.start.text ++ " to " ++ s.stop.text

/-- An arrow and a stroke along the same segment have the same coordinates. -/
theorem directive_ofSegment (s : Point Float × Point Float) :
    (Stroke.ofSegment s).directive = Gnuplot.arrow s.1 s.2 := by
  rw [Stroke.directive, Stroke.ofSegment, text_written, text_written, Gnuplot.arrow]

theorem directives_segmentStrokes (d : Drawing Float) :
    (segmentStrokes d).map Stroke.directive = Gnuplot.arrows d := by
  rw [segmentStrokes, List.map_map, Gnuplot.arrows]
  exact List.map_congr_left fun s _ => directive_ofSegment s

/-- The strokes of a plot are the arrows of its drawing. -/
theorem directives_plot {d : Drawing Float} (h : compile unit w originX angle = .ok d) {o : Options}
    (htitle : ∀ t, o.title = some t → '\x03' ∉ t.toList) :
    (strokes (plot d o)).map Stroke.directive = Gnuplot.arrows d := by
  rw [(draws_plot h htitle).strokes_eq, directives_segmentStrokes]

end Hpgl

/-- The two plots show the same lines. For a drawing that was compiled and for a canvas
    that was laid out, the strokes of the plotter are the arrows of the script, in order
    and with the same texts of coordinates. A script begins with the terminal and the
    output, which are texts of the caller, and so are a title and labels; these must not
    contain the character that ends a text of the plotter. -/
theorem strokes_eq_arrows {η : Type} [Heading η] (unit : η → Point Float) :
    (∀ w originX angle d, compile unit w originX angle = .ok d →
      ∀ (o : Hpgl.Options) (style : Gnuplot.Style),
      Gnuplot.validateColor style.lineColor = .ok () →
      (∀ t, o.title = some t → '\x03' ∉ t.toList) →
      ∃ rest, Gnuplot.plot d style = .ok (style.terminal :: style.output :: rest) ∧
        rest.filter Gnuplot.isArrow =
          (Hpgl.strokes (Hpgl.plot d o)).map Hpgl.Stroke.directive) ∧
    (∀ inputs c, layout unit inputs = .ok c →
      (∀ s ∈ c.subplots, '\x03' ∉ s.label.toList) →
      ∀ (o : Hpgl.Options) (style : Gnuplot.Style),
      Gnuplot.validateColor style.lineColor = .ok () →
      (∀ t, o.title = some t → '\x03' ∉ t.toList) →
      ∃ rest, Gnuplot.multiPlot c style = .ok (style.terminal :: style.output :: rest) ∧
        rest.filter Gnuplot.isArrow =
          (Hpgl.strokes (Hpgl.multiPlot c o)).map Hpgl.Stroke.directive) := by
  constructor
  · intro w originX angle d hd o style hcolor htitle
    obtain ⟨rest, hplot, harrows⟩ := Gnuplot.plot_eq d hcolor
    exact ⟨rest, hplot, harrows.trans (Hpgl.directives_plot hd htitle).symm⟩
  · intro inputs c hc hlabels o style hcolor htitle
    obtain ⟨rest, hplot, harrows⟩ := Gnuplot.multiPlot_eq c hcolor
    obtain ⟨-, subplots, hsubplots, rfl⟩ := layout_eq_ok_iff.1 hc
    refine ⟨rest, hplot, ?_⟩
    have hdrawings : ∀ s ∈ subplots, ∃ w originX angle,
        compile unit w originX angle = .ok s.drawing := by
      intro s hs
      obtain ⟨input, -, -, hcompile⟩ := compile_of_place hsubplots s hs
      exact ⟨input.word, s.originX, input.angle, hcompile⟩
    rw [(Hpgl.draws_multiPlot hdrawings hlabels htitle).strokes_eq, harrows, List.map_flatMap]
    exact List.flatMap_congr fun s _ => (Hpgl.directives_segmentStrokes s.drawing).symm

/-- Two words on a canvas. The first one has the side of a polygon between two lines, the second one
    turns back. -/
def backToBack : List (SubplotInput Float) :=
  [⟨"F{F}+F".toList, 90, "left"⟩, ⟨"|F".toList, 90, "right"⟩]

/-- The side of the polygon is not drawn, and the line behind it starts where it ends. Nothing is
    drawn from one word to the other, nor by a title that reads like a command. -/
theorem strokes_eq_arrows_polygonSide :
    (∃ d, compile floatStep "F{F}+F".toList 0 90 = .ok d ∧
    ∃ rest, Gnuplot.plot d = .ok ("set terminal svg" :: "set output" :: rest) ∧
      rest.filter Gnuplot.isArrow =
        (Hpgl.strokes (Hpgl.plot d)).map Hpgl.Stroke.directive ∧
      rest.filter Gnuplot.isArrow =
        ["set arrow as 1 from 0.000000,0.000000 to 1.000000,0.000000",
          "set arrow as 1 from 2.000000,0.000000 to 2.000000,1.000000"]) ∧
    ∃ c, layout floatStep backToBack = .ok c ∧
    ∃ rest, Gnuplot.multiPlot c = .ok ("set terminal svg" :: "set output" :: rest) ∧
      rest.filter Gnuplot.isArrow =
        (Hpgl.strokes (Hpgl.multiPlot c { title := "PD9,9" })).map Hpgl.Stroke.directive ∧
      rest.filter Gnuplot.isArrow =
        ["set arrow as 1 from 0.000000,0.000000 to 1.000000,0.000000",
          "set arrow as 1 from 2.000000,0.000000 to 2.000000,1.000000",
          "set arrow as 1 from 5.000000,0.000000 to 4.000000,0.000000"] := by
  have hcolor : Gnuplot.validateColor ({} : Gnuplot.Style).lineColor = .ok () := by decide
  obtain ⟨hsingle, hmulti⟩ := strokes_eq_arrows floatStep
  constructor
  · have hcompile : (compile floatStep "F{F}+F".toList 0 90).toOption.map Gnuplot.arrows =
        some ["set arrow as 1 from 0.000000,0.000000 to 1.000000,0.000000",
          "set arrow as 1 from 2.000000,0.000000 to 2.000000,1.000000"] := by
      decide +kernel
    obtain ⟨d, hd, harrows⟩ := exists_ok_of_map_toOption hcompile
    have htitle : ∀ t, ({} : Hpgl.Options).title = some t → '\x03' ∉ t.toList :=
      fun _ h => nomatch h
    obtain ⟨rest, hplot, hrest⟩ := hsingle _ 0 90 d hd {} {} hcolor htitle
    exact ⟨d, hd, rest, hplot, hrest,
      hrest.trans ((Hpgl.directives_plot hd htitle).trans harrows)⟩
  · have hlayout : (layout floatStep backToBack).toOption.map (fun c =>
        (c.subplots.map (·.label), c.subplots.flatMap fun s => Gnuplot.arrows s.drawing)) =
        some (["left", "right"], ["set arrow as 1 from 0.000000,0.000000 to 1.000000,0.000000",
          "set arrow as 1 from 2.000000,0.000000 to 2.000000,1.000000",
          "set arrow as 1 from 5.000000,0.000000 to 4.000000,0.000000"]) := by
      decide +kernel
    obtain ⟨c, hc, hsubplots⟩ := exists_ok_of_map_toOption hlayout
    obtain ⟨hcaptions, harrows⟩ := Prod.mk.inj hsubplots
    have hlabels : ∀ s ∈ c.subplots, '\x03' ∉ s.label.toList := by
      have hall : ∀ l ∈ c.subplots.map (·.label), '\x03' ∉ l.toList := hcaptions ▸ by decide
      exact fun s hs => hall _ (List.mem_map_of_mem hs)
    have htitle : ∀ t, ({ title := "PD9,9" } : Hpgl.Options).title = some t →
        '\x03' ∉ t.toList := by
      rintro t ⟨⟩
      decide
    obtain ⟨rest, hplot, hrest⟩ := hmulti _ c hc hlabels { title := "PD9,9" } {} hcolor htitle
    obtain ⟨rest', hplot', hrest'⟩ := Gnuplot.multiPlot_eq c hcolor
    obtain rfl : rest = rest' :=
      (List.cons.inj (List.cons.inj (Except.ok.inj (hplot.symm.trans hplot'))).2).2
    exact ⟨c, hc, rest, hplot, hrest, hrest'.trans harrows⟩

/-- A style whose terminal is itself the directive of an arrow. -/
def disguised : Gnuplot.Style :=
  { terminal := "set arrow as 1 from 5.000000,5.000000 to 6.000000,6.000000" }

/-- Such a terminal makes an arrow of the script that the plotter does not draw. -/
theorem arrows_ne_strokes_disguised :
    Gnuplot.validateColor disguised.lineColor = .ok () ∧
    ∃ d, compile floatStep ['F'] 0 90 = .ok d ∧
    ∃ script, Gnuplot.plot d disguised = .ok script ∧
      script.filter Gnuplot.isArrow =
        ["set arrow as 1 from 5.000000,5.000000 to 6.000000,6.000000",
          "set arrow as 1 from 0.000000,0.000000 to 1.000000,0.000000"] ∧
      (Hpgl.strokes (Hpgl.plot d)).map Hpgl.Stroke.directive =
        ["set arrow as 1 from 0.000000,0.000000 to 1.000000,0.000000"] := by
  have hcolor : Gnuplot.validateColor disguised.lineColor = .ok () := by decide
  have hcompile : (compile floatStep ['F'] 0 90).toOption.map Gnuplot.arrows =
      some ["set arrow as 1 from 0.000000,0.000000 to 1.000000,0.000000"] := by
    decide +kernel
  obtain ⟨d, hd, harrows⟩ := exists_ok_of_map_toOption hcompile
  obtain ⟨rest, hplot, hrest⟩ := Gnuplot.plot_eq d hcolor
  have htitle : ∀ t, ({} : Hpgl.Options).title = some t → '\x03' ∉ t.toList :=
    fun _ h => nomatch h
  refine ⟨hcolor, d, hd, _, hplot, ?_, (Hpgl.directives_plot hd htitle).trans harrows⟩
  rw [List.filter_cons_of_pos (by decide), List.filter_cons_of_neg (by decide), hrest, harrows]
  rfl

end Lindenmayer

import Lindenmayer.Canvas
import Lindenmayer.Number.Fixed

/-!
# HP-GL/2 plots

The commands of a pen plotter as one text. A plot starts the plotter up, scales
its page to the bounds of the drawing, and moves the pen along the drawing:

* `PU` and `PD` move with the pen up and down; consecutive moves with the same pen
  share one command, with their coordinates one after the other;
* a polygon is buffered between `PM0` and `PM2` and then outlined and filled;
* `LB` writes a text, which ends with the control character ETX.

A drawing is turned into a list of pen events first (`penEvents`), one for where it
starts and one for each primitive; the text of an event depends only on the event
before it.
-/

namespace Lindenmayer.Hpgl

/-- The settings of a plot. -/
structure Options where
  /-- The text at the top; an empty one counts as none. -/
  title : Option String := none
  /-- The width of the pen in millimetres. -/
  penWidth : Float := 0.35

/-- The title, if there is one to be written. -/
def Options.caption? (o : Options) : Option String := o.title.filter (!·.isEmpty)

/-! ## Pen events -/

/-- Whether the pen draws. -/
inductive Pen
  | up
  | down
  deriving DecidableEq, Repr

def Pen.code : Pen → String
  | .up => "PU"
  | .down => "PD"

/-- The marks of polygons. -/
inductive Mark
  | polygonBegin
  | polygonEnd
  deriving DecidableEq, Repr

def Mark.code : Mark → String
  | .polygonBegin => "PM0;"
  | .polygonEnd => "PM2;EP;FP;"

/-- What the plotter is told. -/
inductive Event
  /-- Move the pen to a point. -/
  | move (pen : Pen) (target : Point Float)
  | mark (mark : Mark)
  deriving DecidableEq

/-- The event of a primitive. Where a primitive starts is where the one before it
    has left the pen. -/
def Event.ofPrimitive : Primitive Float → Event
  | .segment _ stop => .move .down stop
  | .travel _ stop => .move .up stop
  | .restore stop => .move .up stop
  | .polygonBegin _ => .mark .polygonBegin
  | .polygonEnd => .mark .polygonEnd

/-- The events of a drawing, from the point where it starts. -/
def penEvents (d : Drawing Float) : List Event :=
  .move .up ⟨d.originX, 0⟩ :: d.primitives.map Event.ofPrimitive

/-- The coordinates of a point. -/
def coordinates (p : Point Float) : String := fixed p.x ++ "," ++ fixed p.y

/-- The text of an event behind another one. A move with the same pen continues the
    command, any other event ends it. -/
def Event.text (before : Option Event) : Event → String
  | .mark m => ";\n" ++ m.code ++ "\n"
  | .move pen target =>
    match before with
    | some (.move last _) =>
      if last = pen then "," ++ coordinates target
      else ";\n" ++ pen.code ++ coordinates target
    | _ => pen.code ++ coordinates target

/-- The texts of events, each behind the one before it. -/
def eventTexts (events : List Event) : List String :=
  List.zipWith Event.text (none :: events.map some) events

/-- The pen commands of a drawing. -/
def penCommands (d : Drawing Float) : String := String.join (eventTexts (penEvents d)) ++ ";"

/-! ## Page commands -/

/-- The margin, in percent of the page, that keeps a wide pen from being clipped. -/
def narrow : Float := 0.1

/-- The margin that leaves room for a line of text. -/
def wide : Float := 3.0

/-- The distance between the drawing and a line of text above or below it. -/
def textGap : Float := 1.0

/-- Enters the language of the plotter and resets it. -/
def startUp : String := "\x1b%-1BBPIN;\n"

/-- The window on the page, by two corners in percent of the page. -/
def window (x₀ y₀ x₁ y₁ : Float) : String :=
  "IR" ++ ",".intercalate [fixed x₀, fixed y₀, fixed x₁, fixed y₁] ++ ";\n"

/-- The bounds that the window is scaled to. The scales of the axes are the same
    if it is isotropic. -/
def scaling (b : BoundingBox Float) (isotropic : Bool) : String :=
  "SC" ++ ",".intercalate [fixed b.xMin, fixed b.xMax, fixed b.yMin, fixed b.yMax] ++
    (if isotropic then ",1;\n" else ",0;\n")

/-- Takes up the pen. -/
def penSetup (width : Float) : String := "SP1;WU0;PW" ++ fixed width ++ ";\n"

/-- A text at a point, placed relative to it as `position` says. -/
def label (x y : Float) (position : String) (text : String) : String :=
  "PU" ++ fixed x ++ "," ++ fixed y ++ ";LO" ++ position ++ ";LB" ++ text ++ "\x03;\n"

/-- The top of the window: lower if a title goes above it. -/
def topMargin (title : Option String) : Float :=
  if title.isSome then 100.0 - wide else 100.0 - narrow

/-- The middle between two coordinates. -/
def middle (a b : Float) : Float := 0.5 * (a + b)

/-! ## Plots -/

/-- The title of a single plot, in a window of its own. -/
def plotTitle (b : BoundingBox Float) (title : String) : String :=
  "IR;" ++ window narrow narrow (100.0 - narrow) (100.0 - narrow) ++ scaling b false ++
    label (middle b.xMin b.xMax) b.yMax "6" title

/-- The plot of a drawing, to the same scale along both axes, in the middle of a
    square. -/
def plot (d : Drawing Float) (o : Options := {}) : String :=
  let b := d.bbox.squared
  startUp ++ window narrow narrow (100.0 - narrow) (topMargin o.caption?) ++ scaling b true ++
    penSetup o.penWidth ++ penCommands d ++ "\n" ++
    (o.caption?.map (plotTitle b)).getD "" ++ "PG;\n"

/-- A subplot, behind its caption. -/
def subplotCommands (s : Subplot Float) : String :=
  (if s.label.isEmpty then "" else label s.originX (-textGap) "16" s.label) ++
    penCommands s.drawing

/-- The plot of a canvas, turned by 90 degrees and filling the page. -/
def multiPlot (c : Canvas Float) (o : Options := {}) : String :=
  let b := c.bbox
  let bottom := if c.hasLabels then wide else narrow
  startUp ++ "RO90;\n" ++ window narrow bottom (100.0 - narrow) (topMargin o.caption?) ++
    scaling b false ++ penSetup o.penWidth ++ String.join (c.subplots.map subplotCommands) ++
    "\n" ++
    (o.caption?.map (label (middle b.xMin b.xMax) (b.yMax + textGap) "14")).getD "" ++ "PG;"

end Lindenmayer.Hpgl

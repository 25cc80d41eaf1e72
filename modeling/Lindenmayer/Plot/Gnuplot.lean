import Lindenmayer.Canvas
import Lindenmayer.Error
import Lindenmayer.Number.Fixed

/-!
# Gnuplot scripts

A plot as a list of gnuplot directives, one for a line. Each segment outside the
polygons becomes an arrow without a head, each polygon a filled object.

A drawing is turned into a list of shapes first (`shapes`), in the order in which
they are complete; a directive is the text of one shape.
-/

namespace Lindenmayer.Gnuplot

/-- The settings of a plot. -/
structure Style where
  /-- The directive that chooses the terminal. -/
  terminal : String := "set terminal svg"
  /-- The directive that chooses the output. -/
  output : String := "set output"
  /-- The text at the top; an empty one counts as none. -/
  title : Option String := none
  /-- The colour of lines, areas and texts: a name, or `#rrggbb`. -/
  lineColor : String := "black"
  deriving DecidableEq, Repr

/-- The title, if there is one to be written. -/
def Style.caption? (s : Style) : Option String := s.title.filter (!·.isEmpty)

/-! ## Colours -/

def isHexDigit (c : Char) : Bool :=
  c.isDigit ∨ ('a' ≤ c ∧ c ≤ 'f') ∨ ('A' ≤ c ∧ c ≤ 'F')

/-- Whether a text is a `#` followed by six hexadecimal digits. -/
def isHexColor : List Char → Bool
  | '#' :: digits => digits.length = 6 ∧ digits.all isHexDigit
  | _ => false

/-- Checks the form of a colour. A text with a `#` must be `#rrggbb`; any other
    text that is not empty passes as a name. -/
def validateColor (color : String) : Except Error Unit :=
  let cs := color.toList
  if cs.isEmpty ∨ (cs.contains '#' ∧ ¬ isHexColor cs) then
    .error (.configuration (.invalidColor color))
  else
    .ok ()

/-! ## Shapes -/

/-- What is drawn by one directive. -/
inductive Shape
  | arrow (start stop : Point Float)
  /-- A filled polygon, by where it starts and where its sides end. -/
  | polygon (origin : Point Float) (corners : List (Point Float))
  deriving DecidableEq

/-- A polygon that is not complete: where it starts, and where its sides so far
    end, the last one first. -/
abbrev OpenPolygon := Point Float × List (Point Float)

/-- Continues the list of shapes `done` (the last one first) with those of a list of
    primitives. A polygon that begins takes the place of one that is open, and one
    that does not end is lost. -/
def shapesInto (done : List Shape) (current : Option OpenPolygon) :
    List (Primitive Float) → List Shape
  | [] => done.reverse
  | .polygonBegin origin :: rest => shapesInto done (some (origin, [])) rest
  | .polygonEnd :: rest =>
    match current with
    | some (origin, corners) => shapesInto (.polygon origin corners.reverse :: done) none rest
    | none => shapesInto done none rest
  | .segment start stop :: rest =>
    match current with
    | some (origin, corners) => shapesInto done (some (origin, stop :: corners)) rest
    | none => shapesInto (.arrow start stop :: done) none rest
  | .travel _ stop :: rest =>
    match current with
    | some (origin, corners) => shapesInto done (some (origin, stop :: corners)) rest
    | none => shapesInto done none rest
  | .restore _ :: rest => shapesInto done current rest

/-- The shapes of a drawing. -/
def shapes (d : Drawing Float) : List Shape := shapesInto [] none d.primitives

/-! ## Directives -/

/-- A text in quotes. -/
def quoted (text : String) : String := "\"" ++ text ++ "\""

/-- The coordinates of a point. -/
def coordinates (p : Point Float) : String := fixed p.x ++ "," ++ fixed p.y

/-- The directive of a shape. -/
def Shape.directive (color : String) : Shape → String
  | .arrow start stop =>
    "set arrow as 1 from " ++ coordinates start ++ " to " ++ coordinates stop
  | .polygon origin corners =>
    "set object polygon fc rgb " ++ quoted color ++ " from " ++ coordinates origin ++
      String.join (corners.map fun p => " to " ++ coordinates p)

/-- The directives of a drawing. -/
def drawCommands (d : Drawing Float) (color : String) : List String :=
  (shapes d).map (Shape.directive color)

/-- The size of a margin without a line of text. -/
def narrow : String := "1"

/-- The size of a margin with a line of text. -/
def wide : String := "2"

/-- The directives before the drawing. -/
def preamble (s : Style) (bottom : String) (square : Bool) : List String :=
  let top := if s.caption?.isSome then wide else narrow
  [s.terminal, s.output, "unset border", "unset tics", "set bmargin " ++ bottom,
    "set tmargin " ++ top, "set rmargin " ++ narrow, "set lmargin " ++ narrow] ++
  (if square then ["set size square"] else []) ++
  ["set autoscale fix",
    "set style fill solid 1.0 border rgb " ++ quoted s.lineColor,
    "set style arrow 1 nohead lc rgb " ++ quoted s.lineColor] ++
  s.caption?.toList.map fun title =>
    "set title " ++ quoted title ++ " tc rgb " ++ quoted s.lineColor

/-- The directives that bound the axes. -/
def ranges (b : BoundingBox Float) : List String :=
  ["set xrange [" ++ fixed b.xMin ++ ":" ++ fixed b.xMax ++ "]",
    "set yrange [" ++ fixed b.yMin ++ ":" ++ fixed b.yMax ++ "]"]

/-- The directive that pads the axes to a square. -/
def offsets (b : BoundingBox Float) : String :=
  let (dx, dy) := b.squareOffsets
  "set offset " ++ ",".intercalate [fixed dx, fixed dx, fixed dy, fixed dy]

/-- The directives after the drawing. -/
def trailer (color : String) : List String :=
  ["set parametric", "plot 0,0 notitle lc rgb " ++ quoted color ++ " lw 0", "quit"]

/-- The directive of the caption of a subplot, if it has one. -/
def labelCommands (s : Subplot Float) (color : String) : List String :=
  if s.label.isEmpty then []
  else
    ["set label " ++ quoted s.label ++ " at " ++ fixed s.originX ++
      ",character 1 center front tc rgb " ++ quoted color]

/-! ## Plots -/

/-- The directives of a script. -/
abbrev Script := List String

/-- The directives as one text. -/
def Script.text (s : Script) : String := "\n".intercalate s

/-- The plot of a drawing, to the same scale along both axes, in the middle of a
    square. -/
def plot (d : Drawing Float) (s : Style := {}) : Except Error Script := do
  validateColor s.lineColor
  return preamble s narrow true ++ drawCommands d s.lineColor ++ ranges d.bbox ++
    [offsets d.bbox] ++ trailer s.lineColor

/-- The directives of a subplot. -/
def subplotCommands (color : String) (s : Subplot Float) : List String :=
  labelCommands s color ++ drawCommands s.drawing color

/-- The plot of a canvas, filling the page. -/
def multiPlot (c : Canvas Float) (s : Style := {}) : Except Error Script := do
  validateColor s.lineColor
  let bottom := if c.hasLabels then wide else narrow
  return preamble s bottom false ++ c.subplots.flatMap (subplotCommands s.lineColor) ++
    ranges c.bbox ++ trailer s.lineColor

end Lindenmayer.Gnuplot

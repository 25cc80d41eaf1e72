import Lindenmayer.Canvas
import Lindenmayer.Drawing.Compile

/-!
# Layout

Words are drawn from left to right, each on its own. The first drawing starts at
zero. Every following one starts to the right of the drawing before it, by the
distance it reaches to the left of its own start and two units more. How far it
reaches is found out by a dry run (`leftmostExcursion`), before it is drawn.
-/

namespace Lindenmayer

/-- A word to be placed, with its production angle and its caption. -/
structure SubplotInput (η : Type) where
  word : Word
  angle : η
  label : String := ""
  deriving DecidableEq, Repr

variable {η κ : Type}

/-- Pairs words with angles and labels. There must be at least as many of these as
    there are words; what is left over is ignored. -/
def zipInputs (words : List Word) (angles : List η) (labels : List String) :
    Except Error (List (SubplotInput η)) :=
  if words.isEmpty then .error (.layoutInput .noWords)
  else if angles.isEmpty then .error (.layoutInput .noAngles)
  else if labels.isEmpty then .error (.layoutInput .noLabels)
  else if angles.length < words.length then .error (.layoutInput .tooFewAngles)
  else if labels.length < words.length then .error (.layoutInput .tooFewLabels)
  else
    .ok ((words.zip (angles.zip labels)).map fun (word, angle, label) => ⟨word, angle, label⟩)

variable [Heading η] [Coordinate κ]

/-! ## The dry run -/

/-- A walk and the least `x` it has come to. -/
structure Excursion (η κ : Type) where
  walker : Walker η κ
  xMin : κ
  deriving DecidableEq, Repr

/-- Carries out a command; a move may come further to the left. -/
def Excursion.step (unit : η → Point κ) (angle : η) (e : Excursion η κ) (i : Instruction) :
    Except Error (Excursion η κ) :=
  match e.walker.step unit angle i with
  | .error err => .error err
  | .ok walker =>
    match i.command with
    | .forward _ =>
      .ok ⟨walker, Coordinate.lesser e.xMin walker.turtle.position.x⟩
    | _ => .ok ⟨walker, e.xMin⟩

/-- The least `x` of a walk over a word from the origin. It is never positive,
    since the walk starts at zero. Polygons are ignored. -/
def leftmostExcursion (unit : η → Point κ) (w : Word) (angle : η) : Except Error κ :=
  let start : Excursion η κ :=
    ⟨.ofTurtle (.facingEast Point.origin), Coordinate.ofInt 0⟩
  match (commands w).foldlM (Excursion.step unit angle) start with
  | .error e => .error e
  | .ok e => .ok e.xMin

/-- The distance between neighbours that is added to the reach of the right one. -/
def gapNudge : κ := Coordinate.ofInt 2

/-- The room to leave to the left of the start of a drawing. -/
def gapBefore (unit : η → Point κ) (w : Word) (angle : η) : Except Error κ :=
  match leftmostExcursion unit w angle with
  | .error e => .error e
  | .ok x => .ok (Coordinate.add (Coordinate.abs x) gapNudge)

/-! ## Placement -/

/-- Where the drawing after `d` starts; `none` if there is none. -/
def nextOrigin? (unit : η → Point κ) (d : Drawing κ) :
    List (SubplotInput η) → Except Error (Option κ)
  | [] => .ok none
  | next :: _ =>
    match gapBefore unit next.word next.angle with
    | .error e => .error e
    | .ok gap => .ok (some (Coordinate.add d.bbox.xMax gap))

/-- Places drawings from left to right, the first one at `originX`. -/
def place (unit : η → Point κ) (originX : κ) :
    List (SubplotInput η) → Except Error (List (Subplot κ))
  | [] => .ok []
  | input :: rest => do
    let drawing ← compile unit input.word originX input.angle
    let next ← nextOrigin? unit drawing rest
    let subplots ← place unit (next.getD originX) rest
    return ⟨drawing, originX, input.label⟩ :: subplots

/-- The canvas of a list of words. The bounds start at the origin, where the first
    drawing starts. -/
def layout (unit : η → Point κ) (inputs : List (SubplotInput η)) : Except Error (Canvas κ) :=
  if inputs.isEmpty then
    .error (.layoutInput .noWords)
  else do
    let subplots ← place unit (Coordinate.ofInt 0) inputs
    let bbox := subplots.foldl (fun b s => b.union s.drawing.bbox) (.ofPoint Point.origin)
    return ⟨subplots, bbox⟩

end Lindenmayer

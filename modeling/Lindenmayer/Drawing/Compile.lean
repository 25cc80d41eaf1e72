import Lindenmayer.Drawing
import Lindenmayer.Turtle.Walker

/-!
# Compiling a word into a drawing

The walk of the turtle over the commands of a word, recorded. A move leaves a
segment or a travel, the end of a branch a restore, and the marks of polygons
stand where their braces stood.

A word compiles if it is not empty, if the production angle is not zero, if every
`(` that is reached opens a heading, if every `]` has a turtle to restore, and if
its braces are pairs that follow each other without nesting. A `[` may be left
open.
-/

namespace Lindenmayer

variable {η κ : Type} [Heading η] [Coordinate κ]

/-- A walk with its record. -/
structure Recording (η κ : Type) where
  walker : Walker η κ
  /-- The primitives left so far, the last one first. -/
  primitives : List (Primitive κ)
  /-- Whether a polygon is open. -/
  polygonOpen : Bool
  deriving DecidableEq, Repr

namespace Recording

/-- The start of a walk. -/
def start (p : Point κ) : Recording η κ := ⟨.ofTurtle (.facingEast p), [], false⟩

/-- What a command other than the marks of polygons leaves, when it takes the
    turtle from one position to another. -/
def trace? (start stop : Point κ) : Command → Option (Primitive κ)
  | .forward true => some (.segment start stop)
  | .forward false => some (.travel start stop)
  | .pop => some (.restore stop)
  | _ => none

/-- The position of the turtle. -/
def position (r : Recording η κ) : Point κ := r.walker.turtle.position

/-- Carries out a command and records what it leaves. -/
def step (unit : η → Point κ) (angle : η) (r : Recording η κ) (i : Instruction) :
    Except Error (Recording η κ) :=
  match i.command with
  | .beginPolygon =>
    if r.polygonOpen then
      .error (.configuration (.polygonNested i.position))
    else
      .ok ⟨r.walker, .polygonBegin r.position :: r.primitives, true⟩
  | .endPolygon =>
    if r.polygonOpen then
      .ok ⟨r.walker, .polygonEnd :: r.primitives, false⟩
    else
      .error (.configuration (.polygonNotOpen i.position))
  | command =>
    match r.walker.step unit angle i with
    | .error e => .error e
    | .ok walker =>
      let left := trace? r.position walker.turtle.position command
      .ok ⟨walker, left.toList ++ r.primitives, r.polygonOpen⟩

/-- Carries out commands one after the other. -/
def run (unit : η → Point κ) (angle : η) (r : Recording η κ) (l : List Instruction) :
    Except Error (Recording η κ) :=
  l.foldlM (step unit angle) r

end Recording

/-- The drawing of a word by a turtle that starts at `(originX, 0)`, heading due
    east, and turns by `angle`. -/
def compile (unit : η → Point κ) (w : Word) (originX : κ) (angle : η) :
    Except Error (Drawing κ) :=
  if w.isEmpty then
    .error (.configuration .emptyWord)
  else if Heading.isZero angle then
    .error (.configuration .zeroAngle)
  else
    let start : Point κ := ⟨originX, Coordinate.ofInt 0⟩
    match Recording.run unit angle (.start start) (commands w) with
    | .error e => .error e
    | .ok r =>
      if r.polygonOpen then
        .error (.configuration .polygonNotClosed)
      else
        let primitives := r.primitives.reverse
        .ok ⟨primitives, Drawing.bounds start primitives, originX⟩

/-- The angle of a turtle that is not told one. -/
def defaultAngle : Float := 90

end Lindenmayer

import Lindenmayer.Turtle.Command
import Lindenmayer.Turtle.Plane

/-!
# The walking turtle

A turtle has a heading and a position. Walking, it also keeps the turtles saved
at the branches it is inside of (`Walker`): `[` saves the turtle as it is, and
`]` brings back the one saved last.

`Walker.step` carries out one command. It says nothing about what is drawn, so
that a drawing and a dry run follow the same walk.
-/

namespace Lindenmayer

variable {η κ : Type}

/-- A heading and a position. -/
structure Turtle (η κ : Type) where
  heading : η
  position : Point κ
  deriving DecidableEq, Repr

namespace Turtle

variable [Heading η] [Coordinate κ]

/-- A turtle heading due east. -/
def facingEast (position : Point κ) : Turtle η κ := ⟨Heading.east, position⟩

/-- The turtle one step ahead. -/
def advance (unit : η → Point κ) (t : Turtle η κ) : Turtle η κ :=
  { t with position := t.position.add (unit t.heading) }

/-- The turtle turned by an angle. -/
def rotate (t : Turtle η κ) (angle : η) : Turtle η κ :=
  { t with heading := Heading.add t.heading angle }

/-- The turtle with another heading. -/
def face (t : Turtle η κ) (heading : η) : Turtle η κ := { t with heading }

end Turtle

/-- A turtle and the turtles saved, the last one first. -/
structure Walker (η κ : Type) where
  turtle : Turtle η κ
  saved : List (Turtle η κ)
  deriving DecidableEq, Repr

namespace Walker

/-- A walker without saved turtles. -/
def ofTurtle (t : Turtle η κ) : Walker η κ := ⟨t, []⟩

/-- Saves the turtle. -/
def push (w : Walker η κ) : Walker η κ := { w with saved := w.turtle :: w.saved }

/-- Restores the turtle saved last. The position is reported if there is none. -/
def pop (w : Walker η κ) (position : Nat) : Except Error (Walker η κ) :=
  match w.saved with
  | [] => .error (.stackUnderflow position)
  | t :: saved => .ok ⟨t, saved⟩

variable [Heading η] [Coordinate κ]

/-- The angle of a turn, for a production angle. -/
def turnAngle (angle : η) : Turn → η
  | .left => angle
  | .right => Heading.neg angle
  | .around => Heading.halfTurn

/-- Carries out a command. Polygons do not change the walk. -/
def step (unit : η → Point κ) (angle : η) (w : Walker η κ) (i : Instruction) :
    Except Error (Walker η κ) :=
  match i.command with
  | .forward _ => .ok { w with turtle := w.turtle.advance unit }
  | .turn turn => .ok { w with turtle := w.turtle.rotate (turnAngle angle turn) }
  | .face heading => .ok { w with turtle := w.turtle.face (Heading.ofDecimal heading) }
  | .push => .ok w.push
  | .pop => w.pop i.position
  | .beginPolygon => .ok w
  | .endPolygon => .ok w
  | .idle _ => .ok w
  | .malformed => .error (.configuration .malformedHeading)

end Walker

end Lindenmayer

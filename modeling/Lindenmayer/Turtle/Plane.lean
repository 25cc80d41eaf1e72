import Lindenmayer.Number.Binary64
import Lindenmayer.Number.Decimal

/-!
# The plane of the turtle

What a turtle needs of numbers: headings can be turned and read from decimal
literals (`Heading`), coordinates can be added and compared (`Coordinate`). The
turtle, its drawings and their layout are defined over any such numbers. They run
in binary64, whose operations round; exact numbers are as good, and there the
laws of geometry hold without rounding.

A turtle moves by one unit in the direction of its heading. Headings that are
whole multiples of 90 degrees move along an axis by exactly one unit, so long
walks along the axes do not drift (`unitStep`); what any other heading does is a
parameter.
-/

namespace Lindenmayer

/-- Numbers that measure headings, in degrees counterclockwise from due east. -/
class Heading (η : Type) where
  ofDecimal : Decimal → η
  add : η → η → η
  neg : η → η
  /-- The exact number of degrees, if the heading has one. -/
  degrees? : η → Option Rat

/-- Numbers that measure positions. -/
class Coordinate (κ : Type) where
  ofInt : Int → κ
  add : κ → κ → κ
  abs : κ → κ
  /-- The smaller of two numbers. -/
  lesser : κ → κ → κ
  /-- The greater of two numbers. -/
  greater : κ → κ → κ

namespace Heading

variable {η : Type} [Heading η]

def east : η := ofDecimal (.ofNat 0)

def halfTurn : η := ofDecimal (.ofNat 180)

/-- Whether a heading, or an angle to turn by, is zero. -/
def isZero (h : η) : Bool := degrees? h == some 0

end Heading

/-- A point, or a displacement, of the plane. -/
structure Point (κ : Type) where
  x : κ
  y : κ
  deriving DecidableEq, Repr

namespace Point

variable {κ : Type} [Coordinate κ]

def ofInts (x y : Int) : Point κ := ⟨Coordinate.ofInt x, Coordinate.ofInt y⟩

def origin : Point κ := ofInts 0 0

def add (p q : Point κ) : Point κ := ⟨Coordinate.add p.x q.x, Coordinate.add p.y q.y⟩

end Point

/-! ## Unit steps -/

/-- What is left of `d` degrees after whole turns are taken away towards zero; it
    has the sign of `d`. -/
def turnRemainder (d : Rat) : Rat := d - 360 * (d.num.tdiv (360 * d.den) : Int)

section

variable {η κ : Type} [Heading η] [Coordinate κ]

/-- The unit step along an axis, for the remainders of multiples of 90 degrees. -/
def axisStep? (r : Rat) : Option (Point κ) :=
  if r = 0 then some (.ofInts 1 0)
  else if r = 90 ∨ r = -270 then some (.ofInts 0 1)
  else if r = 180 ∨ r = -180 then some (.ofInts (-1) 0)
  else if r = 270 ∨ r = -90 then some (.ofInts 0 (-1))
  else none

/-- The displacement by one unit along a heading: exactly along an axis for
    multiples of 90 degrees, and as `oblique` says for other headings. -/
def unitStep (oblique : η → Point κ) (h : η) : Point κ :=
  match (Heading.degrees? h).bind fun d => axisStep? (turnRemainder d) with
  | some step => step
  | none => oblique h

end

/-! ## Binary64 -/

/-- The smaller of two numbers; what is not a number loses to a number. -/
def minNumber (a b : Float) : Float := if a.isNaN ∨ b < a then b else a

/-- The greater of two numbers; what is not a number loses to a number. -/
def maxNumber (a b : Float) : Float := if a.isNaN ∨ a < b then b else a

instance : Heading Float where
  ofDecimal := Decimal.toFloat
  add := (· + ·)
  neg := (- ·)
  degrees? h := (Binary64.ofFloat h).toRat?

instance : Coordinate Float where
  ofInt := Float.ofInt
  add := (· + ·)
  abs := Float.abs
  lesser := minNumber
  greater := maxNumber

/-- The binary64 number nearest to one degree in radians. -/
def radiansPerDegree : Float := Float.ofBits 0x3f91df46a2529d39

/-- The step by cosine and sine. The heading is converted to radians as it is,
    without taking whole turns away first. -/
def obliqueStep (h : Float) : Point Float :=
  let radians := h * radiansPerDegree
  ⟨radians.cos, radians.sin⟩

/-- The unit step in binary64. -/
def floatStep : Float → Point Float := unitStep obliqueStep

end Lindenmayer

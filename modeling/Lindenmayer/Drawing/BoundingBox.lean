import Lindenmayer.Turtle.Plane

/-!
# Bounding boxes

The bounds of a set of points along the axes. A box starts as a single point and
is only ever widened, so its bounds are in order whenever its points are numbers.
-/

namespace Lindenmayer

/-- Bounds along the axes. -/
structure BoundingBox (κ : Type) where
  xMin : κ
  xMax : κ
  yMin : κ
  yMax : κ
  deriving DecidableEq, Repr

namespace BoundingBox

variable {κ : Type}

/-- The box of a single point. -/
def ofPoint (p : Point κ) : BoundingBox κ := ⟨p.x, p.x, p.y, p.y⟩

/-- The box widened to contain a point. -/
def widen [Coordinate κ] (b : BoundingBox κ) (p : Point κ) : BoundingBox κ where
  xMin := Coordinate.lesser b.xMin p.x
  xMax := Coordinate.greater b.xMax p.x
  yMin := Coordinate.lesser b.yMin p.y
  yMax := Coordinate.greater b.yMax p.y

/-- The smallest box around two boxes. -/
def union [Coordinate κ] (b c : BoundingBox κ) : BoundingBox κ where
  xMin := Coordinate.lesser b.xMin c.xMin
  xMax := Coordinate.greater b.xMax c.xMax
  yMin := Coordinate.lesser b.yMin c.yMin
  yMax := Coordinate.greater b.yMax c.yMax

/-! ## Measures in binary64 -/

def width (b : BoundingBox Float) : Float := b.xMax - b.xMin

def height (b : BoundingBox Float) : Float := b.yMax - b.yMin

/-- Whether a point lies in the box, its border included. -/
def contains (b : BoundingBox Float) (p : Point Float) : Bool :=
  b.xMin ≤ p.x ∧ p.x ≤ b.xMax ∧ b.yMin ≤ p.y ∧ p.y ≤ b.yMax

/-- How far to move the sides, left and right by the first and below and above by
    the second number, for a square around the middle of the box. -/
def squareOffsets (b : BoundingBox Float) : Float × Float :=
  let span := maxNumber b.width b.height
  (0.5 * (span - b.width), 0.5 * (span - b.height))

/-- The square around the box, with the same middle. -/
def squared (b : BoundingBox Float) : BoundingBox Float :=
  let (dx, dy) := b.squareOffsets
  ⟨b.xMin - dx, b.xMax + dx, b.yMin - dy, b.yMax + dy⟩

end BoundingBox

end Lindenmayer

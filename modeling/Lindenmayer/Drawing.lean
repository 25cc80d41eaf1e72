import Lindenmayer.Drawing.BoundingBox

/-!
# Drawings

A drawing is the trace of a walk: a list of primitives in the order in which the
turtle left them. Polygons are flat: their begin and end are marks in the list,
and the moves between the marks are the sides of the polygon.
-/

namespace Lindenmayer

/-- An entry of a drawing. -/
inductive Primitive (κ : Type)
  /-- A line drawn by a move. -/
  | segment (start stop : Point κ)
  /-- A move that draws no line. -/
  | travel (start stop : Point κ)
  /-- The return to a position saved before a branch. -/
  | restore (stop : Point κ)
  /-- The begin of a polygon at the position of the turtle. -/
  | polygonBegin (origin : Point κ)
  /-- The end of the polygon. -/
  | polygonEnd
  deriving DecidableEq, Repr

/-- Where a move ended; `none` for what is not a move. -/
def Primitive.moveEnd? {κ : Type} : Primitive κ → Option (Point κ)
  | .segment _ stop => some stop
  | .travel _ stop => some stop
  | .restore _ => none
  | .polygonBegin _ => none
  | .polygonEnd => none

/-- The trace of a walk from the point `(originX, 0)`, and its bounds. -/
structure Drawing (κ : Type) where
  primitives : List (Primitive κ)
  bbox : BoundingBox κ
  originX : κ
  deriving DecidableEq, Repr

namespace Drawing

variable {κ : Type}

/-- Collects, after `done` (the last one first), the segments outside polygons;
    `inside` says whether the list starts inside a polygon. -/
def segmentsInto (done : List (Point κ × Point κ)) (inside : Bool) :
    List (Primitive κ) → List (Point κ × Point κ)
  | [] => done.reverse
  | .segment start stop :: rest =>
    segmentsInto (if inside then done else (start, stop) :: done) inside rest
  | .polygonBegin _ :: rest => segmentsInto done true rest
  | .polygonEnd :: rest => segmentsInto done false rest
  | .travel _ _ :: rest => segmentsInto done inside rest
  | .restore _ :: rest => segmentsInto done inside rest

/-- The lines of a drawing that are not sides of a polygon. -/
def segments (d : Drawing κ) : List (Point κ × Point κ) := segmentsInto [] false d.primitives

/-- Whether a polygon begins here. -/
def beginsPolygon : Primitive κ → Bool
  | .polygonBegin _ => true
  | _ => false

/-- The number of polygons. -/
def polygonCount (d : Drawing κ) : Nat := d.primitives.countP beginsPolygon

/-- The bounds of the moves of a list of primitives and the point they start from. -/
def bounds [Coordinate κ] (start : Point κ) (primitives : List (Primitive κ)) :
    BoundingBox κ :=
  (primitives.filterMap Primitive.moveEnd?).foldl .widen (.ofPoint start)

end Drawing

end Lindenmayer

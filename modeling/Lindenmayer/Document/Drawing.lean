import Lindenmayer.Canvas
import Lindenmayer.Error
import Lindenmayer.Json.Decode
import Lindenmayer.Json.Parser
import Lindenmayer.Json.Printer

/-!
# Drawings and canvases in documents

A point is an array of two numbers. A primitive is an object with one member,
named for what the primitive is, that holds the record of its points; the end of a
polygon is a string. Numbers that are not finite are written as null, and null is
not read as a number.
-/

namespace Lindenmayer

namespace Point

def toJson (p : Point Float) : Json := .array [.ofFloat p.x, .ofFloat p.y]

def ofJson? (j : Json) : Option (Point Float) :=
  (j.asPair? Json.asFloat? Json.asFloat?).map fun (x, y) => ⟨x, y⟩

end Point

namespace Primitive

/-- The value of a move. -/
def moveToJson (start stop : Point Float) : Json :=
  .ofMembers [("from", start.toJson), ("to", stop.toJson)]

def toJson : Primitive Float → Json
  | .segment start stop => .ofMembers [("Segment", moveToJson start stop)]
  | .travel start stop => .ofMembers [("Travel", moveToJson start stop)]
  | .restore stop => .ofMembers [("Restore", .ofMembers [("to", stop.toJson)])]
  | .polygonBegin origin =>
    .ofMembers [("PolygonBegin", .ofMembers [("origin", origin.toJson)])]
  | .polygonEnd => .ofString "PolygonEnd"

/-- The two points of a move. -/
def moveOfJson? (j : Json) : Option (Point Float × Point Float) :=
  match j.record? ["from", "to"] with
  | some [start, stop] => do return (← Point.ofJson? start, ← Point.ofJson? stop)
  | _ => none

/-- The only point of a record. -/
def pointOfJson? (name : String) (j : Json) : Option (Point Float) :=
  match j.record? [name] with
  | some [p] => Point.ofJson? p
  | _ => none

/-- The primitive of a name, with the value that stands under it. -/
def ofMember? (name : String) (value : Json) : Option (Primitive Float) :=
  if name = "Segment" then (moveOfJson? value).map fun (start, stop) => .segment start stop
  else if name = "Travel" then (moveOfJson? value).map fun (start, stop) => .travel start stop
  else if name = "Restore" then (pointOfJson? "to" value).map .restore
  else if name = "PolygonBegin" then (pointOfJson? "origin" value).map .polygonBegin
  else if name = "PolygonEnd" then
    match value with
    | .null => some .polygonEnd
    | _ => none
  else none

def ofJson? : Json → Option (Primitive Float)
  | .object [(some name, value)] => ofMember? name value
  | .string (some name) => if name = "PolygonEnd" then some .polygonEnd else none
  | _ => none

end Primitive

namespace BoundingBox

def toJson (b : BoundingBox Float) : Json :=
  .ofMembers [("x_min", .ofFloat b.xMin), ("x_max", .ofFloat b.xMax),
    ("y_min", .ofFloat b.yMin), ("y_max", .ofFloat b.yMax)]

def ofJson? (j : Json) : Option (BoundingBox Float) :=
  match j.record? ["x_min", "x_max", "y_min", "y_max"] with
  | some [xMin, xMax, yMin, yMax] => do
    return ⟨← xMin.asFloat?, ← xMax.asFloat?, ← yMin.asFloat?, ← yMax.asFloat?⟩
  | _ => none

end BoundingBox

namespace Drawing

def toJson (d : Drawing Float) : Json :=
  .ofMembers [("primitives", .array (d.primitives.map Primitive.toJson)),
    ("bbox", d.bbox.toJson), ("origin_x", .ofFloat d.originX)]

def ofJson? (j : Json) : Option (Drawing Float) :=
  match j.record? ["primitives", "bbox", "origin_x"] with
  | some [primitives, bbox, originX] => do
    return ⟨← primitives.asList? Primitive.ofJson?, ← BoundingBox.ofJson? bbox,
      ← originX.asFloat?⟩
  | _ => none

/-- The text of a drawing. -/
def toDocument (d : Drawing Float) : String := d.toJson.render

/-- The drawing of a text. -/
def ofDocument (document : String) : Except Error (Drawing Float) :=
  match (Json.parse? document).bind ofJson? with
  | some d => .ok d
  | none => .error .document

end Drawing

namespace Subplot

def toJson (s : Subplot Float) : Json :=
  .ofMembers [("drawing", s.drawing.toJson), ("origin_x", .ofFloat s.originX),
    ("label", .ofString s.label)]

def ofJson? (j : Json) : Option (Subplot Float) :=
  match j.record? ["drawing", "origin_x", "label"] with
  | some [drawing, originX, label] => do
    return ⟨← Drawing.ofJson? drawing, ← originX.asFloat?, ← label.asString?⟩
  | _ => none

end Subplot

namespace Canvas

def toJson (c : Canvas Float) : Json :=
  .ofMembers [("subplots", .array (c.subplots.map Subplot.toJson)), ("bbox", c.bbox.toJson)]

def ofJson? (j : Json) : Option (Canvas Float) :=
  match j.record? ["subplots", "bbox"] with
  | some [subplots, bbox] => do
    return ⟨← subplots.asList? Subplot.ofJson?, ← BoundingBox.ofJson? bbox⟩
  | _ => none

/-- The text of a canvas. -/
def toDocument (c : Canvas Float) : String := c.toJson.render

/-- The canvas of a text. -/
def ofDocument (document : String) : Except Error (Canvas Float) :=
  match (Json.parse? document).bind ofJson? with
  | some c => .ok c
  | none => .error .document

end Canvas

end Lindenmayer

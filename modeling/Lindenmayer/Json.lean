import Lindenmayer.Json.Number

/-!
# Documents

The values of the document format, as trees. Members of objects keep their order,
and names may repeat; what a repetition means is up to the reader of the tree.

A string literal may contain escapes of surrogates. A high one and a low one
following each other denote a character; any other one denotes nothing, and then
the whole literal has no text. Such literals are part of the format, but no one
who expects a text accepts them.
-/

namespace Lindenmayer

/-- A value of a document. Names and strings are literals, and have no text if a
    surrogate stands alone in them. -/
inductive Json
  | null
  | bool (value : Bool)
  | number (value : Json.Number)
  | string (text : Option String)
  | array (items : List Json)
  | object (members : List (Option String × Json))

namespace Json

/-- The string value of a text. -/
def ofString (s : String) : Json := .string (some s)

/-- The string value of a list of characters. -/
def ofChars (cs : List Char) : Json := ofString (String.ofList cs)

/-- The value of an integer. -/
def ofInt (n : Int) : Json := .number (.ofInt n)

/-- The value of a binary64 number: a number if it is finite, null otherwise. -/
def ofFloat (x : Float) : Json :=
  match Number.ofFloat? x with
  | some n => .number n
  | none => .null

/-- The object with the given members. -/
def ofMembers (members : List (String × Json)) : Json :=
  .object (members.map fun (name, value) => (some name, value))

end Json

end Lindenmayer

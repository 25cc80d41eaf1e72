import Lindenmayer.Json

/-!
# Decoding documents

Turning the values of a document into values of the domain. A record is written
as an object with a member for each of its fields, in any order, or as an array of
the values of its fields in order. Members of other names are passed over, whatever
they hold, and may repeat; the name of a field may not.
-/

namespace Lindenmayer.Json

/-! ## Simple values -/

def asString? : Json → Option String
  | .string t => t
  | _ => none

def asChars? (j : Json) : Option (List Char) := j.asString?.map String.toList

def asInt64? : Json → Option Int64
  | .number n => n.toInt64?
  | _ => none

def asFloat? : Json → Option Float
  | .number n => n.toFloat?
  | _ => none

/-- The items of an array, decoded. -/
def asList? {α : Type} (decode : Json → Option α) : Json → Option (List α)
  | .array items => items.mapM decode
  | _ => none

/-- An array of exactly two items, decoded. -/
def asPair? {α β : Type} (left : Json → Option α) (right : Json → Option β) :
    Json → Option (α × β)
  | .array [a, b] => do return (← left a, ← right b)
  | _ => none

/-! ## Records -/

/-- The value of the only member with a name: `some none` if there is no such
    member, `none` if there are several. -/
def field? (members : List (Option String × Json)) (name : String) : Option (Option Json) :=
  match members.filter fun member => member.1 == some name with
  | [] => some none
  | [member] => some (some member.2)
  | _ => none

/-- The values of the fields of a record, in the order of their names. The last
    fields of an array may be missing, and any field of an object. -/
def fields? (names : List String) : Json → Option (List (Option Json))
  | .object members =>
    if members.all (·.1.isSome) then names.mapM (field? members) else none
  | .array items =>
    if items.length ≤ names.length then
      some (items.map some ++ List.replicate (names.length - items.length) none)
    else
      none
  | _ => none

/-- The values of the fields of a record of which none is missing. -/
def record? (names : List String) (j : Json) : Option (List Json) := do
  (← fields? names j).mapM id

/-! ## Readable values -/

/-- Whether all of a value can be made sense of: literals have a text, numbers are
    in range, and arrays and objects are nested at most `depth` deep. -/
def isReadable : Nat → Json → Bool
  | _, .null => true
  | _, .bool _ => true
  | _, .number n => n.toFloat?.isSome
  | _, .string t => t.isSome
  | 0, .array _ => false
  | 0, .object _ => false
  | depth + 1, .array items => items.all (isReadable depth)
  | depth + 1, .object members =>
    members.all fun member => member.1.isSome && isReadable depth member.2

end Lindenmayer.Json

import Lindenmayer.Configuration
import Lindenmayer.Document.RuleSet

/-!
# Configurations in documents

A configuration is a record of a name, an order, an angle, a word to start from,
and a rule set; a label may follow, and is not written if there is none. A
configuration that is read is also checked.
-/

namespace Lindenmayer.Configuration

/-- The member for a label. -/
def labelMember : Option String → List (String × Json)
  | none => []
  | some label => [("label", .ofString label)]

def toJson (c : Configuration) : Json :=
  .ofMembers ([("name", .ofString c.name), ("order", .ofInt c.order.toInt),
    ("angle", .ofFloat c.angle), ("axiom", .ofChars c.start), ("rules", c.rules.toJson)] ++
    labelMember c.label)

/-- The text of a configuration. -/
def toDocument (c : Configuration) : String := c.toJson.render

/-- A label: missing, null or a string. -/
def labelOfJson? : Option Json → Option (Option String)
  | none => some none
  | some .null => some none
  | some j => j.asString?.map some

def ofJson? (j : Json) : Option Configuration :=
  match j.fields? ["name", "order", "angle", "axiom", "rules", "label"] with
  | some [some name, some order, some angle, some start, some rules, label] => do
    return ⟨← name.asString?, ← order.asInt64?, ← angle.asFloat?, ← start.asChars?,
      ← RuleSet.ofJson? rules, ← labelOfJson? label⟩
  | _ => none

/-- The configuration of a text, if it is in order. -/
def ofDocument (document : String) : Except Error Configuration :=
  match (Json.parse? document).bind ofJson? with
  | none => .error .document
  | some c => c.validate.map fun () => c

end Lindenmayer.Configuration

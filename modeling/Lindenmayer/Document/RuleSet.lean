import Lindenmayer.Json.Decode
import Lindenmayer.Json.Parser
import Lindenmayer.Json.Printer
import Lindenmayer.Rules

/-!
# Rule sets in documents

A rule set is a record that begins with its kind: `literal` with a list of pairs
under `rules`, `weighted` with a list of replacements under `rules` and a list of
integers under `weights`, or `contextual` with an object under `rules`, whose
members are replacements by key. When it is read, the kind may stand anywhere
among the members.

The values inside a rule set are all looked at, also those of members that belong
to no field: each of them must be readable.
-/

namespace Lindenmayer

namespace RuleSet

/-! ## Writing -/

def pairToJson (rule : Word × Word) : Json := .array [.ofChars rule.1, .ofChars rule.2]

def entryToJson (entry : Word × Word) : Option String × Json :=
  (some (String.ofList entry.1), .ofChars entry.2)

/-- The value of a rule set. -/
def toJson : RuleSet → Json
  | .literal rules =>
    .ofMembers [("kind", .ofString "literal"), ("rules", .array (rules.map pairToJson))]
  | .weighted rules weights =>
    .ofMembers [("kind", .ofString "weighted"), ("rules", .array (rules.map .ofChars)),
      ("weights", .array (weights.map fun w => .ofInt w.toInt))]
  | .contextual rules =>
    .ofMembers [("kind", .ofString "contextual"),
      ("rules", .object (rules.entries.map entryToJson))]

/-- The text of a rule set. -/
def toDocument (rules : RuleSet) : String := rules.toJson.render

/-! ## Reading -/

/-- The replacements by key of an object; the last one under a key counts. -/
def asContextRules? : Json → Option ContextRules
  | .object members => do
    let entries ← members.mapM fun (name, value) => do
      return ((← name).toList, ← value.asChars?)
    return .ofList entries
  | _ => none

/-- The rule set of a kind, with its other fields. -/
def ofFields? (kind : String) (fields : Json) : Option RuleSet :=
  if kind = "literal" then
    match fields.record? ["rules"] with
    | some [rules] =>
      (rules.asList? (Json.asPair? Json.asChars? Json.asChars?)).map .literal
    | _ => none
  else if kind = "weighted" then
    match fields.record? ["rules", "weights"] with
    | some [rules, weights] => do
      return .weighted (← rules.asList? Json.asChars?) (← weights.asList? Json.asInt64?)
    | _ => none
  else if kind = "contextual" then
    match fields.record? ["rules"] with
    | some [rules] => (asContextRules? rules).map .contextual
    | _ => none
  else
    none

/-- Splits the kind of a rule set from its other fields. -/
def kindAndFields? : Json → Option (Json × Json)
  | .object members =>
    match Json.field? members "kind" with
    | some (some kind) =>
      some (kind, .object (members.filter fun member => !(member.1 == some "kind")))
    | _ => none
  | .array (kind :: items) => some (kind, .array items)
  | _ => none

/-- How deep arrays and objects may be nested in a document. -/
def nestingLimit : Nat := 127

/-- The rule set of a value in which arrays and objects may be nested at most `depth`
    deep. -/
def ofJsonWithin? (depth : Nat) (j : Json) : Option RuleSet := do
  guard (j.isReadable depth)
  let (kind, fields) ← kindAndFields? j
  ofFields? (← kind.asString?) fields

/-- The rule set of a value that stands inside the record of a document, and so one
    level below the document itself. -/
def ofJson? (j : Json) : Option RuleSet := ofJsonWithin? (nestingLimit - 1) j

/-- The rule set of a text. -/
def ofDocument (document : String) : Except Error RuleSet :=
  match (Json.parse? document).bind (ofJsonWithin? nestingLimit) with
  | none => .error .document
  | some rules => .ok rules

end RuleSet

end Lindenmayer

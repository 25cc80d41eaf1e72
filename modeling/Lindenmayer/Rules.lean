import Lindenmayer.Rules.Contextual

/-!
# Rule sets

The productions of a system, of one of three kinds:

* *literal* rules replace words by words, whatever stands around them; they are
  tried in the order of their declaration;
* *weighted* rules are candidate replacements for the symbol `F`, one of which is
  chosen at random each time, in proportion to its weight;
* *contextual* rules replace the variables `0` and `1` depending on their
  neighbours.

A rule set may be ill-formed, as documents are; `RuleSet.validate` says so.
-/

namespace Lindenmayer

/-- The symbol that weighted rules rewrite. -/
def weightedPredecessor : Char := 'F'

/-- The productions of a system. -/
inductive RuleSet
  /-- Keys with their replacements, in order of declaration. -/
  | literal (rules : List (Word × Word))
  /-- Replacements, and the weights they are chosen by. Weights without a rule
      are ignored. -/
  | weighted (rules : List Word) (weights : List Int64)
  /-- Replacements by context. -/
  | contextual (rules : ContextRules)
  deriving DecidableEq

namespace RuleSet

/-- Literal rules have keys that are not empty: an empty key would match
    everywhere without consuming a symbol. -/
def validateLiteral (rules : List (Word × Word)) : Except Error Unit :=
  if rules.any (·.1.isEmpty) then .error (.configuration .emptyKey) else .ok ()

/-- Reads off weights, of which those before add up to `total`: each is positive,
    and the sum fits in 64 bits. -/
def takeWeights (total : Nat) : List Int64 → Except Error (List Nat)
  | [] => .ok []
  | w :: ws =>
    if w.toInt ≤ 0 then
      .error (.configuration .weightNotPositive)
    else
      let total := total + w.toInt.toNat
      if UInt64.size ≤ total then
        .error (.configuration .weightsOverflow)
      else
        (takeWeights total ws).map (w.toInt.toNat :: ·)

/-- The weights of the rules, in order. -/
def activeWeights (rules : List Word) (weights : List Int64) : Except Error (List Nat) :=
  if rules.isEmpty then
    .error (.configuration .noRules)
  else if weights.isEmpty then
    .error (.configuration .noWeights)
  else if weights.length < rules.length then
    .error (.configuration .tooFewWeights)
  else
    takeWeights 0 (weights.take rules.length)

/-- Checks a rule set without deriving anything. -/
def validate : RuleSet → Except Error Unit
  | .literal rules => validateLiteral rules
  | .weighted rules weights => (activeWeights rules weights).map fun _ => ()
  | .contextual rules => rules.compile.map fun _ => ()

end RuleSet

end Lindenmayer

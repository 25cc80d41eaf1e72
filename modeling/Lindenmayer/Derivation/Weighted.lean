import Lindenmayer.Random.Choice
import Lindenmayer.Rules

/-!
# Weighted rewriting

Every `F` of a word is replaced by one of the candidate replacements, chosen by
weight; all other symbols stay. A choice costs at least one draw, also when there
is a single candidate, and the generator is handed on from symbol to symbol and
from word to word.
-/

namespace Lindenmayer.Weighted

/-- What choices are made with: the weights of the rules, and the generator that the
    draws come from. -/
structure Chooser where
  weights : List Nat
  generator : Generator

/-- The chooser of rules with weights, whose generator starts from a seed. -/
def chooser (rules : List Word) (weights : List Int64) (seed : Seed) :
    Except Error Chooser := do
  let active ← RuleSet.activeWeights rules weights
  match Choice.unusableWeights? active with
  | some weights => .error (.configuration (.weightsNotUsable weights))
  | none => .ok ⟨active, .ofSeed seed⟩

/-- The successor of a symbol. -/
def successor (rules : List Word) (weights : List Nat) (c : Char) : StateM Generator Word :=
  if c = weightedPredecessor then do
    let i ← (Choice.sample weights : StateM Generator Nat)
    return rules[i]?.getD []
  else
    return [c]

/-- The successor of a word. -/
def rewrite (rules : List Word) (weights : List Nat) (w : Word) : StateM Generator Word := do
  return (← w.mapM (successor rules weights)).flatten

end Lindenmayer.Weighted

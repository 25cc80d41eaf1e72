import Lindenmayer.Error
import Lindenmayer.Random.Generator

/-!
# Weighted choice

An index is chosen with a probability proportional to its weight, and exactly
so: a 64-bit draw `v` is multiplied by the total weight `W`, the high half of the
product is a number below `W`, and draws whose low half falls outside a zone are
rejected and drawn again, which leaves the same number of accepted draws for
each value of the high half.
-/

namespace Lindenmayer.Choice

/-- The index whose share of the total weight holds `n`: the shares follow each
    other in order, each as long as its weight. -/
def pick : List Nat → Nat → Nat
  | [], _ => 0
  | w :: ws, n => if n < w then 0 else pick ws (n - w) + 1

/-- The sum of the weights. -/
def totalWeight (weights : List Nat) : Nat := weights.foldr (· + ·) 0

/-- Why no choice can be made by weights, if none can. -/
def unusableWeights? (weights : List Nat) : Option UnusableWeights :=
  if weights.isEmpty then some .absent
  else if totalWeight weights = 0 then some .allZero
  else none

/-- How many of the products' low halves are rejected, so that what remains is a
    multiple of the total weight. -/
def rejected (total : Nat) : Nat := (UInt64.size - total) % total

/-- The greatest low half that is accepted. -/
def zone (total : Nat) : Nat := UInt64.size - 1 - rejected total

/-- The index that a draw chooses, or `none` if the draw is rejected. -/
def choose? (weights : List Nat) (draw : UInt64) : Option Nat :=
  let total := totalWeight weights
  let product := draw.toNat * total
  if product % UInt64.size ≤ zone total then
    some (pick weights (product / UInt64.size))
  else
    none

/-- Draws until a draw is accepted, at most `fuel` times. The first index is
    chosen when all of these draws are rejected. -/
def sampleWithin (weights : List Nat) : Nat → Generator → Nat × Generator
  | 0, g => (0, g)
  | fuel + 1, g =>
    match choose? weights g.word with
    | some i => (i, g.advance)
    | none => sampleWithin weights fuel g.advance

/-- Draws until a draw is accepted. A stream of which one whole period is
    rejected has no draw that could be accepted, so the search ends there. -/
def sample (weights : List Nat) (g : Generator) : Nat × Generator :=
  sampleWithin weights Generator.period g

end Lindenmayer.Choice

import Lindenmayer.Rules

/-!
# Contextual rewriting

The alphabet of contextual systems is `0 1 F + - $ [ ]`. A variable is rewritten
depending on its neighbours in the branching structure that the brackets
describe, not in the word:

* the neighbour to the left is found by going back, over closed branches as a
  whole and out of the branch the variable stands in;
* the neighbour to the right is found by going forward, over closed branches as a
  whole, up to the end of the branch the variable stands in.

In each sweep the turns change sides, so that a plant does not lean to one side.
-/

namespace Lindenmayer.Contextual

/-- The symbols without a meaning for contexts, brackets apart. -/
def isIgnored (c : Char) : Bool := c = 'F' ∨ c = '+' ∨ c = '-' ∨ c = '$'

/-! ## Neighbours

The scans read symbols with their positions. While `depth` is positive they are
inside a branch that is passed over as a whole. -/

/-- Scans backwards, the nearest symbol first. The branch being passed over was
    closed at position `close`. -/
def leftScan : Nat → Nat → List (Char × Nat) → Except Error (Option Char)
  | 0, _, [] => .ok none
  | _ + 1, close, [] => .error (.stackUnderflow close)
  | 0, close, (c, i) :: before =>
    if c = ']' then leftScan 1 i before
    else if isBinary c then .ok (some c)
    else if isIgnored c ∨ c = '[' then leftScan 0 close before
    else .error (.unsupportedSymbol c i)
  | depth + 1, close, (c, _) :: before =>
    if c = '[' then leftScan depth close before
    else if c = ']' then leftScan (depth + 2) close before
    else leftScan (depth + 1) close before

/-- Scans forwards, the nearest symbol first. -/
def rightScan : Nat → List (Char × Nat) → Except Error (Option Char)
  | _, [] => .ok none
  | 0, (c, i) :: after =>
    if c = ']' then .ok none
    else if c = '[' then rightScan 1 after
    else if isBinary c then .ok (some c)
    else if isIgnored c then rightScan 0 after
    else .error (.unsupportedSymbol c i)
  | depth + 1, (c, _) :: after =>
    if c = ']' then rightScan depth after
    else if c = '[' then rightScan (depth + 2) after
    else rightScan (depth + 1) after

/-- The variable to the left of a position. -/
def leftContext (w : Word) (position : Nat) : Except Error (Option Char) :=
  leftScan 0 0 (w.zipIdx.take position).reverse

/-- The variable to the right of a position. -/
def rightContext (w : Word) (position : Nat) : Except Error (Option Char) :=
  rightScan 0 (w.zipIdx.drop (position + 1))

/-! ## Rewriting -/

/-- The successor of the symbol `c` at position `i`, between what stands before it
    (the nearest symbol first) and after it. -/
def successor (table : ContextTable) (before : List (Char × Nat)) (c : Char) (i : Nat)
    (after : List (Char × Nat)) : Except Error Word :=
  if c = '+' then .ok ['-']
  else if c = '-' then .ok ['+']
  else if c = 'F' ∨ c = '[' ∨ c = ']' ∨ c = '$' then .ok [c]
  else if isBinary c then do
    let left ← leftScan 0 0 before
    let right ← rightScan 0 after
    return (table.get? left c right).getD [c]
  else .error (.unsupportedSymbol c i)

/-- Continues a sweep that has written `done` (the last symbol first) between the
    symbols before and after it. -/
def rewriteInto (table : ContextTable) :
    Word → List (Char × Nat) → List (Char × Nat) → Except Error Word
  | done, _, [] => .ok done.reverse
  | done, before, (c, i) :: after =>
    match successor table before c i after with
    | .error e => .error e
    | .ok out => rewriteInto table (out.reverse ++ done) ((c, i) :: before) after

/-- The successor of a word. -/
def rewrite (table : ContextTable) (w : Word) : Except Error Word :=
  rewriteInto table [] [] w.zipIdx

end Lindenmayer.Contextual

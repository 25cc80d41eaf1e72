import Lindenmayer.Derivation.Contextual
import Lindenmayer.Derivation.Literal
import Lindenmayer.Derivation.Weighted

/-!
# Derivations

A derivation starts from a word and replaces it, generation by generation, by its
successor under a rule set. The three kinds of rules share one loop,
`Derivation.generations`, which carries the state of the rules along: a random
generator for weighted rules, nothing for the others.

A derivation may be cut short: a deadline that has passed stops it before the
next generation, and a limit on the size of words after a generation that
exceeds it. Neither changes what a derivation yields that is not stopped. The
clock is read anew before each generation, so what it shows is part of how a
derivation is run (`Expiry`), like the key of a generator without a seed.
-/

namespace Lindenmayer

namespace Derivation

/-- Whether the deadline of a derivation has passed, as the clock shows it before each
    generation. -/
structure Expiry where
  /-- Whether it has passed before the generation of a number. -/
  before : Nat → Bool

/-- A deadline that had passed before the derivation started, or none. -/
instance : Coe Bool Expiry := ⟨fun passed => ⟨fun _ => passed⟩⟩

/-- How a derivation is run. -/
structure Options where
  /-- What the random generator starts from. -/
  seed : Seed := default
  /-- The greatest number of bytes a generation may take. -/
  limit : Option Nat := none
  /-- Whether the deadline has passed. -/
  expired : Expiry := false

/-- Stops a derivation whose generation takes more bytes than it may. -/
def checkGrowth (options : Options) (generation : Nat) (w : Word) : Except Error Unit :=
  match options.limit with
  | none => .ok ()
  | some limit =>
    if limit < w.byteLength then
      .error (.aborted generation (.growth w.byteLength limit))
    else
      .ok ()

/-- One generation: the deadline, the successor, the limit. -/
def generation {σ : Type} (rewrite : Word → σ → Except Error (Word × σ)) (options : Options)
    (number : Nat) (w : Word) (state : σ) : Except Error (Word × σ) :=
  if options.expired.before number then
    .error (.aborted number .deadline)
  else
    match rewrite w state with
    | .error e => .error e
    | .ok (next, state) =>
      match checkGrowth options number next with
      | .error e => .error e
      | .ok () => .ok (next, state)

/-- Derives `count` generations, of which the first has number `number`. -/
def generations {σ : Type} (rewrite : Word → σ → Except Error (Word × σ)) (options : Options) :
    Nat → Nat → Word → σ → Except Error (Word × σ)
  | 0, _, w, state => .ok (w, state)
  | count + 1, number, w, state =>
    match generation rewrite options number w state with
    | .error e => .error e
    | .ok (next, state) => generations rewrite options count (number + 1) next state

/-- Literal rewriting as a step of a derivation. -/
def literalStep (rules : List (Word × Word)) (w : Word) (_ : Unit) :
    Except Error (Word × Unit) :=
  .ok (Literal.rewrite rules w, ())

/-- Weighted rewriting as a step of a derivation. -/
def weightedStep (rules : List Word) (weights : List Nat) (w : Word) (g : Generator) :
    Except Error (Word × Generator) :=
  .ok ((Weighted.rewrite rules weights w).run g)

/-- Contextual rewriting as a step of a derivation. -/
def contextualStep (table : ContextTable) (w : Word) (_ : Unit) : Except Error (Word × Unit) :=
  (Contextual.rewrite table w).map fun next => (next, ())

end Derivation

/-- The word after `order` generations from `start`. The start must not be empty
    and the rules must be valid, also for order zero, which yields the start. -/
def derive (order : Nat) (start : Word) (rules : RuleSet)
    (options : Derivation.Options := {}) : Except Error Word :=
  if start.isEmpty then
    .error (.configuration .emptyStart)
  else
    match rules with
    | .literal rules => do
      RuleSet.validateLiteral rules
      let (w, _) ← Derivation.generations (Derivation.literalStep rules) options order 1 start ()
      return w
    | .weighted rules weights => do
      let chooser ← Weighted.chooser rules weights options.seed
      let (w, _) ← Derivation.generations (Derivation.weightedStep rules chooser.weights) options
        order 1 start chooser.generator
      return w
    | .contextual rules => do
      let table ← rules.compile
      let (w, _) ← Derivation.generations (Derivation.contextualStep table) options order 1
        start ()
      return w

end Lindenmayer

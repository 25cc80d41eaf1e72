import Lindenmayer.Canvas.Layout
import Lindenmayer.Derivation

/-!
# Configurations

Everything needed to derive and draw one Lindenmayer system, under a name. A
configuration may be ill-formed, as documents are: it is checked before anything
is derived from it.
-/

namespace Lindenmayer

/-- A Lindenmayer system with the order and the angle it is drawn with. -/
structure Configuration where
  name : String
  /-- The number of generations. -/
  order : Int64
  /-- The production angle, in degrees. -/
  angle : Float
  /-- The word that the derivation starts from. -/
  start : Word
  rules : RuleSet
  /-- The caption of the drawing on a canvas. -/
  label : Option String := none
  deriving DecidableEq

/-- Why an angle is of no use, if it is not. -/
def unusableAngle? (angle : Float) : Option UnusableAngle :=
  match Binary64.ofFloat angle with
  | .notANumber => some .notANumber
  | .infinite negative => some (.infinite negative)
  | .finite negative significand _ => if significand = 0 then some (.zero negative) else none

namespace Configuration

/-- The greatest order, which fills 32 bits. -/
def greatestOrder : Int := 4294967295

/-- The number of generations, if the order is one. -/
def generations (c : Configuration) : Except Error Nat :=
  let order := c.order.toInt
  if order < 0 then .error (.configuration .negativeOrder)
  else if greatestOrder < order then .error (.configuration (.orderTooLarge order))
  else .ok order.toNat

/-- Checks a configuration: its order, its start, its angle, its rules. -/
def validate (c : Configuration) : Except Error Unit := do
  let _ ← c.generations
  if c.start.isEmpty then
    .error (.configuration .emptyStart)
  else
    match unusableAngle? c.angle with
    | some angle => .error (.configuration (.angleNotUsable angle))
    | none => c.rules.validate

/-- The name with the order in parentheses. -/
def title (c : Configuration) : String := c.name ++ "(" ++ toString c.order.toInt ++ ")"

/-- The word that the system derives. -/
def derive (c : Configuration) (options : Derivation.Options := {}) : Except Error Word := do
  c.validate
  Lindenmayer.derive (← c.generations) c.start c.rules options

/-- The drawing of that word, starting at the origin. -/
def draw (c : Configuration) (options : Derivation.Options := {}) :
    Except Error (Drawing Float) := do
  compile floatStep (← c.derive options) 0 c.angle

/-- That word, ready to be placed on a canvas. -/
def subplot (c : Configuration) (options : Derivation.Options := {}) :
    Except Error (SubplotInput Float) := do
  return ⟨← c.derive options, c.angle, c.label.getD ""⟩

end Configuration

end Lindenmayer

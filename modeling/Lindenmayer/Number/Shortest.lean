import Lindenmayer.Number.Binary64
import Lindenmayer.Number.Decimal

/-!
# Shortest decimal digits

The digits written for a binary64 number are the fewest that read back as that
number, and of those with the fewest digits the ones nearest to it; an exact tie
goes to the even last digit.

A grid of decimals with a given count of digits has two points around the
number, below and above. If any point of the grid reads back, one of these two
does, so it is enough to try them, for one digit, two digits and so on;
seventeen digits always suffice.
-/

namespace Lindenmayer

/-- The decimal number `0.d₁d₂… * 10 ^ point`, given by its digits. -/
structure Scientific where
  digits : List Digit
  point : Int
  deriving DecidableEq, Repr

namespace Shortest

/-- The place of the decimal point of `num / den`: the least `k` for which the
    quotient is below `10 ^ k`, for a positive quotient that is no power of ten
    below one. -/
def pointOf (num den : Nat) : Int :=
  if den ≤ num then
    ((Nat.toDigits 10 (num / den)).length : Int)
  else
    1 - ((Nat.toDigits 10 (den / num)).length : Int)

/-- The value `num / den` in units of `10 ^ (point - count)`, as a quotient. -/
def onGrid (num den : Nat) (point : Int) (count : Nat) : Nat × Nat :=
  let shift := (count : Int) - point
  if 0 ≤ shift then (num * Nat.pow 10 shift.toNat, den)
  else (num, den * Nat.pow 10 (-shift).toNat)

/-- The binary64 number nearest to `digits * 10 ^ exponent`. -/
def readBack (digits : Nat) (exponent : Int) : Float :=
  Float.ofScientific digits (decide (exponent < 0)) exponent.natAbs

/-- Of the two points of the grid of `count` digits around `num / den`, the
    nearest that reads back as `x`. -/
def candidate? (x : Float) (num den : Nat) (point : Int) (count : Nat) : Option Nat :=
  let (scaled, unit) := onGrid num den point count
  let below := scaled / unit
  let twice := 2 * (scaled % unit)
  let nearest := if twice < unit ∨ (twice = unit ∧ below % 2 = 0) then below else below + 1
  let other := if nearest = below then below + 1 else below
  let reads := fun (digits : Nat) => readBack digits (point - count) == x
  if reads nearest then some nearest else if reads other then some other else none

/-- The first grid, from `count` digits on, with a point that reads back; the grid
    of seventeen digits when none of the `fuel` grids tried has one. -/
def search (x : Float) (num den : Nat) (point : Int) : Nat → Nat → Nat × Nat
  | 0, _ =>
    let (scaled, unit) := onGrid num den point 17
    (scaled / unit, 17)
  | fuel + 1, count =>
    match candidate? x num den point count with
    | some digits => (digits, count)
    | none => search x num den point fuel (count + 1)

/-- The digits of `n` without the zeros at their end. -/
def trimmed (n : Nat) : List Digit :=
  ((digitsOfNat n).reverse.dropWhile (· == .zero)).reverse

/-- The shortest digits of the positive number `significand * 2 ^ exponent`,
    whose binary64 number is `x`. -/
def ofParts (x : Float) (significand : Nat) (exponent : Int) : Scientific :=
  let num := significand * Nat.pow 2 exponent.toNat
  let den := Nat.pow 2 (-exponent).toNat
  let point := pointOf num den
  let (digits, count) := search x num den point 17 1
  -- A point of the grid that is a power of ten has one digit more.
  ⟨trimmed digits, point + ((digitsOfNat digits).length - count : Int)⟩

end Shortest

end Lindenmayer

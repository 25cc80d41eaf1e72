/-!
# Binary64 numbers taken apart

A binary64 number is not a number, infinite, or a sign with a natural
significand times a power of two. The last form is exact, so what is said about
a finite number in terms of its significand and exponent involves no rounding.
-/

namespace Lindenmayer

/-- The meaning of a binary64 bit pattern. -/
inductive Binary64
  | notANumber
  | infinite (negative : Bool)
  /-- The number `± significand * 2 ^ exponent`. -/
  | finite (negative : Bool) (significand : Nat) (exponent : Int)
  deriving DecidableEq, Repr

namespace Binary64

/-- The number of fractions, which take 52 bits. -/
def fractionCount : Nat := 4503599627370496

/-- The number of biased exponents, which take 11 bits. -/
def exponentCount : Nat := 2048

/-- Splits the bits into a sign, a biased exponent of 11 bits and a fraction of
    52 bits. The least biased exponent holds zero and the subnormal numbers, the
    greatest one the infinities and what is not a number. -/
def ofFloat (x : Float) : Binary64 :=
  let bits : Nat := x.toBits.toNat
  let negative := bits / (exponentCount * fractionCount) % 2 == 1
  let biased : Nat := bits / fractionCount % exponentCount
  let fraction := bits % fractionCount
  if biased = 2047 then
    if fraction = 0 then .infinite negative else .notANumber
  else if biased = 0 then
    .finite negative fraction (-1074)
  else
    .finite negative (fractionCount + fraction) ((biased : Int) - 1075)

/-- The exact value of a finite number. -/
def toRat? : Binary64 → Option Rat
  | .notANumber => none
  | .infinite _ => none
  | .finite negative significand exponent =>
    let signed : Int := if negative then -(significand : Int) else significand
    if 0 ≤ exponent then
      some ((signed * (Nat.pow 2 exponent.toNat : Nat) : Int) : Rat)
    else
      some (mkRat signed (Nat.pow 2 (-exponent).toNat))

end Binary64

end Lindenmayer

import Lindenmayer.Number.Binary64
import Lindenmayer.Number.Decimal

/-!
# Six decimal places

The plots print every number with six decimal places. The exact binary value is
rounded once; a value halfway between two neighbours goes to the even one. The
sign of zero and of what rounds to zero is kept, and no exponent is ever written.
-/

namespace Lindenmayer

/-- The integer nearest to `num / den`; halfway cases go to the even integer. -/
def roundHalfEven (num den : Nat) : Nat :=
  let quotient := num / den
  let twice := 2 * (num % den)
  if twice < den ∨ (twice = den ∧ quotient % 2 = 0) then quotient else quotient + 1

/-- The `count` last decimal digits of `n`, the most significant first. -/
def lastDigits : Nat → Nat → List Char
  | 0, _ => []
  | count + 1, n => lastDigits count (n / 10) ++ [digitChar (.last n)]

/-- The number of millionths in one. -/
def million : Nat := 1000000

/-- The digits of a number of millionths, with a point before the last six. -/
def millionthsText (n : Nat) : List Char :=
  Nat.toDigits 10 (n / million) ++ '.' :: lastDigits 6 n

/-- The number of millionths nearest to `significand * 2 ^ exponent`. -/
def millionths (significand : Nat) (exponent : Int) : Nat :=
  if 0 ≤ exponent then
    significand * Nat.pow 2 exponent.toNat * million
  else
    roundHalfEven (significand * million) (Nat.pow 2 (-exponent).toNat)

/-- The text of a number with six decimal places. -/
def fixedText : Binary64 → List Char
  | .notANumber => ['N', 'a', 'N']
  | .infinite negative => if negative then ['-', 'i', 'n', 'f'] else ['i', 'n', 'f']
  | .finite negative significand exponent =>
    (if negative then ['-'] else []) ++ millionthsText (millionths significand exponent)

/-- A number printed with six decimal places. -/
def fixed (x : Float) : String := String.ofList (fixedText (Binary64.ofFloat x))

end Lindenmayer

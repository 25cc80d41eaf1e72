/-!
# Decimal numbers

A decimal number as it is written: a sign, digits, and how many of the digits
stand after the point. Reading keeps the number exact; it is rounded once, to
the nearest binary64 number, by `Decimal.toFloat`.
-/

namespace Lindenmayer

/-- A decimal digit. -/
abbrev Digit := Fin 10

def Digit.zero : Digit := 0

/-- The last digit of a natural number. -/
def Digit.last (n : Nat) : Digit := Fin.ofNat 10 n

/-- The value of a decimal digit, or `none` for any other character. -/
def digit? (c : Char) : Option Digit :=
  if c.isDigit then some (.last (c.toNat - '0'.toNat)) else none

/-- The character of a decimal digit. -/
def digitChar (d : Digit) : Char := Char.ofNat ('0'.toNat + d.val)

/-- The natural number that a sequence of digits stands for. -/
def natOfDigits (ds : List Digit) : Nat := ds.foldl (fun n d => 10 * n + d.val) 0

/-- The digits of a natural number; zero has one digit. -/
def digitsOfNat (n : Nat) : List Digit := (Nat.toDigits 10 n).filterMap digit?

/-- The decimal number `± digits / 10 ^ places`. -/
structure Decimal where
  negative : Bool
  digits : Nat
  places : Nat
  deriving DecidableEq, Repr

namespace Decimal

/-- The decimal number of a natural number. -/
def ofNat (n : Nat) : Decimal := ⟨false, n, 0⟩

/-- The digits of `± whole.fraction` as one decimal number. -/
def ofParts (negative : Bool) (whole fraction : List Digit) : Decimal :=
  ⟨negative, natOfDigits (whole ++ fraction), fraction.length⟩

/-- Reads digits with at most one point among them. There is at least one digit,
    before or after the point. -/
def unsigned? (negative : Bool) (w : List Char) : Option Decimal :=
  let whole := w.takeWhile Char.isDigit
  match w.dropWhile Char.isDigit with
  | [] => if whole.isEmpty then none else some (ofParts negative (whole.filterMap digit?) [])
  | c :: fraction =>
    if c = '.' ∧ fraction.all Char.isDigit ∧ ¬ (whole.isEmpty ∧ fraction.isEmpty) then
      some (ofParts negative (whole.filterMap digit?) (fraction.filterMap digit?))
    else
      none

/-- Reads a decimal number: one optional sign, then digits with at most one
    point among them. -/
def read? : List Char → Option Decimal
  | '+' :: w => unsigned? false w
  | '-' :: w => unsigned? true w
  | w => unsigned? false w

/-- The binary64 number nearest to a decimal number; halfway cases go to the even
    significand, and what is too large becomes infinite. -/
def toFloat (d : Decimal) : Float :=
  let magnitude := Float.ofScientific d.digits true d.places
  if d.negative then -magnitude else magnitude

/-- The exact value of a decimal number. -/
def toRat (d : Decimal) : Rat :=
  let magnitude := mkRat d.digits (Nat.pow 10 d.places)
  if d.negative then -magnitude else magnitude

end Decimal

end Lindenmayer

import Lindenmayer.Number.Shortest

/-!
# Numbers in documents

A number in a document is kept as it is written, as digits (`Json.Number`), and
only turned into a value by whoever expects a number there.

* An integer has neither a fraction nor an exponent and is not `-0`.
* A binary64 number is written with its shortest digits: in positional notation
  from `1e-5` up to below `1e16`, with an exponent otherwise.
* It is read digit by digit into a 64-bit significand and scaled by one rounded
  multiplication or division by a power of ten (`Number.toFloat?`). Digits that
  no longer fit are dropped. The nearest binary64 number is hit when significand
  and power are exact in binary64, and otherwise may be missed by a little.
-/

namespace Lindenmayer.Json

/-- A number as it is written. -/
structure Number where
  negative : Bool
  /-- The digits before the point; at least one. -/
  whole : List Digit
  /-- The digits after the point; no point is written if there are none. -/
  fraction : List Digit := []
  exponent : Option Int := none
  deriving DecidableEq, Repr

namespace Number

/-! ## Integers -/

/-- The number of an integer. -/
def ofInt (n : Int) : Number := ⟨decide (n < 0), digitsOfNat n.natAbs, [], none⟩

/-- The number of integers below zero that fit in 64 bits with a sign. -/
def int64Half : Nat := 9223372036854775808

/-- The integer that a number is written as, if it fits in 64 bits with a sign.
    There is no integer `-0`. -/
def toInt64? (n : Number) : Option Int64 :=
  if n.fraction.isEmpty ∧ n.exponent.isNone then
    let magnitude := natOfDigits n.whole
    if n.negative then
      if magnitude = 0 ∨ int64Half < magnitude then none else some (Int64.ofInt (-magnitude))
    else if int64Half ≤ magnitude then none
    else some (Int64.ofInt magnitude)
  else
    none

/-! ## Writing binary64 numbers -/

/-- Whether `0.d₁d₂… * 10 ^ point` is written without an exponent. -/
def isPositional (point : Int) : Bool := -4 ≤ point ∧ point ≤ 16

/-- The digits of a decimal number in positional or in scientific notation. -/
def ofScientific (negative : Bool) (s : Scientific) : Number :=
  if isPositional s.point then
    if s.point ≤ 0 then
      ⟨negative, [.zero], List.replicate (-s.point).toNat .zero ++ s.digits, none⟩
    else
      let count := s.point.toNat
      let padded := s.digits ++ List.replicate (count - s.digits.length) .zero
      let fraction := padded.drop count
      ⟨negative, padded.take count, if fraction.isEmpty then [.zero] else fraction, none⟩
  else
    ⟨negative, s.digits.take 1, s.digits.drop 1, some (s.point - 1)⟩

/-- The number written for a binary64 number; `none` unless it is finite. -/
def ofFloat? (x : Float) : Option Number :=
  match Binary64.ofFloat x with
  | .notANumber => none
  | .infinite _ => none
  | .finite negative significand exponent =>
    if significand = 0 then
      some ⟨negative, [.zero], [.zero], none⟩
    else
      some (ofScientific negative (Shortest.ofParts x.abs significand exponent))

/-! ## Reading binary64 numbers -/

/-- Appends digits before the point to a significand. From the first digit on that
    no longer fits, digits only count as powers of ten; their number is returned. -/
def gatherWhole (significand : Nat) : List Digit → Nat × Nat
  | [] => (significand, 0)
  | d :: ds =>
    let next := significand * 10 + d.val
    if UInt64.size ≤ next then (significand, ds.length + 1) else gatherWhole next ds

/-- Appends digits after the point to a significand and counts them. From the first
    digit on that no longer fits, digits are dropped. -/
def gatherFraction (significand count : Nat) : List Digit → Nat × Nat
  | [] => (significand, count)
  | d :: ds =>
    let next := significand * 10 + d.val
    if UInt64.size ≤ next then (significand, count) else gatherFraction next (count + 1) ds

/-- A power of ten in binary64. -/
def powerOfTen (e : Nat) : Float := Float.ofScientific 1 false e

/-- The greatest exponent of a power of ten in binary64. -/
def greatestPower : Nat := 308

/-- The number `x / 10 ^ e`, dividing by the greatest power of ten as often as
    needed. -/
def scaleDown (x : Float) (e : Nat) : Float :=
  if e ≤ greatestPower then x / powerOfTen e
  else if x == 0 then x
  else scaleDown (x / powerOfTen greatestPower) (e - greatestPower)
termination_by e
decreasing_by simp only [greatestPower] at *; omega

/-- The number `x * 10 ^ e`; `none` if it is too large. -/
def scaleUp? (x : Float) (e : Nat) : Option Float :=
  if e ≤ greatestPower then
    let y := x * powerOfTen e
    if y.isInf then none else some y
  else if x == 0 then some x
  else none

/-- The number `significand * 10 ^ exponent`; `none` if it is too large. -/
def scale? (significand : Nat) (exponent : Int) : Option Float :=
  let x := significand.toUInt64.toFloat
  if 0 ≤ exponent then scaleUp? x exponent.toNat else some (scaleDown x exponent.natAbs)

/-- The binary64 number that a number is read as; `none` if it is too large. -/
def toFloat? (n : Number) : Option Float :=
  let (significand, dropped) := gatherWhole 0 n.whole
  let (significand, count) := gatherFraction significand 0 n.fraction
  let magnitude := scale? significand (dropped - count + n.exponent.getD 0)
  magnitude.map fun x => if n.negative then -x else x

end Number

end Lindenmayer.Json

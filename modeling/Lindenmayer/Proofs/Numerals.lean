import Lindenmayer.Number.Fixed
import Mathlib

/-!
# Numbers in texts

A number is written with digits, a point and a sign, or with the letters of a word
(`isNumeral_of_mem_fixedText`). So the separators of a text never stand inside a number,
and a text can be split at them.
-/

namespace Lindenmayer

/-- A character that numbers are written with. -/
def IsNumeral (c : Char) : Prop := c.isAlphanum ∨ c = '-' ∨ c = '.'

instance : DecidablePred IsNumeral :=
  fun c => inferInstanceAs (Decidable (c.isAlphanum ∨ c = '-' ∨ c = '.'))

theorem isNumeral_of_isDigit {c : Char} (h : c.isDigit) : IsNumeral c :=
  .inl (by simp [Char.isAlphanum, h])

theorem isDigit_digitChar : ∀ d : Digit, (digitChar d).isDigit := by
  decide

theorem isDigit_of_mem_lastDigits {c : Char} {count n : Nat} (h : c ∈ lastDigits count n) :
    c.isDigit := by
  induction count generalizing n with
  | zero => cases h
  | succ count ih =>
    rcases List.mem_append.1 h with h | h
    · exact ih h
    · rw [List.mem_singleton.1 h]
      exact isDigit_digitChar _

theorem isNumeral_of_mem_millionthsText {c : Char} {n : Nat} (h : c ∈ millionthsText n) :
    IsNumeral c := by
  rcases List.mem_append.1 h with h | h
  · exact isNumeral_of_isDigit (Nat.isDigit_of_mem_toDigits (by decide) (by decide) h)
  · rcases List.mem_cons.1 h with rfl | h
    · exact .inr (.inr rfl)
    · exact isNumeral_of_isDigit (isDigit_of_mem_lastDigits h)

/-- A number is written without separators. -/
theorem isNumeral_of_mem_fixedText {c : Char} {x : Binary64} (h : c ∈ fixedText x) :
    IsNumeral c := by
  -- Next to digits there are a sign and the letters of two words.
  have hminus : IsNumeral '-' := .inr (.inl rfl)
  have hword : ∀ c ∈ ['N', 'a', 'N', 'i', 'n', 'f'], IsNumeral c :=
    fun c hc => .inl (List.all_eq_true.1 (by decide : List.all _ Char.isAlphanum = true) c hc)
  cases x with
  | notANumber => exact hword c (List.mem_append_left ['i', 'n', 'f'] h)
  | infinite negative =>
    cases negative with
    | false => exact hword c (List.mem_append_right ['N', 'a', 'N'] h)
    | true =>
      rcases List.mem_cons.1 h with rfl | h
      · exact hminus
      · exact hword c (List.mem_append_right ['N', 'a', 'N'] h)
  | finite negative significand exponent =>
    rcases List.mem_append.1 h with h | h
    · cases negative with
      | false => cases h
      | true => exact List.mem_singleton.1 h ▸ hminus
    · exact isNumeral_of_mem_millionthsText h

theorem toList_fixed (x : Float) : (fixed x).toList = fixedText (.ofFloat x) :=
  String.toList_ofList

theorem isNumeral_of_mem_fixed {c : Char} {x : Float} (h : c ∈ (fixed x).toList) :
    IsNumeral c := by
  rw [toList_fixed] at h
  exact isNumeral_of_mem_fixedText h

end Lindenmayer

import Lindenmayer.Proofs.Arithmetic
import Lindenmayer.Proofs.Digits

/-!
# Numbers of documents read

A number of at most 64 bits is read from all of its digits, as a natural number that is scaled
by a power of ten (`toFloat?_eq`). Both are binary64 numbers to begin with, and exact if they
are small (`represents_powerOfTen`). Integers of 64 bits are not too large to be read
(`isSome_toFloat?_ofInt`).
-/

namespace Lindenmayer.Json.Number

/-! ## Significands -/

/-- The digits of a number, without its point. -/
def significand (n : Number) : ℕ := natOfDigits (n.whole ++ n.fraction)

/-- The power of ten that the significand is scaled by. -/
def power (n : Number) : ℤ := n.exponent.getD 0 - n.fraction.length

/-- The first digit behind a number goes to the number. -/
theorem append_cons (s : ℕ) (d : Digit) (ds : List Digit) :
    s * 10 ^ (d :: ds).length + natOfDigits (d :: ds) =
      (s * 10 + d.val) * 10 ^ ds.length + natOfDigits ds := by
  rw [← List.singleton_append, natOfDigits_append, natOfDigits_singleton, List.length_append,
    List.length_singleton]
  ring

theorem le_append (s : ℕ) (ds : List Digit) : s ≤ s * 10 ^ ds.length + natOfDigits ds :=
  (Nat.le_mul_of_pos_right s (by positivity)).trans (Nat.le_add_right _ _)

theorem gatherWhole_eq (s : ℕ) (ds : List Digit)
    (h : s * 10 ^ ds.length + natOfDigits ds < 2 ^ 64) :
    gatherWhole s ds = (s * 10 ^ ds.length + natOfDigits ds, 0) := by
  induction ds generalizing s with
  | nil => simp [gatherWhole, natOfDigits]
  | cons d ds ih =>
    rw [append_cons] at h ⊢
    have hfits : ¬ UInt64.size ≤ s * 10 + d.val := not_le.2 ((le_append _ ds).trans_lt h)
    rw [gatherWhole, if_neg hfits]
    exact ih _ h

theorem gatherFraction_eq (s count : ℕ) (ds : List Digit)
    (h : s * 10 ^ ds.length + natOfDigits ds < 2 ^ 64) :
    gatherFraction s count ds = (s * 10 ^ ds.length + natOfDigits ds, count + ds.length) := by
  induction ds generalizing s count with
  | nil => simp [gatherFraction, natOfDigits]
  | cons d ds ih =>
    rw [append_cons] at h ⊢
    have hfits : ¬ UInt64.size ≤ s * 10 + d.val := not_le.2 ((le_append _ ds).trans_lt h)
    rw [gatherFraction, if_neg hfits, ih _ _ h, List.length_cons, Nat.add_right_comm, Nat.add_assoc]

/-- A number whose digits fit in 64 bits is scaled with all of them. -/
theorem toFloat?_eq {n : Number} (h : n.significand < 2 ^ 64) :
    n.toFloat? = (scale? n.significand n.power).map fun x => if n.negative then -x else x := by
  have hvalue : n.significand =
      natOfDigits n.whole * 10 ^ n.fraction.length + natOfDigits n.fraction :=
    natOfDigits_append _ _
  have hwhole : natOfDigits n.whole < 2 ^ 64 :=
    (le_append _ n.fraction).trans_lt (hvalue ▸ h)
  rw [toFloat?, gatherWhole_eq 0 n.whole (by simpa using hwhole)]
  dsimp only
  rw [zero_mul, zero_add, gatherFraction_eq _ 0 _ (hvalue ▸ h), ← hvalue]
  have hpower : ((0 : ℕ) : ℤ) - ((0 + n.fraction.length : ℕ) : ℤ) + n.exponent.getD 0 =
      n.power := by
    rw [power]
    omega
  dsimp only
  rw [hpower]

/-! ## Powers of ten -/

theorem powerOfTen_eq (e : ℕ) : powerOfTen e = rounded (10 ^ e) := by
  rw [powerOfTen, ofScientific_eq]
  simp

/-- The powers of ten that need no more than 53 bits. -/
theorem represents_powerOfTen {e : ℕ} (he : e ≤ 22) : Represents (powerOfTen e) (10 ^ e) := by
  rw [powerOfTen_eq]
  have hvalue : (10 : ℚ) ^ e = (5 ^ e : ℕ) * 2 ^ (e : ℤ) := by
    rw [zpow_natCast]
    push_cast
    rw [← mul_pow]
    norm_num
  rw [hvalue]
  refine represents_rounded (by positivity) ?_ (by omega) (by omega)
  calc 5 ^ e ≤ 5 ^ 22 := Nat.pow_le_pow_right (by norm_num) he
    _ < 2 ^ 53 := by norm_num

theorem isInf_of_represents {x : Float} {q : ℚ} (h : Represents x q) : x.isInf = false := by
  obtain ⟨m, e, hm, hx, -, -⟩ := h.unpack
  change x.toModel.unpack.isInf = false
  rw [hx]
  rfl

/-! ## Integers -/

/-- A natural number of 64 bits is read. -/
theorem isSome_scale?_zero {n : ℕ} (h : n < 2 ^ 64) : (scale? n 0).isSome := by
  have hone : Represents (powerOfTen 0) 1 := by
    simpa using represents_powerOfTen (e := 0) (by omega)
  have hfinite : (n.toUInt64.toFloat * powerOfTen 0).isInf = false := by
    rcases Nat.eq_zero_or_pos n with rfl | hpos
    · decide +kernel
    · have hle : (n : ℚ) ≤ 2 ^ (1023 : ℤ) :=
        calc (n : ℚ) ≤ 2 ^ (64 : ℤ) := by exact_mod_cast h.le
          _ ≤ 2 ^ (1023 : ℤ) := zpow_le_zpow_right₀ (by norm_num) (by norm_num)
      have hge : 2 ^ (-1074 : ℤ) ≤ (n : ℚ) :=
        (zpow_le_one_of_nonpos₀ (by norm_num) (by norm_num)).trans (by exact_mod_cast hpos)
      obtain ⟨p, hp, -⟩ := exists_represents_rounded hge (lt_overflowBound hle)
      rw [toFloat_eq hpos h, hp.mul hone, mul_one, hp.rounded_eq]
      exact isInf_of_represents hp
  simp [scale?, scaleUp?, hfinite]

theorem isSome_toFloat?_ofInt {n : ℤ} (h : n.natAbs < 2 ^ 64) : (ofInt n).toFloat?.isSome := by
  have hsignificand : (ofInt n).significand = n.natAbs := by
    rw [significand, ofInt, List.append_nil]
    exact natOfDigits_digitsOfNat _
  rw [toFloat?_eq (hsignificand.symm ▸ h), hsignificand, Option.isSome_map]
  exact isSome_scale?_zero h

end Lindenmayer.Json.Number

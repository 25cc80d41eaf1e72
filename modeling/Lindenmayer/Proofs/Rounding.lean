import Lindenmayer.Number.Fixed
import Mathlib

/-!
# Rounding to binary64

The significand of a binary64 number has 53 bits, and its unit is no smaller than
`2 ^ (-1074)`. So the size of a positive rational number determines the unit it is rounded
to (`unitExponent`), and it goes to the nearest multiple of that unit, halfway cases to the
even one (`nearest`).

The model of the arithmetic rounds step by step instead. It keeps the bits that it shifts out
of a significand as two marks, whether the next bit is set and whether any bit behind it is.
What they say of a number is kept by every shift (`Describes.shiftRight`), and it is all that
rounding depends on. So a result depends on the exact value alone, however it was obtained
(`roundWithAccuracy_eq`).
-/

namespace Lindenmayer

open Float.Model Float.Model.UnpackedFloat

/-! ## Nearest natural numbers -/

/-- The natural number nearest to a number; halfway cases go to the even one. -/
def nearestEven (q : ℚ) : ℕ :=
  match compare (q - ⌊q⌋₊) (1 / 2) with
  | .lt => ⌊q⌋₊
  | .eq => ⌊q⌋₊ + ⌊q⌋₊ % 2
  | .gt => ⌊q⌋₊ + 1

/-- Rounding moves a number by a half at most. -/
theorem abs_nearestEven_sub_le {q : ℚ} (hq : 0 ≤ q) : |(nearestEven q : ℚ) - q| ≤ 1 / 2 := by
  have hfloor : (⌊q⌋₊ : ℚ) ≤ q := Nat.floor_le hq
  have hnext : q < ⌊q⌋₊ + 1 := Nat.lt_floor_add_one q
  rw [nearestEven]
  cases hcompare : compare (q - ⌊q⌋₊) (1 / 2) with
  | lt =>
    rw [compare_lt_iff_lt] at hcompare
    exact abs_le.2 ⟨by linarith, by linarith⟩
  | eq =>
    rw [compare_eq_iff_eq] at hcompare
    rcases Nat.mod_two_eq_zero_or_one ⌊q⌋₊ with hmod | hmod <;>
      simp only [hmod, Nat.cast_add, Nat.cast_zero, Nat.cast_one] <;>
      exact abs_le.2 ⟨by linarith, by linarith⟩
  | gt =>
    rw [compare_gt_iff_gt] at hcompare
    simp only [Nat.cast_add, Nat.cast_one]
    exact abs_le.2 ⟨by linarith, by linarith⟩

/-- Halfway cases go to the even number. -/
theorem even_nearestEven {q : ℚ} (hq : 0 ≤ q) (h : |(nearestEven q : ℚ) - q| = 1 / 2) :
    Even (nearestEven q) := by
  have hfloor : (⌊q⌋₊ : ℚ) ≤ q := Nat.floor_le hq
  have hnext : q < ⌊q⌋₊ + 1 := Nat.lt_floor_add_one q
  cases hcompare : compare (q - ⌊q⌋₊) (1 / 2) with
  | lt =>
    simp only [nearestEven, hcompare] at h
    rw [compare_lt_iff_lt] at hcompare
    rw [abs_sub_comm, abs_of_nonneg (sub_nonneg.2 hfloor)] at h
    exact absurd h hcompare.ne
  | eq =>
    simp only [nearestEven, hcompare, Nat.even_iff]
    omega
  | gt =>
    simp only [nearestEven, hcompare, Nat.cast_add, Nat.cast_one] at h
    rw [compare_gt_iff_gt] at hcompare
    rw [abs_of_pos (by linarith)] at h
    linarith

/-- A natural number is the nearest to everything that is less than a half away. -/
theorem nearestEven_eq {q : ℚ} {n : ℕ} (hq : 0 ≤ q) (h : |q - n| < 1 / 2) :
    nearestEven q = n := by
  have hnear := abs_le.1 (abs_nearestEven_sub_le hq)
  have hn := abs_lt.1 h
  have hlt : (nearestEven q : ℚ) < n + 1 := by linarith
  have hgt : (n : ℚ) < nearestEven q + 1 := by linarith
  have hlt' : nearestEven q < n + 1 := by exact_mod_cast hlt
  have hgt' : n < nearestEven q + 1 := by exact_mod_cast hgt
  omega

theorem nearestEven_le {q : ℚ} {n : ℕ} (hq : 0 ≤ q) (h : q ≤ n) : nearestEven q ≤ n := by
  have hnear := abs_le.1 (abs_nearestEven_sub_le hq)
  have hlt : (nearestEven q : ℚ) < n + 1 := by linarith
  exact Nat.lt_succ_iff.1 (by exact_mod_cast hlt)

theorem le_nearestEven {q : ℚ} {n : ℕ} (h : (n : ℚ) ≤ q) : n ≤ nearestEven q := by
  have hq : 0 ≤ q := (Nat.cast_nonneg n).trans h
  have hnear := abs_le.1 (abs_nearestEven_sub_le hq)
  have hlt : (n : ℚ) < nearestEven q + 1 := by linarith
  exact Nat.lt_succ_iff.1 (by exact_mod_cast hlt)

/-- A quotient is the one of natural numbers and what the remainder adds. -/
theorem div_eq_add_mod_div (m : ℕ) {d : ℕ} (hd : 0 < d) :
    (m : ℚ) / d = (m / d : ℕ) + (m % d : ℕ) / d := by
  have hne : (d : ℚ) ≠ 0 := by exact_mod_cast hd.ne'
  rw [add_div' _ _ _ hne, div_left_inj' hne]
  exact_mod_cast (Nat.div_add_mod' m d).symm

/-- A quotient of natural numbers is rounded by its remainder. -/
theorem roundHalfEven_eq_nearestEven (num : ℕ) {den : ℕ} (hden : 0 < den) :
    roundHalfEven num den = nearestEven (num / den) := by
  have hden' : (0 : ℚ) < den := by exact_mod_cast hden
  have hfloor : ⌊(num / den : ℚ)⌋₊ = num / den := Nat.floor_div_eq_div num den
  have hrest : (num / den : ℚ) - (num / den : ℕ) = (num % den : ℕ) / den := by
    rw [div_eq_add_mod_div num hden, add_sub_cancel_left]
  have hlt : ((num % den : ℕ) : ℚ) / den < 1 / 2 ↔ 2 * (num % den) < den := by
    rw [div_lt_iff₀ hden', one_div, inv_mul_eq_div, lt_div_iff₀' two_pos]
    exact_mod_cast Iff.rfl
  have heq : ((num % den : ℕ) : ℚ) / den = 1 / 2 ↔ 2 * (num % den) = den := by
    rw [div_eq_iff hden'.ne', one_div, inv_mul_eq_div, eq_div_iff two_ne_zero, mul_comm]
    exact_mod_cast Iff.rfl
  rw [nearestEven, hfloor, hrest, roundHalfEven]
  cases hcompare : compare (((num % den : ℕ) : ℚ) / den) (1 / 2) with
  | lt => rw [if_pos (.inl (hlt.1 (compare_lt_iff_lt.1 hcompare)))]
  | eq =>
    have htwice := heq.1 (compare_eq_iff_eq.1 hcompare)
    split_ifs with h <;> dsimp only <;> omega
  | gt =>
    have hgt : 1 / 2 < ((num % den : ℕ) : ℚ) / den := compare_gt_iff_gt.1 hcompare
    have hnlt := mt hlt.2 hgt.not_gt
    have hneq := mt heq.2 hgt.ne'
    rw [if_neg (not_or.2 ⟨hnlt, fun h => hneq h.1⟩)]

/-! ## Nearest binary64 numbers -/

/-- The exponent of the unit that a positive number is rounded to. -/
def unitExponent (q : ℚ) : ℤ := max (Int.log 2 q - 52) (-1074)

theorem lt_unit {q : ℚ} : q < 2 ^ 53 * 2 ^ unitExponent q := by
  have hlt : q < 2 ^ (Int.log 2 q + 1) := Int.lt_zpow_succ_log_self (by norm_num) q
  have hle : Int.log 2 q + 1 ≤ 53 + unitExponent q := by
    rw [unitExponent]
    omega
  rw [← zpow_natCast, ← zpow_add₀ (by norm_num)]
  exact hlt.trans_le (zpow_le_zpow_right₀ (by norm_num) hle)

theorem unit_le {q : ℚ} (hq : 0 < q) (h : unitExponent q ≠ -1074) :
    2 ^ 52 * 2 ^ unitExponent q ≤ q := by
  have hlog : unitExponent q = Int.log 2 q - 52 := by
    rw [unitExponent] at h ⊢
    omega
  rw [hlog, ← zpow_natCast, ← zpow_add₀ (by norm_num)]
  have hle : (2 : ℚ) ^ Int.log 2 q ≤ q := Int.zpow_log_le_self (by norm_num) hq
  convert hle using 2
  push_cast
  ring

theorem le_unitExponent (q : ℚ) : -1074 ≤ unitExponent q := le_max_right _ _

/-- The unit is determined by the two bounds. -/
theorem unitExponent_eq {q : ℚ} {e : ℤ} (hq : 0 < q) (hlt : q < 2 ^ 53 * 2 ^ e)
    (hle : 2 ^ 52 * 2 ^ e ≤ q ∨ e = -1074) (he : -1074 ≤ e) : unitExponent q = e := by
  rw [← zpow_natCast, ← zpow_add₀ (by norm_num)] at hlt
  have hlog : Int.log 2 q < 53 + e := (Int.lt_zpow_iff_log_lt (by norm_num) hq).1 hlt
  rw [unitExponent]
  rcases hle with hle | rfl
  · rw [← zpow_natCast, ← zpow_add₀ (by norm_num)] at hle
    have hlog' : 52 + e ≤ Int.log 2 q := (Int.zpow_le_iff_le_log (by norm_num) hq).1 hle
    omega
  · omega

/-- The multiple of the unit nearest to a positive number. Its exponent may exceed those of
    binary64. -/
def nearest (q : ℚ) : UnpackedFloat :=
  let e := unitExponent q
  let n := nearestEven (q / 2 ^ e)
  if n = 2 ^ 53 then .finite .positive (2 ^ 52) (e + 1) (by norm_num)
  else if hn : n = 0 then .zero .positive
  else .finite .positive n e (Nat.pos_of_ne_zero hn)

theorem nearestEven_unit_le {q : ℚ} (hq : 0 < q) :
    nearestEven (q / 2 ^ unitExponent q) ≤ 2 ^ 53 := by
  have hpow : (0 : ℚ) < 2 ^ unitExponent q := by positivity
  refine nearestEven_le (by positivity) ?_
  rw [div_le_iff₀ hpow]
  exact_mod_cast lt_unit.le

/-! ## Marks -/

/-- The number is the significand, a half if the next bit is marked, and a rest below a half
    that is positive if any bit behind is marked. -/
def Describes (em : ExtendedMantissa) (q : ℚ) : Prop :=
  ∃ rest, q = em.mantissa + (if em.roundBit then 1 / 2 else 0) + rest ∧ 0 ≤ rest ∧
    rest < 1 / 2 ∧ (em.stickyBit = true ↔ 0 < rest)

theorem Describes.shiftRightOne {em : ExtendedMantissa} {q : ℚ} (h : Describes em q) :
    Describes em.shiftRightOne (q / 2) := by
  obtain ⟨m, round, sticky⟩ := em
  obtain ⟨rest, rfl, hnonneg, hlt, hsticky⟩ := h
  have hm : (m : ℚ) = 2 * (m / 2 : ℕ) + (m % 2 : ℕ) := by
    exact_mod_cast (Nat.div_add_mod m 2).symm
  -- The last bit becomes the next one, and the next bit goes to the rest.
  refine ⟨(if round then 1 / 4 else 0) + rest / 2, ?_, ?_, ?_, ?_⟩
  · rcases Nat.mod_two_eq_zero_or_one m with hmod | hmod <;>
      rw [hmod] at hm <;>
      simp only [ExtendedMantissa.shiftRightOne, hmod, hm] <;>
      cases round <;>
      norm_num <;>
      ring
  · cases round <;> simp only [Bool.false_eq_true, if_true, if_false] <;> linarith
  · cases round <;> simp only [Bool.false_eq_true, if_true, if_false] <;> linarith
  · cases round with
    | false => simpa [ExtendedMantissa.shiftRightOne] using hsticky
    | true =>
      simp only [ExtendedMantissa.shiftRightOne, Bool.true_or, if_true, true_iff]
      linarith

/-- A shift by any number of bits divides the number described. -/
theorem Describes.shiftRight {em : ExtendedMantissa} {q : ℚ} (h : Describes em q) (n : ℕ) :
    Describes (em >>> n) (q / 2 ^ n) := by
  change Describes (n.repeat ExtendedMantissa.shiftRightOne em) _
  induction n with
  | zero =>
    rw [pow_zero, div_one]
    exact h
  | succ n ih =>
    rw [pow_succ, ← div_div]
    exact ih.shiftRightOne

theorem Describes.floor_eq {em : ExtendedMantissa} {q : ℚ} (h : Describes em q) :
    ⌊q⌋₊ = em.mantissa := by
  obtain ⟨rest, rfl, hnonneg, hlt, -⟩ := h
  refine (Nat.floor_eq_iff (by positivity)).2 ⟨?_, ?_⟩
  · split_ifs <;> linarith
  · split_ifs <;> linarith

/-- The marks are all that rounding depends on. -/
theorem Describes.roundedMantissa {em : ExtendedMantissa} {q : ℚ} (h : Describes em q) :
    em.roundedMantissa = nearestEven q := by
  have hfloor : ⌊q⌋₊ = em.mantissa := h.floor_eq
  obtain ⟨rest, hq, hnonneg, hlt, hsticky⟩ := h
  obtain ⟨m, round, sticky⟩ := em
  have hsub : q - m = (if round then 1 / 2 else 0) + rest := by
    rw [hq]
    ring
  rw [nearestEven, hfloor, hsub]
  have hzero : sticky = false → rest = 0 := by
    rintro rfl
    exact le_antisymm (not_lt.1 fun hpos => Bool.false_ne_true (hsticky.2 hpos)) hnonneg
  cases round <;> cases sticky <;>
    simp only [Bool.false_eq_true, if_true, if_false, zero_add]
  case false.false =>
    rw [compare_lt_iff_lt.2 hlt]
    rfl
  case false.true =>
    rw [compare_lt_iff_lt.2 hlt]
    rfl
  case true.false =>
    rw [hzero rfl, add_zero, compare_eq_iff_eq.2 rfl]
    rfl
  case true.true =>
    have hpos : 0 < rest := hsticky.1 rfl
    rw [compare_gt_iff_gt.2 (by linarith)]
    rfl

/-! ## The arithmetic -/

/-- What is known of a number from its significand: it is the significand, or lies between it
    and the next one, on a known side of the middle. -/
def Accurate (m : ℕ) (q : ℚ) : Accuracy → Prop
  | .exact => q = m
  | .inexact side => m < q ∧ q < m + 1 ∧ compare (q - m) (1 / 2) = side

theorem Accurate.describes {m : ℕ} {q : ℚ} {acc : Accuracy} (h : Accurate m q acc) :
    Describes (.ofMantissaAndAccuracy m acc) q := by
  rcases acc with _ | ⟨_ | _ | _⟩
  · obtain rfl : q = m := h
    exact ⟨0, by simp [ExtendedMantissa.ofMantissaAndAccuracy], le_rfl, by norm_num,
      by simp [ExtendedMantissa.ofMantissaAndAccuracy]⟩
  · obtain ⟨hlt, -, hside⟩ := h
    rw [compare_lt_iff_lt] at hside
    exact ⟨q - m, by simp [ExtendedMantissa.ofMantissaAndAccuracy], by linarith, hside,
      by simpa [ExtendedMantissa.ofMantissaAndAccuracy] using hlt⟩
  · obtain ⟨-, -, hside⟩ := h
    rw [compare_eq_iff_eq] at hside
    exact ⟨0, by simp [ExtendedMantissa.ofMantissaAndAccuracy]; linarith, le_rfl, by norm_num,
      by simp [ExtendedMantissa.ofMantissaAndAccuracy]⟩
  · obtain ⟨-, hlt, hside⟩ := h
    rw [compare_gt_iff_gt] at hside
    exact ⟨q - m - 1 / 2, by simp [ExtendedMantissa.ofMantissaAndAccuracy], by linarith,
      by linarith, by simpa [ExtendedMantissa.ofMantissaAndAccuracy] using hside⟩

theorem targetExponent_eq (t : ℤ) :
    Format.binary64.targetExponent t = max (t - 53) (-1074) := rfl

theorem Accurate.floor_eq {m : ℕ} {q : ℚ} {acc : Accuracy} (h : Accurate m q acc) :
    ⌊q⌋₊ = m := by
  rw [h.describes.floor_eq]
  rcases acc with _ | ⟨_ | _ | _⟩ <;> rfl

/-- The unit of a number is found from the bits of its significand. -/
theorem Accurate.unitExponent_eq {m : ℕ} {q : ℚ} {acc : Accuracy} {e : ℤ} (h : Accurate m q acc)
    (hq : 0 < q) (he : e ≤ unitExponent (q * 2 ^ e)) :
    max e (Format.binary64.targetExponent (totalExponent m e)) = unitExponent (q * 2 ^ e) := by
  have hpos : 0 < q * 2 ^ e := by positivity
  have hle : (m : ℚ) ≤ q := h.floor_eq ▸ Nat.floor_le hq.le
  have hlt : q < m + 1 := h.floor_eq ▸ Nat.lt_floor_add_one q
  rw [targetExponent_eq, totalExponent]
  rcases Nat.eq_zero_or_pos m with rfl | hm
  · -- A number below the unit it is given in is rounded to the smallest unit there is.
    have hlog : Int.log 2 (q * 2 ^ e) < e := by
      refine (Int.lt_zpow_iff_log_lt (by norm_num) hpos).1 ?_
      rw [Nat.cast_zero, zero_add] at hlt
      exact mul_lt_of_lt_one_left (by positivity) hlt
    have hlog2 : Nat.log2 0 = 0 := by decide
    rw [unitExponent] at he ⊢
    rw [hlog2]
    omega
  · have hlog : Int.log 2 (q * 2 ^ e) = m.log2 + e := by
      have hlower : (2 : ℚ) ^ m.log2 ≤ m := by exact_mod_cast Nat.log2_self_le hm.ne'
      have hupper : (m : ℚ) + 1 ≤ 2 ^ (m.log2 + 1) := by exact_mod_cast Nat.lt_log2_self
      refine le_antisymm (Int.lt_add_one_iff.1 ?_) ?_
      · refine (Int.lt_zpow_iff_log_lt (by norm_num) hpos).1 ?_
        have hpow : (2 : ℚ) ^ ((m.log2 : ℤ) + e + 1) = 2 ^ (m.log2 + 1) * 2 ^ e := by
          rw [← zpow_natCast, ← zpow_add₀ (by norm_num)]
          push_cast
          ring_nf
        rw [Nat.cast_ofNat, hpow]
        exact mul_lt_mul_of_pos_right (hlt.trans_le hupper) (by positivity)
      · refine (Int.zpow_le_iff_le_log (by norm_num) hpos).1 ?_
        rw [Nat.cast_ofNat, zpow_add₀ (by norm_num), zpow_natCast]
        exact mul_le_mul_of_nonneg_right (hlower.trans hle) (by positivity)
    rw [unitExponent, hlog] at he ⊢
    omega

/-- A significand that fits is shifted no further, and one that is a bit too long by one. -/
theorem shift_rounded {n : ℕ} {e : ℤ} (hn : n ≤ 2 ^ 53) (he : -1074 ≤ e) :
    (shiftToTargetExponent .binary64 n e .exact).1.mantissa = (if n = 2 ^ 53 then 2 ^ 52 else n) ∧
      (shiftToTargetExponent .binary64 n e .exact).2 = (if n = 2 ^ 53 then e + 1 else e) := by
  rw [shiftToTargetExponent, shiftToExponent, targetExponent_eq, totalExponent]
  split_ifs with h
  · subst h
    have hlog : Nat.log2 (2 ^ 53) = 53 := by decide
    have hshift : (max (((53 : ℕ) : ℤ) + 1 + e - 53) (-1074) - e).toNat = 1 := by omega
    rw [hlog]
    dsimp only
    rw [hshift]
    exact ⟨by decide, rfl⟩
  · have hlt : n < 2 ^ 53 := lt_of_le_of_ne hn h
    have hlog : n.log2 ≤ 52 := by
      rcases Nat.eq_zero_or_pos n with rfl | hpos
      · decide
      · exact Nat.lt_succ_iff.1 ((Nat.log2_lt hpos.ne').2 hlt)
    have hshift : (max ((n.log2 : ℤ) + 1 + e - 53) (-1074) - e).toNat = 0 := by omega
    dsimp only
    rw [hshift]
    exact ⟨rfl, by simp⟩

/-- A result depends on the exact value alone, if nothing of it was lost that rounding needs. -/
theorem roundWithAccuracy_eq {m : ℕ} {q : ℚ} {acc : Accuracy} {e : ℤ}
    (h : Accurate m q acc) (hq : 0 < q) (he : e ≤ unitExponent (q * 2 ^ e)) :
    roundWithAccuracy .binary64 .positive m e acc = nearest (q * 2 ^ e) := by
  have hpos : 0 < q * 2 ^ e := by positivity
  have hunit := h.unitExponent_eq hq he
  set shift := (Format.binary64.targetExponent (totalExponent m e) - e).toNat with hshift
  have hexponent : e + (shift : ℤ) = unitExponent (q * 2 ^ e) := by omega
  -- The first shift leaves the number in its unit, and rounding takes the nearest multiple.
  have hdescribes := h.describes.shiftRight shift
  have hvalue : q / 2 ^ shift = q * 2 ^ e / 2 ^ unitExponent (q * 2 ^ e) := by
    rw [← hexponent, zpow_add₀ (by norm_num), zpow_natCast]
    field_simp
  have hrounded := hdescribes.roundedMantissa
  rw [hvalue] at hrounded
  have hfirst : shiftToTargetExponent .binary64 m e acc =
      (ExtendedMantissa.ofMantissaAndAccuracy m acc >>> shift, unitExponent (q * 2 ^ e)) := by
    rw [shiftToTargetExponent, shiftToExponent, ← hexponent]
  obtain ⟨hmantissa, hsecond⟩ :=
    shift_rounded (nearestEven_unit_le hpos) (le_unitExponent (q * 2 ^ e))
  rw [roundWithAccuracy, hfirst]
  simp only [hrounded, hmantissa, hsecond, nearest]
  by_cases hcarry : nearestEven (q * 2 ^ e / 2 ^ unitExponent (q * 2 ^ e)) = 2 ^ 53
  · simp [hcarry]
  · simp only [hcarry, if_false]

end Lindenmayer

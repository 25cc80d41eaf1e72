import Lindenmayer.Number.Binary64
import Lindenmayer.Json.Number
import Lindenmayer.Proofs.Floats
import Lindenmayer.Proofs.Rounding

/-!
# Binary64 arithmetic

Products, quotients, integers and decimal numbers are exact values rounded once: the result of
an operation is the binary64 number nearest to the exact result (`Represents.mul`,
`Represents.div`, `toFloat_eq`, `ofScientific_eq`). The value of a positive number is the one
of its parts (`Represents`), and it determines the number (`Represents.eq`).

* The arithmetic takes numbers apart and puts them together again. That loses nothing
  (`unpack_eq`, `ofFloat_pack`), as long as the parts are those of a binary64 number
  (`Canonical`).
* Rounding keeps what is a binary64 number already (`Represents.rounded_eq`), and what is close
  to one goes to it (`rounded_of_close`). Anything else moves by half a unit at most
  (`exists_represents_rounded`), unless it is too large or too small for binary64
  (`rounded_eq_inf`, `rounded_eq_zero`).
-/

namespace Lindenmayer

open Float.Model Float.Model.UnpackedFloat

/-! ## Bits -/

/-- A number taken apart, as the arithmetic has it. -/
def Binary64.unpacked : Binary64 → UnpackedFloat
  | .notANumber => .notANumber
  | .infinite negative => .infinity (if negative then .negative else .positive)
  | .finite negative m e =>
    let s : Sign := if negative then .negative else .positive
    if hm : m = 0 then .zero s else .finite s m e (Nat.pos_of_ne_zero hm)

theorem toNat_unpackMantissa (b : BitVec 64) :
    (@unpackMantissa .binary64 b).toNat = b.toNat % 2 ^ 52 := by
  simp [unpackMantissa]

theorem toNat_unpackExponent (b : BitVec 64) :
    (@unpackExponent .binary64 b).toNat = b.toNat / 2 ^ 52 % 2 ^ 11 := by
  simp [unpackExponent, Nat.shiftRight_eq_div_pow]

theorem toNat_unpackSign (b : BitVec 64) :
    (@unpackSign .binary64 b).toNat = b.toNat / 2 ^ 63 % 2 := by
  simp [unpackSign, Nat.shiftRight_eq_div_pow]

theorem ofBitVec_unpackSign (b : BitVec 64) :
    Sign.ofBitVec (@unpackSign .binary64 b) =
      if b.toNat / (Binary64.exponentCount * Binary64.fractionCount) % 2 == 1 then .negative
      else .positive := by
  have hpositive : @unpackSign .binary64 b = 0#1 ↔ b.toNat / 2 ^ 63 % 2 = 0 := by
    rw [← BitVec.toNat_inj, toNat_unpackSign]
    rfl
  have hcount : Binary64.exponentCount * Binary64.fractionCount = 2 ^ 63 := rfl
  simp only [hcount, Sign.ofBitVec, hpositive]
  rcases Nat.mod_two_eq_zero_or_one (b.toNat / 2 ^ 63) with hmod | hmod <;> rw [hmod] <;> rfl

theorem unpackExponent_eq_greatest_iff (b : BitVec 64) :
    @unpackExponent .binary64 b = -1#_ ↔
      b.toNat / Binary64.fractionCount % Binary64.exponentCount = 2047 := by
  rw [← BitVec.toNat_inj, toNat_unpackExponent]
  rfl

theorem unpackExponent_eq_zero_iff (b : BitVec 64) :
    @unpackExponent .binary64 b = 0#_ ↔
      b.toNat / Binary64.fractionCount % Binary64.exponentCount = 0 := by
  rw [← BitVec.toNat_inj, toNat_unpackExponent]
  rfl

theorem unpackMantissa_eq_zero_iff (b : BitVec 64) :
    @unpackMantissa .binary64 b = 0#_ ↔ b.toNat % Binary64.fractionCount = 0 := by
  rw [← BitVec.toNat_inj, toNat_unpackMantissa]
  rfl

theorem toNat_leading_unpackMantissa (b : BitVec 64) :
    (1#1 ++ @unpackMantissa .binary64 b).toNat =
      Binary64.fractionCount + b.toNat % Binary64.fractionCount := by
  rw [BitVec.toNat_append, toNat_unpackMantissa]
  exact (Nat.two_pow_add_eq_or_of_lt (i := 52) (Nat.mod_lt _ (by norm_num)) 1).symm

theorem finite_congr {s : Sign} {m m' : ℕ} {e e' : ℤ} {h : 0 < m} (hm : m = m') (he : e = e') :
    UnpackedFloat.finite s m e h = .finite s m' e' (hm ▸ h) := by
  subst hm he
  rfl

/-- The arithmetic takes numbers apart the same way. -/
theorem unpack_eq (x : Float) : x.toModel.unpack = (Binary64.ofFloat x).unpacked := by
  have hbits : x.toBits.toNat = x.toModel.toBits.toBitVec.toNat := rfl
  rw [Float.Model.unpack, UnpackedFloat.unpack, Binary64.ofFloat, hbits]
  generalize x.toModel.toBits.toBitVec = b
  rw [ofBitVec_unpackSign]
  by_cases hbiased : b.toNat / Binary64.fractionCount % Binary64.exponentCount = 2047
  · rw [if_pos ((unpackExponent_eq_greatest_iff b).2 hbiased), if_pos hbiased]
    by_cases hf : b.toNat % Binary64.fractionCount = 0
    · rw [if_pos ((unpackMantissa_eq_zero_iff b).2 hf), if_pos hf, Binary64.unpacked]
    · rw [if_neg ((unpackMantissa_eq_zero_iff b).not.2 hf), if_neg hf, Binary64.unpacked]
  · rw [if_neg ((unpackExponent_eq_greatest_iff b).not.2 hbiased), if_neg hbiased]
    by_cases hb : b.toNat / Binary64.fractionCount % Binary64.exponentCount = 0
    · rw [if_pos ((unpackExponent_eq_zero_iff b).2 hb), if_pos hb, Binary64.unpacked]
      by_cases hf : b.toNat % Binary64.fractionCount = 0
      · rw [dif_pos ((unpackMantissa_eq_zero_iff b).2 hf), dif_pos hf]
      · rw [dif_neg ((unpackMantissa_eq_zero_iff b).not.2 hf), dif_neg hf]
        refine finite_congr (toNat_unpackMantissa b) ?_
        have hzero : b.toNat / 2 ^ 52 % 2 ^ 11 = 0 := hb
        rw [toNat_unpackExponent, hzero]
        rfl
    · rw [if_neg ((unpackExponent_eq_zero_iff b).not.2 hb), if_neg hb, Binary64.unpacked,
        dif_neg (by simp [Binary64.fractionCount])]
      refine finite_congr (toNat_leading_unpackMantissa b) ?_
      rw [toNat_unpackExponent]
      rfl

/-- A significand with its exponent as binary64 keeps them, but for the greatest exponent: the
    first bit is set, unless the unit is the smallest. -/
structure Canonical (m : ℕ) (e : ℤ) : Prop where
  lt : m < 2 ^ 53
  le : -1074 ≤ e
  leading : 2 ^ 52 ≤ m ∨ e = -1074

theorem canonical_ofFloat {x : Float} {negative : Bool} {m : ℕ} {e : ℤ}
    (h : Binary64.ofFloat x = .finite negative m e) : Canonical m e ∧ e ≤ 971 := by
  simp only [Binary64.ofFloat] at h
  split_ifs at h with _ _ hbiased <;>
    obtain ⟨-, rfl, rfl⟩ := Binary64.finite.inj h <;>
    simp only [Binary64.fractionCount, Binary64.exponentCount] at * <;>
    refine ⟨⟨?_, ?_, ?_⟩, ?_⟩ <;>
    omega

/-- The bits of a finite number. -/
theorem toBits_of_finite {x : Float} {negative : Bool} {m : ℕ} {e : ℤ}
    (h : Binary64.ofFloat x = .finite negative m e) :
    x.toBits.toNat = 2 ^ 52 * (2 ^ 11 * negative.toNat +
      (if 2 ^ 52 ≤ m then (e + 1075).toNat else 0)) + m % 2 ^ 52 := by
  have hlt : x.toBits.toNat < 2 ^ 64 := x.toBits.toNat_lt
  rw [Binary64.ofFloat] at h
  generalize x.toBits.toNat = bits at h hlt ⊢
  have hsign : (bits / (Binary64.exponentCount * Binary64.fractionCount) % 2 == 1).toNat =
      bits / (Binary64.exponentCount * Binary64.fractionCount) % 2 := by
    rcases Nat.mod_two_eq_zero_or_one (bits / (Binary64.exponentCount * Binary64.fractionCount))
      with hmod | hmod <;> rw [hmod] <;> rfl
  split_ifs at h with _ _ hbiased
  · obtain ⟨rfl, rfl, rfl⟩ := Binary64.finite.inj h
    rw [hsign, if_neg (by simp only [Binary64.fractionCount]; omega)]
    simp only [Binary64.fractionCount, Binary64.exponentCount] at *
    omega
  · obtain ⟨rfl, rfl, rfl⟩ := Binary64.finite.inj h
    rw [hsign, if_pos (by simp only [Binary64.fractionCount]; omega)]
    simp only [Binary64.fractionCount, Binary64.exponentCount] at *
    omega

/-- A finite number is determined by its parts. -/
theorem eq_of_ofFloat {x y : Float} {negative : Bool} {m : ℕ} {e : ℤ}
    (hx : Binary64.ofFloat x = .finite negative m e)
    (hy : Binary64.ofFloat y = .finite negative m e) : x = y :=
  eq_of_toBits (UInt64.toNat_inj.1 ((toBits_of_finite hx).trans (toBits_of_finite hy).symm))

/-- Whether a sign is set. -/
def isNegative : Sign → Bool
  | .negative => true
  | .positive => false

theorem toNat_packComponents (s : Sign) (e : BitVec 11) (m : BitVec 52) :
    (packComponents .binary64 s e m).toNat =
      2 ^ 52 * (2 ^ 11 * (isNegative s).toNat + e.toNat) + m.toNat := by
  have hsign : s.toBitVec.toNat = (isNegative s).toNat := by
    cases s <;> rfl
  have hupper : (s.toBitVec ++ e).toNat = 2 ^ 11 * (isNegative s).toNat + e.toNat := by
    rw [BitVec.toNat_append, hsign, Nat.shiftLeft_eq, Nat.mul_comm]
    exact (Nat.two_pow_add_eq_or_of_lt e.isLt _).symm
  rw [packComponents]
  refine (BitVec.toNat_append (s.toBitVec ++ e) m).trans ?_
  rw [hupper, Nat.shiftLeft_eq, Nat.mul_comm]
  exact (Nat.two_pow_add_eq_or_of_lt m.isLt _).symm

theorem fields_of_bits {s b f : ℕ} (hs : s ≤ 1) (hb : b < 2 ^ 11) (hf : f < 2 ^ 52) :
    (2 ^ 52 * (2 ^ 11 * s + b) + f) / Binary64.fractionCount % Binary64.exponentCount = b ∧
      (2 ^ 52 * (2 ^ 11 * s + b) + f) % Binary64.fractionCount = f ∧
      (2 ^ 52 * (2 ^ 11 * s + b) + f) / (Binary64.exponentCount * Binary64.fractionCount) % 2 =
        s := by
  simp only [Binary64.fractionCount, Binary64.exponentCount]
  omega

/-- What is put into bits can be read off them. -/
theorem ofFloat_pack {s : Sign} {m : ℕ} {e : ℤ} (hm : 0 < m) (hc : Canonical m e)
    (he : e ≤ 971) :
    Binary64.ofFloat (.ofModel (.pack (.finite s m e hm))) = .finite (isNegative s) m e := by
  have hlt := hc.lt
  have hle := hc.le
  have hleading := hc.leading
  have hbits : (Float.ofModel (.pack (.finite s m e hm))).toBits.toNat =
      2 ^ 52 * (2 ^ 11 * (isNegative s).toNat +
        (if 2 ^ 52 ≤ m then (e + 1075).toNat else 0)) + m % 2 ^ 52 := by
    have hlog : m.log2 + 1 = Format.mantissaBits .binary64 ↔ 2 ^ 52 ≤ m := by
      have hbits : Format.mantissaBits .binary64 = 53 := rfl
      have hle52 : m.log2 < 53 := (Nat.log2_lt hm.ne').2 hlt
      rw [hbits, ← Nat.le_log2 hm.ne']
      omega
    have hbiased : e + (Format.exponentBias .binary64 : ℕ) + ((52 : ℕ) : ℤ) = e + 1075 := by
      have hbias : Format.exponentBias .binary64 = 1023 := rfl
      rw [hbias]
      omega
    have hrange : ¬ 2 ^ 11 ≤ (e + 1075).toNat + 1 := by omega
    change (UnpackedFloat.pack .binary64 (.finite s m e hm)).toNat = _
    simp only [UnpackedFloat.pack, hbiased, hlog, hrange, if_false]
    split_ifs <;> rw [toNat_packComponents, BitVec.toNat_ofNat, BitVec.toNat_ofNat]
    rw [Nat.mod_eq_of_lt (a := (e + 1075).toNat) (by omega)]
  have hnegative : ((isNegative s).toNat == 1) = isNegative s := by
    cases s <;> rfl
  rw [Binary64.ofFloat, hbits]
  by_cases hnormal : 2 ^ 52 ≤ m
  · obtain ⟨hbiased, hfraction, htop⟩ := fields_of_bits (b := (e + 1075).toNat)
      (f := m % 2 ^ 52) (Bool.toNat_le (isNegative s)) (by omega) (Nat.mod_lt _ (by norm_num))
    rw [if_pos hnormal, hbiased, hfraction, htop, hnegative, if_neg (by omega), if_neg (by omega),
      Binary64.fractionCount]
    congr 1 <;> omega
  · obtain ⟨hbiased, hfraction, htop⟩ := fields_of_bits (b := 0)
      (f := m % 2 ^ 52) (Bool.toNat_le (isNegative s)) (by omega) (Nat.mod_lt _ (by norm_num))
    rw [if_neg hnormal, hbiased, hfraction, htop, hnegative, if_neg (by omega), if_pos rfl]
    congr 1 <;> omega

/-! ## Values -/

theorem two_zpow_eq {e e' : ℤ} (k : ℕ) (h : e' = k + e) : (2 : ℚ) ^ e' = 2 ^ k * 2 ^ e := by
  rw [h, zpow_add₀ (by norm_num), zpow_natCast]

/-- The number is positive and finite, and this is its exact value. -/
def Represents (x : Float) (q : ℚ) : Prop :=
  ∃ m e, Binary64.ofFloat x = .finite false m e ∧ 0 < m ∧ q = m * 2 ^ e

theorem Represents.unpack {x : Float} {q : ℚ} (h : Represents x q) : ∃ m e, ∃ hm : 0 < m,
    x.toModel.unpack = .finite .positive m e hm ∧ Canonical m e ∧ q = m * 2 ^ e := by
  obtain ⟨m, e, hx, hm, rfl⟩ := h
  refine ⟨m, e, hm, ?_, (canonical_ofFloat hx).1, rfl⟩
  rw [unpack_eq, hx, Binary64.unpacked, dif_neg hm.ne']
  rfl

theorem Represents.pos {x : Float} {q : ℚ} (h : Represents x q) : 0 < q := by
  obtain ⟨m, e, -, hm, rfl⟩ := h
  positivity

/-- The least positive number, and a bound of the greatest one. -/
theorem Represents.bounds {x : Float} {q : ℚ} (h : Represents x q) :
    2 ^ (-1074 : ℤ) ≤ q ∧ q < 2 ^ (1024 : ℤ) := by
  obtain ⟨m, e, hx, hm, rfl⟩ := h
  obtain ⟨hc, he⟩ := canonical_ofFloat hx
  have hone : (1 : ℚ) ≤ m := by exact_mod_cast hm
  have hlt : (m : ℚ) < 2 ^ (53 : ℤ) := by exact_mod_cast hc.lt
  constructor
  · calc (2 : ℚ) ^ (-1074 : ℤ) ≤ 2 ^ e := zpow_le_zpow_right₀ (by norm_num) hc.le
      _ ≤ m * 2 ^ e := le_mul_of_one_le_left (by positivity) hone
  · calc (m : ℚ) * 2 ^ e < 2 ^ (53 : ℤ) * 2 ^ e := mul_lt_mul_of_pos_right hlt (by positivity)
      _ = 2 ^ (53 + e) := (zpow_add₀ (by norm_num) _ _).symm
      _ ≤ 2 ^ (1024 : ℤ) := zpow_le_zpow_right₀ (by norm_num) (by omega)

/-- The powers of ten around the binary64 numbers. -/
theorem ten_zpow_lt_least : (10 : ℚ) ^ (-324 : ℤ) < 2 ^ (-1074 : ℤ) := by
  rw [zpow_neg, zpow_neg, inv_lt_inv₀ (by positivity) (by positivity)]
  have hnat : 2 ^ 1074 < 10 ^ 324 := by decide +kernel
  exact_mod_cast hnat

theorem greatest_lt_ten_zpow : (2 : ℚ) ^ (1024 : ℤ) < 10 ^ (309 : ℤ) := by
  have hnat : 2 ^ 1024 < 10 ^ 309 := by decide +kernel
  exact_mod_cast hnat

theorem represents_pack {m : ℕ} {e : ℤ} (hm : 0 < m) (hc : Canonical m e) (he : e ≤ 971) :
    Represents (.ofModel (.pack (.finite .positive m e hm))) (m * 2 ^ e) :=
  ⟨m, e, ofFloat_pack hm hc he, hm, rfl⟩

theorem Canonical.unitExponent_eq {m : ℕ} {e : ℤ} (hc : Canonical m e) (hm : 0 < m) :
    unitExponent (m * 2 ^ e) = e := by
  have hpow : (0 : ℚ) < 2 ^ e := by positivity
  refine Lindenmayer.unitExponent_eq (by positivity) ?_ (hc.leading.imp_left fun hle => ?_) hc.le
  · exact mul_lt_mul_of_pos_right (by exact_mod_cast hc.lt) hpow
  · exact mul_le_mul_of_nonneg_right (by exact_mod_cast hle) hpow.le

/-- A number is determined by its value. -/
theorem Represents.eq {x y : Float} {q : ℚ} (hx : Represents x q) (hy : Represents y q) :
    x = y := by
  obtain ⟨m, e, hx, hm, rfl⟩ := hx
  obtain ⟨m', e', hy, hm', hq⟩ := hy
  have he : e = e' := by
    rw [← (canonical_ofFloat hx).1.unitExponent_eq hm, hq,
      (canonical_ofFloat hy).1.unitExponent_eq hm']
  subst he
  have hpow : (2 : ℚ) ^ e ≠ 0 := by positivity
  obtain rfl : m = m' := by exact_mod_cast mul_right_cancel₀ hpow hq
  exact eq_of_ofFloat hx hy

/-! ## Signs -/

section

variable {x : Float} {negative : Bool} {m : ℕ} {e : ℤ}

theorem ofFloat_abs (hx : Binary64.ofFloat x = .finite negative m e) (hm : 0 < m) :
    Binary64.ofFloat x.abs = .finite false m e := by
  obtain ⟨hc, he⟩ := canonical_ofFloat hx
  have habs : x.abs = .ofModel (.pack (.finite .positive m e hm)) := by
    change Float.ofModel (.pack (UnpackedFloat.abs x.toModel.unpack)) = _
    rw [unpack_eq, hx, Binary64.unpacked, dif_neg hm.ne']
    rfl
  rw [habs, ofFloat_pack hm hc he]
  rfl

theorem ofFloat_neg (hx : Binary64.ofFloat x = .finite negative m e) (hm : 0 < m) :
    Binary64.ofFloat (-x) = .finite (!negative) m e := by
  obtain ⟨hc, he⟩ := canonical_ofFloat hx
  have hneg : -x =
      .ofModel (.pack (.finite (if negative then .positive else .negative) m e hm)) := by
    change Float.ofModel (.pack (UnpackedFloat.neg x.toModel.unpack)) = _
    rw [unpack_eq, hx, Binary64.unpacked, dif_neg hm.ne']
    cases negative <;> rfl
  rw [hneg, ofFloat_pack hm hc he]
  cases negative <;> rfl

end

/-! ## Equality -/

/-- A number is equal to itself. -/
theorem Represents.beq_self {x : Float} {q : ℚ} (h : Represents x q) : (x == x) = true := by
  obtain ⟨m, e, hm, hx, -, -⟩ := h.unpack
  change (x.toModel.unpack.compare x.toModel.unpack == some .eq) = true
  rw [hx]
  simp [UnpackedFloat.compare]

/-- A positive number is equal to no other one. -/
theorem Represents.eq_of_beq {x y : Float} {q : ℚ} (hx : Represents x q) (h : (y == x) = true) :
    y = x := by
  obtain ⟨m, e, hx', hm, hq⟩ := id hx
  have hcompare : (y.toModel.unpack.compare x.toModel.unpack == some .eq) = true := h
  rw [unpack_eq x, hx', unpack_eq y, Binary64.unpacked, dif_neg hm.ne'] at hcompare
  cases hy : Binary64.ofFloat y with
  | finite negative m' e' =>
    rw [hy, Binary64.unpacked] at hcompare
    by_cases hm' : m' = 0
    · rw [dif_pos hm'] at hcompare
      cases hcompare
    · rw [dif_neg hm'] at hcompare
      cases negative with
      | true => cases hcompare
      | false =>
        have hboth : compare e' e = .eq ∧ compare m' m = .eq := by
          simpa [UnpackedFloat.compare, Ordering.then_eq_eq] using hcompare
        obtain ⟨rfl, rfl⟩ := hboth.imp compare_eq_iff_eq.1 compare_eq_iff_eq.1
        exact Represents.eq ⟨m', e', hy, hm, hq⟩ hx
  | infinite negative =>
    rw [hy] at hcompare
    cases negative <;> cases hcompare
  | notANumber =>
    rw [hy] at hcompare
    cases hcompare

/-! ## Rounding -/

/-- The binary64 number nearest to a number that is not negative. -/
def rounded (q : ℚ) : Float := .ofModel (.pack (nearest q))

/-- What lies below a power of two, by less than a quarter of its unit, is rounded to it. There
    the unit is half as large. -/
theorem nearest_eq_of_lt {e : ℤ} {q : ℚ} (hq : 0 < q) (he : -1074 < e)
    (hbelow : q < 2 ^ 52 * 2 ^ e) (hclose : 2 ^ 52 * 2 ^ e - q < 2 ^ e / 4) :
    nearest q = .finite .positive (2 ^ 52) e (Nat.two_pow_pos 52) := by
  have hhalf : (2 : ℚ) ^ e = 2 * 2 ^ (e - 1) := by
    rw [zpow_sub_one₀ (by norm_num)]
    ring
  have hpow : (0 : ℚ) < 2 ^ (e - 1) := by positivity
  rw [hhalf] at hclose hbelow
  have hunit : unitExponent q = e - 1 := by
    refine unitExponent_eq hq ?_ (.inl ?_) (by omega)
    · linarith
    · linarith
  have hnear : nearestEven (q / 2 ^ (e - 1)) = 2 ^ 53 := by
    refine nearestEven_eq (by positivity) ?_
    have hdiv : q = q / 2 ^ (e - 1) * 2 ^ (e - 1) := (div_mul_cancel₀ q hpow.ne').symm
    push_cast
    rw [abs_lt]
    constructor <;> nlinarith
  simp [nearest, hunit, hnear]

/-- What is close to a binary64 number is rounded to it. Below a power of two the numbers are
    twice as close to each other. -/
theorem nearest_eq {m : ℕ} {e : ℤ} {q : ℚ} (hm : 0 < m) (hc : Canonical m e) (hq : 0 < q)
    (h : |q - m * 2 ^ e| < 2 ^ e / 2)
    (hpower : m = 2 ^ 52 → e ≠ -1074 → (m * 2 ^ e - q) < 2 ^ e / 4) :
    nearest q = .finite .positive m e hm := by
  have hpow : (0 : ℚ) < 2 ^ e := by positivity
  obtain ⟨hlower, hupper⟩ := abs_lt.1 h
  have hmlt : (m : ℚ) + 1 ≤ 2 ^ 53 := by exact_mod_cast hc.lt
  have hqlt : q < 2 ^ 53 * 2 ^ e := by nlinarith
  by_cases hleading : 2 ^ 52 * 2 ^ e ≤ q ∨ e = -1074
  · have hunit : unitExponent q = e := unitExponent_eq hq hqlt hleading hc.le
    have hnear : nearestEven (q / 2 ^ e) = m := by
      refine nearestEven_eq (by positivity) ?_
      rw [← mul_div_cancel_right₀ (m : ℚ) hpow.ne', ← sub_div, abs_div, abs_of_pos hpow,
        div_lt_iff₀ hpow]
      linarith
    simp only [nearest, hunit, hnear]
    rw [if_neg hc.lt.ne, dif_neg hm.ne']
  · -- The number is a power of two, and what is rounded lies below it.
    obtain ⟨hbelow, he⟩ := not_or.1 hleading
    rw [not_le] at hbelow
    obtain rfl : m = 2 ^ 52 := by
      have hle : 2 ^ 52 ≤ m := hc.leading.resolve_right he
      have hlt : (m : ℚ) < 2 ^ 52 + 1 := by nlinarith
      have hlt' : m < 2 ^ 52 + 1 := by exact_mod_cast hlt
      omega
    have hclose := hpower rfl he
    rw [Nat.cast_pow, Nat.cast_ofNat] at hclose
    exact nearest_eq_of_lt hq (lt_of_le_of_ne hc.le (Ne.symm he)) hbelow hclose

theorem rounded_of_close {x : Float} {m : ℕ} {e : ℤ} {q : ℚ}
    (hx : Binary64.ofFloat x = .finite false m e)
    (hm : 0 < m) (hq : 0 < q) (h : |q - m * 2 ^ e| < 2 ^ e / 2)
    (hpower : m = 2 ^ 52 → e ≠ -1074 → (m * 2 ^ e - q) < 2 ^ e / 4) : rounded q = x := by
  obtain ⟨hc, he⟩ := canonical_ofFloat hx
  rw [rounded, nearest_eq hm hc hq h hpower]
  exact (represents_pack hm hc he).eq ⟨m, e, hx, hm, rfl⟩

/-- A binary64 number is not rounded. -/
theorem Represents.rounded_eq {x : Float} {q : ℚ} (h : Represents x q) : rounded q = x := by
  have hq : 0 < q := h.pos
  obtain ⟨m, e, hx, hm, rfl⟩ := h
  refine rounded_of_close hx hm hq ?_ fun _ _ => ?_
  · rw [sub_self, abs_zero]
    positivity
  · rw [sub_self]
    positivity

/-- A multiple of its own unit is not rounded. -/
theorem represents_of_unit {q : ℚ} {n : ℕ} (hq : 0 < q) (h : q = n * 2 ^ unitExponent q)
    (hle : unitExponent q ≤ 971) : Represents (rounded q) q := by
  have hpow : (0 : ℚ) < 2 ^ unitExponent q := by positivity
  have hn : 0 < n := by
    refine Nat.pos_of_ne_zero fun hzero => hq.ne' ?_
    rw [h, hzero, Nat.cast_zero, zero_mul]
  have hcanonical : Canonical n (unitExponent q) := by
    refine ⟨?_, le_unitExponent q, or_iff_not_imp_right.2 fun hne => ?_⟩
    · have hlt : (n : ℚ) * 2 ^ unitExponent q < 2 ^ 53 * 2 ^ unitExponent q := h ▸ lt_unit
      exact_mod_cast lt_of_mul_lt_mul_right hlt hpow.le
    · have hge : 2 ^ 52 * 2 ^ unitExponent q ≤ (n : ℚ) * 2 ^ unitExponent q := h ▸ unit_le hq hne
      exact_mod_cast le_of_mul_le_mul_right hge hpow
  have hnearest : nearest q = .finite .positive n (unitExponent q) hn := by
    refine nearest_eq hn hcanonical hq ?_ fun _ _ => ?_
    · rw [← h, sub_self, abs_zero]
      positivity
    · rw [← h, sub_self]
      positivity
  rw [rounded, hnearest]
  exact ⟨n, _, ofFloat_pack hn hcanonical hle, hn, h⟩

/-- A value of at most 53 bits is not rounded. -/
theorem represents_rounded {m : ℕ} {e : ℤ} (hm : 0 < m) (hlt : m < 2 ^ 53) (hle : -1074 ≤ e)
    (hge : e ≤ 971) : Represents (rounded (m * 2 ^ e)) (m * 2 ^ e) := by
  have hpos : (0 : ℚ) < m * 2 ^ e := by positivity
  -- The unit of the value divides the one it is given in.
  have hunit : unitExponent (m * 2 ^ e) ≤ e := by
    have hlog : Int.log 2 ((m : ℚ) * 2 ^ e) < 53 + e := by
      refine (Int.lt_zpow_iff_log_lt (by norm_num) hpos).1 ?_
      rw [Nat.cast_ofNat, zpow_add₀ (by norm_num)]
      exact mul_lt_mul_of_pos_right (by exact_mod_cast hlt) (by positivity)
    rw [unitExponent]
    omega
  obtain ⟨k, hk⟩ := Int.eq_ofNat_of_zero_le (sub_nonneg.2 hunit)
  refine represents_of_unit (n := m * 2 ^ k) hpos ?_ (hunit.trans hge)
  have he : e = k + unitExponent (m * 2 ^ e) := by omega
  calc (m : ℚ) * 2 ^ e = m * 2 ^ (k + unitExponent (m * 2 ^ e)) := by rw [← he]
    _ = (m * 2 ^ k : ℕ) * 2 ^ unitExponent (m * 2 ^ e) := by
      rw [zpow_add₀ (by norm_num), zpow_natCast]
      push_cast
      ring

/-- Half a unit of a number is small against the number, or as small as can be. -/
theorem half_unit_le {q : ℚ} (hq : 0 < q) :
    (2 : ℚ) ^ unitExponent q / 2 ≤ q / 2 ^ 53 + 2 ^ (-1074 : ℤ) / 2 := by
  have htiny : (0 : ℚ) < 2 ^ (-1074 : ℤ) := zpow_pos (by norm_num) _
  by_cases h : unitExponent q = -1074
  · have hnonneg : 0 ≤ q / 2 ^ 53 := by positivity
    rw [h]
    linarith
  · have hle : 2 ^ 52 * 2 ^ unitExponent q ≤ q := unit_le hq h
    have hhalf : (2 : ℚ) ^ unitExponent q / 2 ≤ q / 2 ^ 53 := by
      rw [le_div_iff₀ (by positivity)]
      linarith
    linarith

/-- The greatest binary64 number and half a unit more. -/
def overflowBound : ℚ := (2 ^ 53 - 1 / 2) * 2 ^ (971 : ℤ)

theorem lt_overflowBound {q : ℚ} (h : q ≤ 2 ^ (1023 : ℤ)) : q < overflowBound := by
  have hpow : (2 : ℚ) ^ (1023 : ℤ) = 2 ^ 52 * 2 ^ (971 : ℤ) := two_zpow_eq 52 rfl
  have hgreatest : (0 : ℚ) < 2 ^ (971 : ℤ) := zpow_pos (by norm_num) _
  rw [hpow] at h
  rw [overflowBound]
  generalize (2 : ℚ) ^ (971 : ℤ) = greatest at h hgreatest
  linarith

/-- A positive number is rounded by half a unit at most. It may be rounded to zero, or to what
    is too large for binary64. -/
theorem nearest_spec {q : ℚ} (hq : 0 < q) :
    (nearest q = .zero .positive ∧ q ≤ 2 ^ (-1074 : ℤ) / 2) ∨
    ∃ m e, ∃ hm : 0 < m, nearest q = .finite .positive m e hm ∧ Canonical m e ∧
      |m * 2 ^ e - q| ≤ 2 ^ unitExponent q / 2 := by
  have hpow : (0 : ℚ) < 2 ^ unitExponent q := by positivity
  have hnear := abs_nearestEven_sub_le (q := q / 2 ^ unitExponent q) (by positivity)
  have hle53 := nearestEven_unit_le hq
  rw [nearest]
  generalize hn : nearestEven (q / 2 ^ unitExponent q) = n at *
  have herror : |(n : ℚ) * 2 ^ unitExponent q - q| ≤ 2 ^ unitExponent q / 2 := by
    have hfactor : (n : ℚ) * 2 ^ unitExponent q - q =
        (n - q / 2 ^ unitExponent q) * 2 ^ unitExponent q := by
      rw [sub_mul, div_mul_cancel₀ q hpow.ne']
    rw [hfactor, abs_mul, abs_of_pos hpow]
    linarith [mul_le_mul_of_nonneg_right hnear hpow.le]
  have hleading : 2 ^ 52 ≤ n ∨ unitExponent q = -1074 := by
    refine or_iff_not_imp_right.2 fun hne => hn ▸ le_nearestEven ?_
    rw [le_div_iff₀ hpow]
    exact_mod_cast unit_le hq hne
  split_ifs with hcarry hzero
  · refine .inr ⟨2 ^ 52, unitExponent q + 1, Nat.two_pow_pos 52, rfl,
      ⟨by norm_num, by have := le_unitExponent q; omega, .inl le_rfl⟩, ?_⟩
    rw [hcarry] at herror
    rw [zpow_add_one₀ (by norm_num)]
    push_cast at herror ⊢
    convert herror using 2
    ring
  · refine .inl ⟨rfl, ?_⟩
    have hunit : unitExponent q = -1074 := hleading.resolve_left (by omega)
    rw [hzero, Nat.cast_zero, zero_mul, zero_sub, abs_neg, abs_of_pos hq, hunit] at herror
    exact herror
  · exact .inr ⟨n, unitExponent q, Nat.pos_of_ne_zero hzero, rfl,
      ⟨lt_of_le_of_ne hle53 hcarry, le_unitExponent q, hleading⟩, herror⟩

/-- A number that is neither too large nor too small is rounded by half a unit at most. -/
theorem exists_represents_rounded {q : ℚ} (hq : 2 ^ (-1074 : ℤ) ≤ q) (hlt : q < overflowBound) :
    ∃ p, Represents (rounded q) p ∧ |p - q| ≤ 2 ^ unitExponent q / 2 := by
  have htiny : (0 : ℚ) < 2 ^ (-1074 : ℤ) := zpow_pos (by norm_num) _
  have hgreatest : (0 : ℚ) < 2 ^ (971 : ℤ) := zpow_pos (by norm_num) _
  have hpos : 0 < q := htiny.trans_le hq
  rcases nearest_spec hpos with ⟨-, hle⟩ | ⟨m, e, hm, hnearest, hc, herror⟩
  · exact absurd hle (by linarith)
  · refine ⟨m * 2 ^ e, ?_, herror⟩
    rw [rounded, hnearest]
    refine represents_pack hm hc ?_
    rw [overflowBound] at hlt
    have hbelow : q < 2 ^ 53 * 2 ^ (971 : ℤ) :=
      hlt.trans (mul_lt_mul_of_pos_right (by norm_num) hgreatest)
    have hunit : (2 : ℚ) ^ unitExponent q ≤ 2 ^ (971 : ℤ) := by
      rw [← zpow_natCast, ← zpow_add₀ (by norm_num)] at hbelow
      have hlog : Int.log 2 q < (53 : ℕ) + 971 :=
        (Int.lt_zpow_iff_log_lt (by norm_num) hpos).1 hbelow
      refine zpow_le_zpow_right₀ (by norm_num) ?_
      rw [unitExponent]
      omega
    -- A greater exponent would take the number half a unit beyond the greatest one.
    by_contra hgt
    have hpow : (2 : ℚ) ^ (971 : ℤ) * 2 ≤ 2 ^ e := by
      rw [← zpow_add_one₀ (by norm_num)]
      exact zpow_le_zpow_right₀ (by norm_num) (by omega)
    have hleading : (2 : ℚ) ^ 52 ≤ m := by exact_mod_cast hc.leading.resolve_right (by omega)
    have hle : 2 ^ 52 * (2 ^ (971 : ℤ) * 2) ≤ (m : ℚ) * 2 ^ e :=
      mul_le_mul hleading hpow (by positivity) (by positivity)
    have habove := (abs_le.1 herror).2
    generalize (2 : ℚ) ^ (971 : ℤ) = greatest at *
    linarith

theorem pack_too_large {m : ℕ} {e : ℤ} (hm : 0 < m) (he : 971 < e) :
    Float.ofModel (.pack (.finite .positive m e hm)) = .inf := by
  have hbiased : 2 ^ Format.binary64.exponentBits ≤
      (e + Format.binary64.exponentBias + Format.binary64.mantissaBitsWithoutImplicit).toNat +
        1 := by
    change 2 ^ 11 ≤ (e + (1023 : ℕ) + (52 : ℕ)).toNat + 1
    omega
  have hbits : UnpackedFloat.pack .binary64 (.finite .positive m e hm) =
      packedInfinity .binary64 .positive := by
    simp only [UnpackedFloat.pack, hbiased, if_true]
  exact eq_of_toBits (UInt64.toBitVec_inj.1 hbits)

theorem ofFloat_pack_too_large {m : ℕ} {e : ℤ} (hm : 0 < m) (he : 971 < e) :
    Binary64.ofFloat (.ofModel (.pack (.finite .positive m e hm))) = .infinite false := by
  rw [pack_too_large hm he]
  rfl

/-- What is too large for binary64 is rounded to infinity. -/
theorem rounded_eq_inf {q : ℚ} (h : 2 ^ (1024 : ℤ) ≤ q) : rounded q = .inf := by
  have hq : 0 < q := (zpow_pos (by norm_num) _).trans_le h
  have hlog : 1024 ≤ Int.log 2 q :=
    (Int.zpow_le_iff_le_log (by norm_num) hq).1 (by exact_mod_cast h)
  have hunit : 971 < unitExponent q := by
    rw [unitExponent]
    omega
  have hpow : (0 : ℚ) < 2 ^ unitExponent q := by positivity
  have hleading : 2 ^ 52 ≤ nearestEven (q / 2 ^ unitExponent q) := by
    refine le_nearestEven ?_
    rw [le_div_iff₀ hpow]
    exact_mod_cast unit_le hq (by omega)
  rw [rounded, nearest]
  split_ifs with hcarry hzero
  · exact pack_too_large _ (by omega)
  · omega
  · exact pack_too_large _ hunit

/-- What is too small for binary64 is rounded to zero. -/
theorem rounded_eq_zero {q : ℚ} (hq : 0 ≤ q) (h : q < 2 ^ (-1075 : ℤ)) : rounded q = 0 := by
  have hpow : (0 : ℚ) < 2 ^ unitExponent q := by positivity
  have hunit : (2 : ℚ) ^ (-1074 : ℤ) ≤ 2 ^ unitExponent q :=
    zpow_le_zpow_right₀ (by norm_num) (le_unitExponent q)
  have htwice : (2 : ℚ) ^ (-1074 : ℤ) = 2 ^ 1 * 2 ^ (-1075 : ℤ) := two_zpow_eq 1 rfl
  have hnear : nearestEven (q / 2 ^ unitExponent q) = 0 := by
    refine nearestEven_eq (by positivity) ?_
    rw [Nat.cast_zero, sub_zero, abs_of_nonneg (by positivity), div_lt_iff₀ hpow]
    linarith
  have hzero : nearest q = .zero .positive := by simp [nearest, hnear]
  rw [rounded, hzero]
  rfl

@[simp] theorem rounded_zero : rounded 0 = 0 := rounded_eq_zero le_rfl (by positivity)

/-- What a number is rounded to is half a unit away at most. -/
theorem Represents.abs_sub_le {p q : ℚ} (h : Represents (rounded q) p) (hq : 0 < q) :
    |p - q| ≤ 2 ^ unitExponent q / 2 := by
  rcases nearest_spec hq with ⟨hnearest, -⟩ | ⟨m, e, hm, hnearest, hc, herror⟩
  · obtain ⟨m', e', hx, hm', -⟩ := h
    rw [rounded, hnearest] at hx
    have hzero : Binary64.ofFloat (.ofModel (.pack (.zero .positive))) =
        .finite false 0 (-1074) := rfl
    exact absurd (Binary64.finite.inj (hzero.symm.trans hx)).2.1 hm'.ne
  · obtain ⟨m', e', hx, hm', rfl⟩ := h
    rw [rounded, hnearest] at hx
    by_cases he : e ≤ 971
    · obtain ⟨-, rfl, rfl⟩ := Binary64.finite.inj ((ofFloat_pack hm hc he).symm.trans hx)
      exact herror
    · exact absurd ((ofFloat_pack_too_large hm (not_le.1 he)).symm.trans hx) nofun

/-! ## Operations -/

theorem le_unitExponent_of_le {m : ℕ} {e : ℤ} (h : 2 ^ 52 ≤ m) : e ≤ unitExponent (m * 2 ^ e) := by
  have hm : (2 : ℚ) ^ 52 ≤ m := by exact_mod_cast h
  have hpos : (0 : ℚ) < m * 2 ^ e := by positivity
  have hlog : 52 + e ≤ Int.log 2 ((m : ℚ) * 2 ^ e) := by
    refine (Int.zpow_le_iff_le_log (by norm_num) hpos).1 ?_
    rw [Nat.cast_ofNat, zpow_add₀ (by norm_num)]
    exact mul_le_mul_of_nonneg_right hm (by positivity)
  rw [unitExponent]
  omega

/-- A product is rounded once, if the factors have enough bits. -/
theorem mul_finite {m₁ m₂ : ℕ} {e₁ e₂ : ℤ} (h₁ : 0 < m₁) (h₂ : 0 < m₂)
    (h : 2 ^ 52 ≤ m₁ * m₂ ∨ e₁ + e₂ ≤ -1074) :
    UnpackedFloat.mul .binary64 (.finite .positive m₁ e₁ h₁) (.finite .positive m₂ e₂ h₂) =
      nearest (m₁ * 2 ^ e₁ * (m₂ * 2 ^ e₂)) := by
  have hvalue : (m₁ : ℚ) * 2 ^ e₁ * (m₂ * 2 ^ e₂) = (m₁ * m₂ : ℕ) * 2 ^ (e₁ + e₂) := by
    rw [zpow_add₀ (by norm_num)]
    push_cast
    ring
  have hpos : 0 < m₁ * m₂ := Nat.mul_pos h₁ h₂
  rw [hvalue]
  have hexact : Accurate (m₁ * m₂) ((m₁ * m₂ : ℕ) : ℚ) .exact := rfl
  refine roundWithAccuracy_eq hexact (by exact_mod_cast hpos) ?_
  rcases h with h | h
  · exact le_unitExponent_of_le h
  · exact h.trans (le_unitExponent _)

theorem Represents.mul {x y : Float} {p q : ℚ} (hx : Represents x p) (hy : Represents y q) :
    x * y = rounded (p * q) := by
  obtain ⟨m₁, e₁, h₁, hux, hc₁, rfl⟩ := hx.unpack
  obtain ⟨m₂, e₂, h₂, huy, hc₂, rfl⟩ := hy.unpack
  change Float.ofModel (.pack (.mul .binary64 x.toModel.unpack y.toModel.unpack)) = _
  rw [hux, huy, mul_finite h₁ h₂, rounded]
  rcases hc₁.leading with hm | he₁
  · exact .inl (hm.trans (Nat.le_mul_of_pos_right _ h₂))
  · rcases hc₂.leading with hm | he₂
    · exact .inl (hm.trans (Nat.le_mul_of_pos_left _ h₁))
    · exact .inr (by omega)

/-- A quotient lies between two natural numbers, on the side that the remainder tells. -/
theorem accurate_div {m d : ℕ} (hd : 0 < d) :
    Accurate (m / d) ((m : ℚ) / d) (accuracyOfFraction (m % d) d) := by
  have hdpos : (0 : ℚ) < d := by exact_mod_cast hd
  have hlt : ((m % d : ℕ) : ℚ) < d := by exact_mod_cast Nat.mod_lt m hd
  rw [accuracyOfFraction, div_eq_add_mod_div m hd]
  generalize m % d = r at hlt
  split_ifs with hr
  · change ((m / d : ℕ) : ℚ) + (r : ℚ) / d = (m / d : ℕ)
    rw [hr, Nat.cast_zero, zero_div, add_zero]
  · have hrpos : (0 : ℚ) < r := by exact_mod_cast Nat.pos_of_ne_zero hr
    refine ⟨lt_add_of_pos_right _ (div_pos hrpos hdpos), ?_, ?_⟩
    · exact add_lt_add_right ((div_lt_one hdpos).2 hlt) _
    · rw [add_sub_cancel_left]
      rcases lt_trichotomy (2 * r) d with h | h | h
      · have hq : 2 * (r : ℚ) < d := by exact_mod_cast h
        rw [compare_lt_iff_lt.2 h, compare_lt_iff_lt, div_lt_iff₀ hdpos]
        linarith
      · have hq : 2 * (r : ℚ) = d := by exact_mod_cast h
        rw [compare_eq_iff_eq.2 h, compare_eq_iff_eq, div_eq_iff hdpos.ne']
        linarith
      · have hq : (d : ℚ) < 2 * r := by exact_mod_cast h
        rw [compare_gt_iff_gt.2 h, compare_gt_iff_gt, lt_div_iff₀ hdpos]
        linarith

/-- A quotient is rounded once. -/
theorem div_finite {m₁ m₂ : ℕ} {e₁ e₂ : ℤ} (h₁ : 0 < m₁) (h₂ : 0 < m₂) :
    UnpackedFloat.div .binary64 (.finite .positive m₁ e₁ h₁) (.finite .positive m₂ e₂ h₂) =
      nearest (m₁ * 2 ^ e₁ / (m₂ * 2 ^ e₂)) := by
  have hm₁ : (0 : ℚ) < m₁ := by exact_mod_cast h₁
  have hm₂ : (0 : ℚ) < m₂ := by exact_mod_cast h₂
  set target := min (e₁ - e₂) (Format.binary64.targetExponent
    (totalExponent m₁ e₁ - totalExponent m₂ e₂)) with htarget
  set shift := (e₁ - e₂ - target).toNat with hshift
  have hexponent : e₁ - e₂ = shift + target := by omega
  have hvalue : (m₁ : ℚ) * 2 ^ e₁ / (m₂ * 2 ^ e₂) =
      ((m₁ <<< shift : ℕ) : ℚ) / m₂ * 2 ^ target := by
    have hpow : (2 : ℚ) ^ e₁ = 2 ^ shift * 2 ^ target * 2 ^ e₂ := by
      rw [← zpow_natCast, ← zpow_add₀ (by norm_num), ← zpow_add₀ (by norm_num)]
      congr 1
      omega
    rw [hpow, Nat.shiftLeft_eq]
    push_cast
    field_simp
  have hpos : (0 : ℚ) < ((m₁ <<< shift : ℕ) : ℚ) / m₂ := by
    rw [Nat.shiftLeft_eq]
    push_cast
    positivity
  -- The quotient has as many bits as a significand, or more.
  have hunit : target ≤ unitExponent (m₁ * 2 ^ e₁ / (m₂ * 2 ^ e₂)) := by
    have hlower : (2 : ℚ) ^ m₁.log2 ≤ m₁ := by exact_mod_cast Nat.log2_self_le h₁.ne'
    have hupper : (m₂ : ℚ) ≤ 2 ^ (m₂.log2 + 1) := by exact_mod_cast Nat.lt_log2_self.le
    have hlog : (m₁.log2 : ℤ) - (m₂.log2 + 1) + (e₁ - e₂) ≤
        Int.log 2 ((m₁ : ℚ) * 2 ^ e₁ / (m₂ * 2 ^ e₂)) := by
      refine (Int.zpow_le_iff_le_log (by norm_num) (by positivity)).1 ?_
      have hpow : (2 : ℚ) ^ ((m₁.log2 : ℤ) - (m₂.log2 + 1) + (e₁ - e₂)) =
          2 ^ m₁.log2 * 2 ^ e₁ / (2 ^ (m₂.log2 + 1) * 2 ^ e₂) := by
        rw [zpow_add₀ (by norm_num), zpow_sub₀ (by norm_num), zpow_sub₀ (by norm_num),
          zpow_natCast, div_mul_div_comm]
        norm_cast
      rw [Nat.cast_ofNat, hpow]
      gcongr
    rw [targetExponent_eq, totalExponent, totalExponent] at htarget
    rw [unitExponent]
    omega
  rw [hvalue] at hunit ⊢
  exact roundWithAccuracy_eq (accurate_div h₂) hpos hunit

theorem Represents.div {x y : Float} {p q : ℚ} (hx : Represents x p) (hy : Represents y q) :
    x / y = rounded (p / q) := by
  obtain ⟨m₁, e₁, h₁, hux, -, rfl⟩ := hx.unpack
  obtain ⟨m₂, e₂, h₂, huy, -, rfl⟩ := hy.unpack
  change Float.ofModel (.pack (.div .binary64 x.toModel.unpack y.toModel.unpack)) = _
  rw [hux, huy, div_finite h₁ h₂, rounded]

/-- A natural number is rounded once. -/
theorem toFloat_eq {n : ℕ} (hpos : 0 < n) (hlt : n < 2 ^ 64) : n.toUInt64.toFloat = rounded n := by
  have hcast : n.toUInt64.toNat = n := Nat.mod_eq_of_lt hlt
  have hcompare : compare (n : ℤ) 0 = .gt := compare_gt_iff_gt.2 (by exact_mod_cast hpos)
  have hlog : Int.log 2 (n : ℚ) = n.log2 := by
    rw [Int.log_natCast, Nat.log2_eq_log_two]
  change Float.ofModel (.pack (UnpackedFloat.normalize .binary64 n.toUInt64.toNat 0 .positive)) = _
  rw [hcast, UnpackedFloat.normalize, hcompare, rounded]
  congr 2
  set shift := (0 - Format.binary64.targetExponent (totalExponent n 0)).toNat with hshift
  have hvalue : (n : ℚ) = ((n <<< shift : ℕ) : ℚ) * 2 ^ (-(shift : ℤ)) := by
    rw [Nat.shiftLeft_eq, zpow_neg, zpow_natCast]
    push_cast
    field_simp
  have hunit : -(shift : ℤ) ≤ unitExponent n := by
    rw [targetExponent_eq, totalExponent] at hshift
    rw [unitExponent, hlog]
    omega
  have hshifted : (0 : ℚ) < (n <<< shift : ℕ) := by
    rw [Nat.shiftLeft_eq]
    positivity
  rw [hvalue] at hunit ⊢
  have hround : roundWithAccuracy .binary64 .positive (n <<< shift) (0 - shift) .exact =
      nearest ((n <<< shift : ℕ) * 2 ^ (-(shift : ℤ))) := by
    rw [zero_sub]
    exact roundWithAccuracy_eq rfl hshifted hunit
  exact hround

/-! ## Decimal numbers -/

theorem toRat?_finite (negative : Bool) (m : ℕ) (e : ℤ) :
    (Binary64.finite negative m e).toRat? =
      some ((if negative then -1 else 1) * (m * 2 ^ e : ℚ)) := by
  have hsigned : (((if negative then -(m : ℤ) else m : ℤ)) : ℚ) =
      (if negative then -1 else 1) * m := by
    cases negative <;> simp
  rw [Binary64.toRat?, ← mul_assoc, ← hsigned]
  generalize (if negative then -(m : ℤ) else m) = signed
  by_cases he : 0 ≤ e
  · obtain ⟨k, rfl⟩ := Int.eq_ofNat_of_zero_le he
    have hpow : ((Nat.pow 2 k : ℕ) : ℚ) = 2 ^ k := Nat.cast_pow 2 k
    simp only [he, if_true, Int.toNat_natCast, Int.cast_mul, Int.cast_natCast, hpow, zpow_natCast]
  · obtain ⟨k, hk⟩ := Int.eq_ofNat_of_zero_le (neg_nonneg.2 (not_le.1 he).le)
    obtain rfl : e = -k := by omega
    have hpow : ((Nat.pow 2 k : ℕ) : ℚ) = 2 ^ k := Nat.cast_pow 2 k
    simp only [he, if_false, neg_neg, Int.toNat_natCast, Rat.mkRat_eq_div, hpow, zpow_neg,
      zpow_natCast, div_eq_mul_inv]

theorem represents_of_toRat? {x : Float} {q : ℚ} (h : (Binary64.ofFloat x).toRat? = some q)
    (hq : 0 < q) : Represents x q := by
  cases hx : Binary64.ofFloat x with
  | finite negative m e =>
    rw [hx, toRat?_finite] at h
    obtain rfl := Option.some.inj h
    have hnonneg : (0 : ℚ) ≤ m * 2 ^ e := by positivity
    cases negative with
    | true => exact absurd hq (by simpa using hnonneg)
    | false =>
      have hm : 0 < m := by
        refine Nat.pos_of_ne_zero fun hzero => hq.ne' ?_
        rw [hzero, Nat.cast_zero, zero_mul, mul_zero]
      exact ⟨m, e, hx, hm, by simp⟩
  | _ =>
    rw [hx] at h
    cases h

theorem Represents.toRat? {x : Float} {q : ℚ} (h : Represents x q) :
    (Binary64.ofFloat x).toRat? = some q := by
  obtain ⟨m, e, hx, -, rfl⟩ := h
  rw [hx, toRat?_finite]
  simp

/-- A number is its magnitude with its sign. -/
theorem signed_abs {x : Float} {negative : Bool} {m : ℕ} {e : ℤ}
    (hx : Binary64.ofFloat x = .finite negative m e) (hm : 0 < m) :
    (if negative then -x.abs else x.abs) = x := by
  have habs := ofFloat_abs hx hm
  cases negative with
  | true => exact eq_of_ofFloat (ofFloat_neg habs hm) hx
  | false => exact eq_of_ofFloat habs hx

theorem Represents.toRat?_signed {x : Float} {q : ℚ} (h : Represents x q) (negative : Bool) :
    (Binary64.ofFloat (if negative then -x else x)).toRat? =
      some ((if negative then -1 else 1) * q) := by
  obtain ⟨m, e, hx, hm, rfl⟩ := h
  cases negative with
  | true => exact (congrArg Binary64.toRat? (ofFloat_neg hx hm)).trans (toRat?_finite true m e)
  | false => exact (congrArg Binary64.toRat? hx).trans (toRat?_finite false m e)

/-- The powers of ten up to the greatest that needs no more than 53 bits. -/
theorem represents_powers : ∀ e (h : e < Float.exactlyRepresentablePowersOfTen.size),
    Represents Float.exactlyRepresentablePowersOfTen[e] (10 ^ e) := by
  have htable : ∀ e (h : e < Float.exactlyRepresentablePowersOfTen.size),
      (Binary64.ofFloat Float.exactlyRepresentablePowersOfTen[e]).toRat? =
        some ((Nat.pow 10 e : ℕ) : ℚ) := by
    decide +kernel
  intro e h
  refine represents_of_toRat? ((htable e h).trans ?_) (by positivity)
  exact congrArg some (Nat.cast_pow 10 e)

/-- A natural number of at most 53 bits is not rounded. -/
theorem represents_toFloat {n : ℕ} (hpos : 0 < n) (hlt : n < 2 ^ 53) :
    Represents n.toUInt64.toFloat n := by
  have hrounded := represents_rounded (e := 0) hpos hlt (by norm_num) (by norm_num)
  rw [zpow_zero, mul_one] at hrounded
  rwa [toFloat_eq hpos (hlt.trans (by norm_num))]

theorem powers_zero : ∀ e (h : e < Float.exactlyRepresentablePowersOfTen.size),
    (0 : UInt64).toFloat / Float.exactlyRepresentablePowersOfTen[e] = 0 ∧
      (0 : UInt64).toFloat * Float.exactlyRepresentablePowersOfTen[e] = 0 := by
  have hbits : ∀ e (h : e < Float.exactlyRepresentablePowersOfTen.size),
      ((0 : UInt64).toFloat / Float.exactlyRepresentablePowersOfTen[e]).toBits = 0 ∧
        ((0 : UInt64).toFloat * Float.exactlyRepresentablePowersOfTen[e]).toBits = 0 := by
    decide +kernel
  exact fun e h => (hbits e h).imp eq_of_toBits eq_of_toBits

/-- A power of ten may be too large on its own. -/
theorem le_of_large_power {m : ℕ} {k : ℤ} (hm : 0 < m) (hk : 2 ^ 11 < k) :
    2 ^ (1024 : ℤ) ≤ (m : ℚ) * 10 ^ k := by
  have hone : (1 : ℚ) ≤ m := by exact_mod_cast hm
  calc (2 : ℚ) ^ (1024 : ℤ) ≤ 10 ^ (309 : ℤ) := greatest_lt_ten_zpow.le
    _ ≤ 10 ^ k := zpow_le_zpow_right₀ (by norm_num) (by omega)
    _ ≤ m * 10 ^ k := le_mul_of_one_le_left (by positivity) hone

/-- A power of ten may be too small for the bits of the significand. -/
theorem lt_of_small_power {m : ℕ} {k : ℤ} (hk : k < -(2 ^ 11 + (m.log2 : ℤ))) :
    (m : ℚ) * 10 ^ k < 2 ^ (-1075 : ℤ) := by
  have hbits : (m : ℚ) < 2 ^ ((m.log2 : ℤ) + 1) := by exact_mod_cast Nat.lt_log2_self
  have hten : (10 : ℚ) ^ k ≤ 2 ^ k := by
    obtain ⟨n, hn⟩ := Int.eq_ofNat_of_zero_le (a := -k) (by omega)
    obtain rfl : k = -n := by omega
    rw [zpow_neg, zpow_neg, zpow_natCast, zpow_natCast]
    exact inv_anti₀ (by positivity) (pow_le_pow_left₀ (by norm_num) (by norm_num) n)
  calc (m : ℚ) * 10 ^ k < 2 ^ ((m.log2 : ℤ) + 1) * 10 ^ k :=
        mul_lt_mul_of_pos_right hbits (by positivity)
    _ ≤ 2 ^ ((m.log2 : ℤ) + 1) * 2 ^ k := mul_le_mul_of_nonneg_left hten (by positivity)
    _ = 2 ^ ((m.log2 : ℤ) + 1 + k) := (zpow_add₀ (by norm_num) _ _).symm
    _ ≤ 2 ^ (-1075 : ℤ) := zpow_le_zpow_right₀ (by norm_num) (by omega)

/-- With unlimited parts, a decimal number is rounded once. -/
theorem model_ofScientific_eq (m : ℕ) (k : ℤ) :
    Float.ofModel (.ofScientific m k) = rounded (m * 10 ^ k) := by
  have hexponent : Format.exponentBits .binary64 = 11 := rfl
  have hbits : Format.mantissaBits .binary64 = 53 := rfl
  rw [Float.Model.ofScientific, UnpackedFloat.ofScientific, hexponent]
  split_ifs with hm hlarge hsmall hk
  · rw [hm, Nat.cast_zero, zero_mul, rounded_zero]
    rfl
  · rw [rounded_eq_inf (le_of_large_power (Nat.pos_of_ne_zero hm) hlarge)]
    rfl
  · rw [rounded_eq_zero (by positivity) (lt_of_small_power hsmall)]
    rfl
  · obtain ⟨e, rfl⟩ := Int.eq_ofNat_of_zero_le hk
    have henough : 2 ^ 52 ≤ m <<< 53 * 10 ^ e := by
      have hpos : 1 ≤ m := Nat.pos_of_ne_zero hm
      rw [Nat.shiftLeft_eq]
      calc 2 ^ 52 ≤ 1 * 2 ^ 53 * 1 := by norm_num
        _ ≤ m * 2 ^ 53 * 10 ^ e := by gcongr; exact Nat.one_le_pow _ _ (by norm_num)
    rw [rounded]
    congr 2
    simp only [hbits, Int.toNat_natCast]
    refine (mul_finite _ _ (.inl henough)).trans (congrArg nearest ?_)
    rw [Nat.shiftLeft_eq, zpow_natCast, zpow_neg, zpow_natCast, zpow_zero, mul_one]
    push_cast
    field_simp
    norm_num
  · obtain ⟨e, he⟩ := Int.eq_ofNat_of_zero_le (neg_nonneg.2 (not_le.1 hk).le)
    obtain rfl : k = -e := by omega
    rw [rounded]
    congr 2
    simp only [neg_neg, Int.toNat_natCast]
    refine (div_finite _ _).trans (congrArg nearest ?_)
    rw [zpow_neg, zpow_natCast, zpow_zero, mul_one, mul_one, ← div_eq_mul_inv]
    push_cast
    rfl

/-- A decimal number is rounded once, however its parts are kept. -/
theorem ofScientific_eq (m : ℕ) (s : Bool) (e : ℕ) :
    Float.ofScientific m s e = rounded (if s then m / 10 ^ e else m * 10 ^ e) := by
  rw [Float.ofScientific]
  split_ifs with hfast hs
  · rcases Nat.eq_zero_or_pos m with rfl | hm
    · rw [Nat.cast_zero, zero_div, rounded_zero]
      exact (powers_zero e _).1
    · exact (represents_toFloat hm hfast.1).div (represents_powers e _)
  · rcases Nat.eq_zero_or_pos m with rfl | hm
    · rw [Nat.cast_zero, zero_mul, rounded_zero]
      exact (powers_zero e _).2
    · exact (represents_toFloat hm hfast.1).mul (represents_powers e _)
  · have hmodel := model_ofScientific_eq m (-(e : ℤ))
    rw [zpow_neg, zpow_natCast, ← div_eq_mul_inv] at hmodel
    rw [← hmodel, Int.negOfNat_eq]
    rfl
  · have hmodel := model_ofScientific_eq m e
    rw [zpow_natCast] at hmodel
    exact hmodel

end Lindenmayer

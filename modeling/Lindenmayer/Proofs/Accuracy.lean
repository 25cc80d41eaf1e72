import Lindenmayer.Proofs.Scaling

/-!
# Accuracy of numbers read

A number is read with one rounding for its significand, one for each power of ten, and one for
each product or quotient. Relative errors add up (`Within.mul`, `Within.div`), so that what is
read differs from what is written by a few roundings (`exists_scale?`).

* The only large error is the one of the last rounding, below the least normal number, where
  the unit does not shrink any more. For that reason it is kept apart.
* There is no error if the significand and the power of ten are exact (`scale?_exact`).
-/

namespace Lindenmayer

/-! ## Relative errors -/

/-- Two positive numbers, neither of which falls short of the other by more than a part `ε`
    of it. -/
structure Within (ε p q : ℚ) : Prop where
  nonneg : 0 ≤ ε
  pos : 0 < p
  pos' : 0 < q
  le : (1 - ε) * q ≤ p
  le' : (1 - ε) * p ≤ q

namespace Within

variable {ε δ p q r p' q' : ℚ}

theorem symm (h : Within ε p q) : Within ε q p := ⟨h.nonneg, h.pos', h.pos, h.le', h.le⟩

theorem of_abs_sub_le (hε : 0 ≤ ε) (hε' : ε < 1) (hq : 0 < q) (h : |p - q| ≤ ε * q) :
    Within ε p q := by
  obtain ⟨hlower, hupper⟩ := abs_le.1 h
  have hle : (1 - ε) * q ≤ p := by linarith
  refine ⟨hε, (mul_pos (by linarith) hq).trans_le hle, hq, hle, ?_⟩
  calc (1 - ε) * p ≤ (1 - ε) * ((1 + ε) * q) :=
        mul_le_mul_of_nonneg_left (by linarith) (by linarith)
    _ = q - ε ^ 2 * q := by ring
    _ ≤ q := sub_le_self _ (by positivity)

/-- Two shortages in a row are no more than their sum. -/
theorem le_mul (hε : 0 ≤ ε) (hδ : 0 ≤ δ) (hp : 0 < p) (hr : 0 < r)
    (hpq : (1 - ε) * q ≤ p) (hqr : (1 - δ) * r ≤ q) : (1 - (ε + δ)) * r ≤ p := by
  rcases le_or_gt ε 1 with hle | hgt
  · calc (1 - (ε + δ)) * r ≤ (1 - ε) * ((1 - δ) * r) := by nlinarith [mul_nonneg hε hδ]
      _ ≤ (1 - ε) * q := mul_le_mul_of_nonneg_left hqr (by linarith)
      _ ≤ p := hpq
  · exact (mul_nonpos_of_nonpos_of_nonneg (by linarith) hr.le).trans hp.le

theorem trans (hpq : Within ε p q) (hqr : Within δ q r) : Within (ε + δ) p r where
  nonneg := add_nonneg hpq.nonneg hqr.nonneg
  pos := hpq.pos
  pos' := hqr.pos'
  le := le_mul hpq.nonneg hqr.nonneg hpq.pos hqr.pos' hpq.le hqr.le
  le' := by
    rw [add_comm]
    exact le_mul hqr.nonneg hpq.nonneg hqr.pos' hpq.pos hqr.le' hpq.le'

theorem mul_right (h : Within ε p q) (hr : 0 < r) : Within ε (p * r) (q * r) where
  nonneg := h.nonneg
  pos := mul_pos h.pos hr
  pos' := mul_pos h.pos' hr
  le := by
    rw [← mul_assoc]
    exact mul_le_mul_of_nonneg_right h.le hr.le
  le' := by
    rw [← mul_assoc]
    exact mul_le_mul_of_nonneg_right h.le' hr.le

theorem mul (h : Within ε p q) (h' : Within δ p' q') : Within (ε + δ) (p * p') (q * q') := by
  have hfirst := h.mul_right h'.pos
  have hsecond := h'.mul_right h.pos'
  rw [mul_comm p' q, mul_comm q' q] at hsecond
  exact hfirst.trans hsecond

theorem inv (h : Within ε p q) : Within ε p⁻¹ q⁻¹ := by
  have hp := h.pos
  have hq := h.pos'
  have hswap := h.symm.mul_right (inv_pos.2 (mul_pos hp hq))
  have hleft : q * (p * q)⁻¹ = p⁻¹ := by field_simp
  have hright : p * (p * q)⁻¹ = q⁻¹ := by field_simp
  rwa [hleft, hright] at hswap

theorem div (h : Within ε p q) (h' : Within δ p' q') : Within (ε + δ) (p / p') (q / q') := by
  rw [div_eq_mul_inv, div_eq_mul_inv]
  exact h.mul h'.inv

theorem mono (h : Within ε p q) (hle : ε ≤ δ) : Within δ p q where
  nonneg := h.nonneg.trans hle
  pos := h.pos
  pos' := h.pos'
  le := (mul_le_mul_of_nonneg_right (by linarith) h.pos'.le).trans h.le
  le' := (mul_le_mul_of_nonneg_right (by linarith) h.pos.le).trans h.le'

end Within

/-! ## One rounding -/

theorem least_pos : (0 : ℚ) < 2 ^ (-1074 : ℤ) := zpow_pos (by norm_num) _

theorem Represents.abs_sub_le_add {p q : ℚ} (h : Represents (rounded q) p) (hq : 0 < q) :
    |p - q| ≤ q / 2 ^ 53 + 2 ^ (-1074 : ℤ) / 2 :=
  (h.abs_sub_le hq).trans (half_unit_le hq)

/-- A normal number is rounded with a small relative error. -/
theorem Represents.within {p q : ℚ} (h : Represents (rounded q) p) (hq : 2 ^ (-1022 : ℤ) ≤ q) :
    Within (1 / 2 ^ 53) p q := by
  have hpos : 0 < q := (zpow_pos (by norm_num) _).trans_le hq
  have hhalf : (2 : ℚ) ^ unitExponent q / 2 ≤ 1 / 2 ^ 53 * q := by
    by_cases hunit : unitExponent q = -1074
    · have hsplit : (2 : ℚ) ^ (-1022 : ℤ) = 2 ^ 52 * 2 ^ (-1074 : ℤ) := two_zpow_eq 52 rfl
      rw [hsplit] at hq
      rw [hunit]
      linarith
    · have hle := unit_le hpos hunit
      linarith
  exact .of_abs_sub_le (by norm_num) (by norm_num) hpos ((h.abs_sub_le hpos).trans hhalf)

/-- Not far below the normal numbers, the relative error is not much larger. -/
theorem Represents.within_of_le {p q : ℚ} (h : Represents (rounded q) p)
    (hq : 2 ^ (-1024 : ℤ) ≤ q) : Within (5 / 2 ^ 53) p q := by
  have hpos : 0 < q := (zpow_pos (by norm_num) _).trans_le hq
  have hsplit : (2 : ℚ) ^ (-1024 : ℤ) = 2 ^ 50 * 2 ^ (-1074 : ℤ) := two_zpow_eq 50 rfl
  rw [hsplit] at hq
  have herror := h.abs_sub_le_add hpos
  exact .of_abs_sub_le (by norm_num) (by norm_num) hpos (by linarith)

/-- A number from one up to far below the greatest is rounded with a small relative error. -/
theorem exists_represents_within {q : ℚ} (hone : 1 ≤ q) (hlt : q < overflowBound) :
    ∃ p, Represents (rounded q) p ∧ Within (1 / 2 ^ 53) p q := by
  have hle : ∀ e : ℤ, e ≤ 0 → (2 : ℚ) ^ e ≤ q := fun e he =>
    (zpow_le_one_of_nonpos₀ (by norm_num) he).trans hone
  obtain ⟨p, hp, -⟩ := exists_represents_rounded (hle _ (by norm_num)) hlt
  exact ⟨p, hp, hp.within (hle _ (by norm_num))⟩

namespace Json.Number

/-! ## Parts -/

theorem exists_represents_toFloat {w : ℕ} (hw : 0 < w) (hlt : w < 2 ^ 64) :
    ∃ a, Represents w.toUInt64.toFloat a ∧ Within (1 / 2 ^ 53) a w := by
  have hle : (w : ℚ) ≤ 2 ^ (1023 : ℤ) :=
    calc (w : ℚ) ≤ 2 ^ (64 : ℤ) := by exact_mod_cast hlt.le
      _ ≤ 2 ^ (1023 : ℤ) := zpow_le_zpow_right₀ (by norm_num) (by norm_num)
  rw [toFloat_eq hw hlt]
  exact exists_represents_within (by exact_mod_cast hw) (lt_overflowBound hle)

theorem exists_represents_powerOfTen {e : ℕ} (he : e ≤ greatestPower) :
    ∃ b, Represents (powerOfTen e) b ∧ Within (1 / 2 ^ 53) b (10 ^ e) := by
  have he' : e ≤ 308 := he
  have hlt : (10 : ℚ) ^ e < overflowBound := by
    have hpow : (10 : ℚ) ^ e ≤ 10 ^ 308 := pow_le_pow_right₀ (by norm_num) he'
    have hnat : 10 ^ 308 < 3 * 2 ^ 51 * 2 ^ 971 := by decide +kernel
    have hcast : (10 : ℚ) ^ 308 < 3 * 2 ^ 51 * 2 ^ (971 : ℤ) := by exact_mod_cast hnat
    refine hpow.trans_lt (hcast.trans ?_)
    exact mul_lt_mul_of_pos_right (by norm_num) (by positivity)
  rw [powerOfTen_eq]
  exact exists_represents_within (one_le_pow₀ (by norm_num)) hlt

/-! ## Scaling -/

theorem beq_zero_of_represents {x : Float} {q : ℚ} (h : Represents x q) : (x == 0) = false := by
  obtain ⟨m, e, hm, hx, -, -⟩ := h.unpack
  change (x.toModel.unpack.compare (0 : Float).toModel.unpack == some .eq) = false
  rw [hx]
  rfl

variable {w : ℕ}

/-- Scaled up, a number is rounded last as a product that is nearly exact. -/
theorem exists_scaleUp? {a : ℚ} {x : Float} {e : ℕ} (hx : Represents x a)
    (ha : Within (1 / 2 ^ 53) a w) (he : e ≤ greatestPower) :
    ∃ p, Within (2 / 2 ^ 53) p (w * 10 ^ (e : ℤ)) ∧
      ∀ y, Represents (rounded p) y → scaleUp? x e = some (rounded p) := by
  obtain ⟨b, hb, hbe⟩ := exists_represents_powerOfTen he
  refine ⟨a * b, ?_, fun y hy => ?_⟩
  · rw [zpow_natCast]
    exact (ha.mul hbe).mono (by norm_num)
  · have hfinite := isInf_of_represents hy
    rw [scaleUp?, if_pos he, hx.mul hb]
    simp only [hfinite, Bool.false_eq_true, if_false]

/-- What is divided by the greatest power of ten stays near the normal numbers. -/
theorem least_le_of_within {q : ℚ} (h : Within (2 / 2 ^ 53) q (w / 10 ^ greatestPower))
    (hw : 0 < w) : (2 : ℚ) ^ (-1024 : ℤ) ≤ q := by
  have hpow : (10 : ℚ) ^ greatestPower * 4 ≤ 2 ^ (1024 : ℤ) * 3 := by
    have hnat : 10 ^ greatestPower * 4 ≤ 2 ^ 1024 * 3 := by decide +kernel
    exact_mod_cast hnat
  have hten : (0 : ℚ) < 10 ^ greatestPower := by positivity
  have htwo : (0 : ℚ) < 2 ^ (1024 : ℤ) := by positivity
  have hone : (1 : ℚ) ≤ w := by exact_mod_cast hw
  have hle := h.le
  rw [zpow_neg]
  generalize (10 : ℚ) ^ greatestPower = ten at *
  generalize (2 : ℚ) ^ (1024 : ℤ) = two at *
  have hquotient : 4 / 3 * two⁻¹ ≤ w / ten :=
    calc 4 / 3 * two⁻¹ ≤ 1 / ten := by
          rw [le_div_iff₀ hten, ← div_eq_mul_inv, div_mul_eq_mul_div, div_le_one htwo]
          linarith
      _ ≤ w / ten := by gcongr
  have hpos : 0 < two⁻¹ := inv_pos.2 htwo
  linarith

/-- What is divided by the greatest power of ten is far below the greatest numbers. -/
theorem div_le_of_represents {x : Float} {a b : ℚ} (hx : Represents x a)
    (hb : Within (1 / 2 ^ 53) b (10 ^ greatestPower)) : a / b ≤ 2 ^ (1023 : ℤ) := by
  have htwo : (2 : ℚ) ≤ b := by
    have hten : (10 : ℚ) ≤ 10 ^ greatestPower := le_self_pow₀ (by norm_num) (by decide)
    have hle := hb.le
    linarith
  rw [div_le_iff₀ hb.pos]
  calc a ≤ 2 ^ (1024 : ℤ) := hx.bounds.2.le
    _ = 2 ^ (1023 : ℤ) * 2 := zpow_add_one₀ (by norm_num) 1023
    _ ≤ 2 ^ (1023 : ℤ) * b := mul_le_mul_of_nonneg_left htwo (by positivity)

/-- Scaled down, a number is rounded last as a quotient that is nearly exact, also if it takes
    two divisions. -/
theorem exists_scaleDown {a : ℚ} {x : Float} {e : ℕ} (hx : Represents x a)
    (ha : Within (1 / 2 ^ 53) a w) (hw : 0 < w) (he : e ≤ 2 * greatestPower) :
    ∃ p, Within (8 / 2 ^ 53) p (w * 10 ^ (-(e : ℤ))) ∧ scaleDown x e = rounded p := by
  have hvalue : (w : ℚ) * 10 ^ (-(e : ℤ)) = w / 10 ^ e := by
    rw [zpow_neg, zpow_natCast, div_eq_mul_inv]
  rw [hvalue, scaleDown]
  by_cases hone : e ≤ greatestPower
  · obtain ⟨b, hb, hbe⟩ := exists_represents_powerOfTen hone
    rw [if_pos hone]
    exact ⟨a / b, (ha.div hbe).mono (by norm_num), hx.div hb⟩
  · obtain ⟨b, hb, hbe⟩ := exists_represents_powerOfTen (le_refl greatestPower)
    obtain ⟨c, hc, hce⟩ := exists_represents_powerOfTen (e := e - greatestPower) (by omega)
    have hquotient : Within (2 / 2 ^ 53) (a / b) (w / 10 ^ greatestPower) :=
      (ha.div hbe).mono (by norm_num)
    -- The first quotient may be a little below the normal numbers.
    have hge : (2 : ℚ) ^ (-1024 : ℤ) ≤ a / b := least_le_of_within hquotient hw
    have hlt : a / b ≤ 2 ^ (1023 : ℤ) := div_le_of_represents hx hbe
    obtain ⟨d, hd, -⟩ := exists_represents_rounded
      ((zpow_le_zpow_right₀ (by norm_num) (by norm_num)).trans hge) (lt_overflowBound hlt)
    have hnonzero := beq_zero_of_represents hx
    rw [if_neg hone, hnonzero, if_neg (by decide), hx.div hb, scaleDown, if_pos (by omega)]
    refine ⟨d / c, ?_, hd.div hc⟩
    have hsplit : (w : ℚ) / 10 ^ e = w / 10 ^ greatestPower / 10 ^ (e - greatestPower) := by
      rw [div_div, ← pow_add, Nat.add_sub_cancel' (not_le.1 hone).le]
    rw [hsplit]
    exact (((hd.within_of_le hge).trans hquotient).div hce).mono (by norm_num)

/-- Numbers of binary64 are scaled by no more than two powers of ten. -/
theorem power_bounds {e : ℤ} (hw : 0 < w) (hlt : w < 2 ^ 64)
    (hlow : 2 ^ (-1074 : ℤ) ≤ (w : ℚ) * 10 ^ e) (hup : (w : ℚ) * 10 ^ e ≤ 2 ^ (1024 : ℤ)) :
    -(2 * greatestPower) ≤ e ∧ e ≤ greatestPower := by
  have hone : (1 : ℚ) ≤ w := by exact_mod_cast hw
  have hten : (1 : ℚ) < 10 := by norm_num
  constructor
  · have hw20 : (w : ℚ) < 10 ^ (20 : ℤ) := by
      have hnat : w < 10 ^ 20 := hlt.trans (by norm_num)
      exact_mod_cast hnat
    have hlt' : (10 : ℚ) ^ (-324 : ℤ) < 10 ^ (20 + e) :=
      calc (10 : ℚ) ^ (-324 : ℤ) < w * 10 ^ e := ten_zpow_lt_least.trans_le hlow
        _ ≤ 10 ^ (20 : ℤ) * 10 ^ e := mul_le_mul_of_nonneg_right hw20.le (by positivity)
        _ = 10 ^ (20 + e) := (zpow_add₀ (by norm_num) _ _).symm
    have hexponent := (zpow_lt_zpow_iff_right₀ hten).1 hlt'
    simp only [greatestPower]
    omega
  · have hlt' : (10 : ℚ) ^ e < 10 ^ (309 : ℤ) :=
      calc (10 : ℚ) ^ e ≤ w * 10 ^ e := le_mul_of_one_le_left (by positivity) hone
        _ < 10 ^ (309 : ℤ) := hup.trans_lt greatest_lt_ten_zpow
    have hexponent := (zpow_lt_zpow_iff_right₀ hten).1 hlt'
    simp only [greatestPower]
    omega

/-- A decimal number is read with one rounding of what is nearly its value, unless it is among
    the very greatest or smallest numbers. -/
theorem exists_scale? {e : ℤ} (hw : 0 < w) (hlt : w < 2 ^ 64)
    (hlow : 5 / 4 * 2 ^ (-1074 : ℤ) ≤ (w : ℚ) * 10 ^ e)
    (hup : (w : ℚ) * 10 ^ e ≤ (2 ^ 53 - 3) * 2 ^ (971 : ℤ)) :
    ∃ p y, Within (8 / 2 ^ 53) p (w * 10 ^ e) ∧ scale? w e = some (rounded p) ∧
      Represents (rounded p) y := by
  have hleast := least_pos
  have hgreatest : (0 : ℚ) < 2 ^ (971 : ℤ) := zpow_pos (by norm_num) _
  have hlarge : (w : ℚ) * 10 ^ e ≤ 2 ^ (1024 : ℤ) :=
    calc (w : ℚ) * 10 ^ e ≤ (2 ^ 53 - 3) * 2 ^ (971 : ℤ) := hup
      _ ≤ 2 ^ 53 * 2 ^ (971 : ℤ) := mul_le_mul_of_nonneg_right (by norm_num) hgreatest.le
      _ = 2 ^ (1024 : ℤ) := (two_zpow_eq 53 rfl).symm
  obtain ⟨hmin, hmax⟩ := power_bounds hw hlt (by linarith) hlarge
  have hrepresents : ∀ p, Within (8 / 2 ^ 53) p (w * 10 ^ e) → p < overflowBound →
      ∃ y, Represents (rounded p) y := by
    intro p hp hover
    have hle := hp.le
    have hunder : 2 ^ (-1074 : ℤ) ≤ p := by
      -- The power is too small to be computed with.
      generalize (2 : ℚ) ^ (-1074 : ℤ) = least at *
      linarith
    exact (exists_represents_rounded hunder hover).imp fun _ => And.left
  obtain ⟨a, hx, ha⟩ := exists_represents_toFloat hw hlt
  rcases le_or_gt 0 e with hnonneg | hneg
  · obtain ⟨k, rfl⟩ := Int.eq_ofNat_of_zero_le hnonneg
    obtain ⟨p, hp, hscale⟩ := exists_scaleUp? hx ha (e := k) (by omega)
    have hover : p < overflowBound := by
      have hle := hp.le'
      rw [overflowBound]
      generalize (2 : ℚ) ^ (971 : ℤ) = greatest at *
      linarith
    obtain ⟨y, hy⟩ := hrepresents p (hp.mono (by norm_num)) hover
    refine ⟨p, y, hp.mono (by norm_num), ?_, hy⟩
    rw [scale?, if_pos hnonneg, Int.toNat_natCast, hscale y hy]
  · obtain ⟨k, hk⟩ := Int.eq_ofNat_of_zero_le (neg_nonneg.2 hneg.le)
    obtain rfl : e = -k := by omega
    obtain ⟨p, hp, hscale⟩ := exists_scaleDown hx ha hw (e := k) (by omega)
    have hover : p ≤ 2 ^ (1023 : ℤ) := by
      have hle := hp.le'
      have hw64 : (w : ℚ) ≤ 2 ^ 64 := by exact_mod_cast hlt.le
      have hdown : (w : ℚ) * 10 ^ (-(k : ℤ)) ≤ w :=
        mul_le_of_le_one_right (Nat.cast_nonneg w) (zpow_le_one_of_nonpos₀ (by norm_num) hneg.le)
      calc p ≤ 2 ^ (65 : ℤ) := by
            norm_num
            linarith
        _ ≤ 2 ^ (1023 : ℤ) := zpow_le_zpow_right₀ (by norm_num) (by norm_num)
    obtain ⟨y, hy⟩ := hrepresents p hp (lt_overflowBound hover)
    refine ⟨p, y, hp, ?_, hy⟩
    rw [scale?, if_neg (not_le.2 hneg), Int.natAbs_neg, Int.natAbs_natCast, hscale]

/-- A decimal number that is written for a binary64 number is read as one that is close to it. -/
theorem exists_scale?_close {e : ℤ} {x : Float} {p : ℚ} (hw : 0 < w) (hlt : w < 2 ^ 64)
    (hx : Represents x p) (hround : rounded (w * 10 ^ e) = x) (hlow : 2 * 2 ^ (-1074 : ℤ) ≤ p)
    (hup : p ≤ (2 ^ 53 - 4) * 2 ^ (971 : ℤ)) :
    ∃ y q, scale? w e = some y ∧ Represents y q ∧ |q - p| ≤ p / 2 ^ 49 + 2 ^ (-1074 : ℤ) := by
  have hleast := least_pos
  have hsmall : (2 : ℚ) ^ 53 * 2 ^ (-1074 : ℤ) ≤ 2 ^ (971 : ℤ) := by
    rw [← two_zpow_eq 53 rfl]
    exact zpow_le_zpow_right₀ (by norm_num) (by norm_num)
  have hw' : (0 : ℚ) < w := by exact_mod_cast hw
  have hpos : (0 : ℚ) < w * 10 ^ e := by positivity
  -- Three steps: from the number to its decimal, to what is rounded last, and to what is read.
  have hwritten := abs_le.1 (Represents.abs_sub_le_add (hround ▸ hx) hpos)
  have hlow' : 5 / 4 * 2 ^ (-1074 : ℤ) ≤ (w : ℚ) * 10 ^ e := by
    generalize (2 : ℚ) ^ (-1074 : ℤ) = least at *
    linarith
  have hup' : (w : ℚ) * 10 ^ e ≤ (2 ^ 53 - 3) * 2 ^ (971 : ℤ) := by
    generalize (2 : ℚ) ^ (-1074 : ℤ) = least at *
    generalize (2 : ℚ) ^ (971 : ℤ) = greatest at *
    linarith
  obtain ⟨r, q, hr, hscale, hq⟩ := exists_scale? hw hlt hlow' hup'
  have hle := hr.le
  have hle' := hr.le'
  have hread := abs_le.1 (hq.abs_sub_le_add hr.pos)
  refine ⟨rounded r, q, hscale, hq, ?_⟩
  generalize (2 : ℚ) ^ (-1074 : ℤ) = least at *
  generalize (w : ℚ) * 10 ^ e = decimal at *
  exact abs_le.2 ⟨by linarith, by linarith⟩

/-- With a significand and a power of ten that are exact, a number is read as the nearest one. -/
theorem scale?_exact {e : ℤ} {y : ℚ} (hw : 0 < w) (hlt : w < 2 ^ 53) (he : e.natAbs ≤ 22)
    (hy : Represents (rounded (w * 10 ^ e)) y) : scale? w e = some (rounded (w * 10 ^ e)) := by
  have hx := represents_toFloat hw hlt
  have hten := represents_powerOfTen he
  have hpower : e.natAbs ≤ greatestPower := he.trans (by decide)
  rcases le_or_gt 0 e with hnonneg | hneg
  · obtain ⟨k, rfl⟩ := Int.eq_ofNat_of_zero_le hnonneg
    rw [Int.natAbs_natCast] at hten hpower
    rw [zpow_natCast] at hy ⊢
    have hfinite := isInf_of_represents hy
    rw [scale?, if_pos hnonneg, Int.toNat_natCast, scaleUp?, if_pos hpower, hx.mul hten]
    simp only [hfinite, Bool.false_eq_true, if_false]
  · have hvalue : (10 : ℚ) ^ e = (10 ^ e.natAbs)⁻¹ := by
      rw [← zpow_natCast, ← zpow_neg]
      congr 1
      omega
    rw [scale?, if_neg (not_le.2 hneg), scaleDown, if_pos hpower, hx.div hten, hvalue,
      div_eq_mul_inv]

end Json.Number

end Lindenmayer

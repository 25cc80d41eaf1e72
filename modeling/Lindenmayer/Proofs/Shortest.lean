import Lindenmayer.Proofs.Scaling
import Lindenmayer.Number.Fixed

/-!
# Shortest decimal digits

The digits that are written for a binary64 number denote a decimal number that is rounded to
it (`ofParts_spec`).

The grids of decimals are tried from the coarsest one on. Seventeen digits always suffice
(`isSome_candidate?`): a number contains `10 ^ 16` steps of that grid at least, so half a step is
less than half the way to its neighbours. So the search ends with a decimal that reads back
(`search_spec`), and neither dropping zeros at the end of its digits nor placing the point
changes its value.
-/

namespace Lindenmayer

namespace Shortest

/-! ## The place of the point -/

theorem pow_pred_length_le {n : ℕ} (h : 0 < n) : 10 ^ ((Nat.toDigits 10 n).length - 1) ≤ n := by
  have hpos : 0 < (Nat.toDigits 10 n).length := Nat.length_toDigits_pos
  rcases Nat.eq_zero_or_pos ((Nat.toDigits 10 n).length - 1) with hone | hmore
  · rw [hone, pow_zero]
    exact h
  · exact not_lt.1 fun hlt =>
      absurd ((Nat.length_toDigits_le_iff (by decide) hmore).2 hlt) (by omega)

theorem lt_pow_length (n : ℕ) : n < 10 ^ (Nat.toDigits 10 n).length :=
  (Nat.length_toDigits_le_iff (by decide) Nat.length_toDigits_pos).1 le_rfl

/-- The place of the point is the size of the number in powers of ten. -/
theorem pointOf_bounds {num den : ℕ} (hnum : 0 < num) (hden : 0 < den) :
    (10 : ℚ) ^ (pointOf num den - 1) ≤ num / den ∧ (num / den : ℚ) ≤ 10 ^ pointOf num den := by
  have hnum' : (0 : ℚ) < num := by exact_mod_cast hnum
  have hden' : (0 : ℚ) < den := by exact_mod_cast hden
  rw [pointOf]
  split_ifs with h
  · have hdigits : 0 < (Nat.toDigits 10 (num / den)).length := Nat.length_toDigits_pos
    have hlower := pow_pred_length_le (Nat.div_pos h hden)
    have hupper := lt_pow_length (num / den)
    generalize (Nat.toDigits 10 (num / den)).length = count at *
    have hexponent : (count : ℤ) - 1 = (count - 1 : ℕ) := by omega
    rw [hexponent, zpow_natCast, zpow_natCast]
    constructor
    · calc (10 : ℚ) ^ (count - 1) ≤ (num / den : ℕ) := by exact_mod_cast hlower
        _ ≤ num / den := Nat.cast_div_le
    · rw [div_le_iff₀ hden']
      have hlt : num < 10 ^ count * den := (Nat.div_lt_iff_lt_mul hden).1 hupper
      exact_mod_cast hlt.le
  · have hlt : num < den := not_le.1 h
    have hdigits : 0 < (Nat.toDigits 10 (den / num)).length := Nat.length_toDigits_pos
    have hlower := pow_pred_length_le (Nat.div_pos hlt.le hnum)
    have hupper := lt_pow_length (den / num)
    generalize (Nat.toDigits 10 (den / num)).length = count at *
    have hexponent : 1 - (count : ℤ) = -(count - 1 : ℕ) := by omega
    have hexponent' : 1 - (count : ℤ) - 1 = -count := by omega
    rw [hexponent', hexponent, zpow_neg, zpow_neg, zpow_natCast, zpow_natCast]
    constructor
    · rw [inv_le_comm₀ (by positivity) (by positivity), inv_div, div_le_iff₀ hnum']
      have hlt : den < 10 ^ count * num := (Nat.div_lt_iff_lt_mul hnum).1 hupper
      exact_mod_cast hlt.le
    · rw [le_inv_comm₀ (by positivity) (by positivity), inv_div]
      calc (10 : ℚ) ^ (count - 1) ≤ (den / num : ℕ) := by exact_mod_cast hlower
        _ ≤ den / num := Nat.cast_div_le

/-! ## Grids -/

theorem onGrid_eq (num : ℕ) {den : ℕ} (hden : 0 < den) (point : ℤ) (count : ℕ) :
    0 < (onGrid num den point count).2 ∧
      ((onGrid num den point count).1 : ℚ) / (onGrid num den point count).2 =
        num / den * 10 ^ ((count : ℤ) - point) := by
  rw [onGrid]
  by_cases h : 0 ≤ (count : ℤ) - point
  · obtain ⟨k, hk⟩ := Int.eq_ofNat_of_zero_le h
    have hpow : ((Nat.pow 10 k : ℕ) : ℚ) = 10 ^ k := Nat.cast_pow 10 k
    rw [if_pos h, hk]
    refine ⟨hden, ?_⟩
    rw [Int.toNat_natCast, Nat.cast_mul, hpow, zpow_natCast]
    ring
  · obtain ⟨k, hk⟩ := Int.eq_ofNat_of_zero_le (neg_nonneg.2 (not_le.1 h).le)
    have hpow : ((Nat.pow 10 k : ℕ) : ℚ) = 10 ^ k := Nat.cast_pow 10 k
    have hexponent : (count : ℤ) - point = -k := by omega
    rw [if_neg h, hk]
    refine ⟨Nat.mul_pos hden (Nat.pow_pos (by decide)), ?_⟩
    rw [Int.toNat_natCast, Nat.cast_mul, hpow, hexponent, zpow_neg, zpow_natCast,
      div_mul_eq_div_div, div_eq_mul_inv]

/-! ## Candidates -/

theorem abs_roundHalfEven_sub_le (num : ℕ) {den : ℕ} (hden : 0 < den) :
    |(roundHalfEven num den : ℚ) - num / den| ≤ 1 / 2 := by
  rw [roundHalfEven_eq_nearestEven num hden]
  exact abs_nearestEven_sub_le (by positivity)

variable {x : Float} {num den count : ℕ} {point : ℤ}

/-- A candidate reads back, and it is one of the two points around the number. -/
theorem candidate?_spec {digits : ℕ} (h : candidate? x num den point count = some digits) :
    (readBack digits (point - count) == x) = true ∧
      (onGrid num den point count).1 / (onGrid num den point count).2 ≤ digits ∧
      digits ≤ (onGrid num den point count).1 / (onGrid num den point count).2 + 1 := by
  simp only [candidate?] at h
  split_ifs at h <;>
    obtain rfl := Option.some.inj h <;>
    exact ⟨‹_›, by omega, by omega⟩

theorem readBack_eq (digits : ℕ) (e : ℤ) : readBack digits e = rounded (digits * 10 ^ e) := by
  rw [readBack, ofScientific_eq]
  congr 1
  by_cases h : e < 0
  · obtain ⟨k, hk⟩ := Int.eq_ofNat_of_zero_le (neg_nonneg.2 h.le)
    obtain rfl : e = -k := by omega
    rw [if_pos (decide_eq_true h), Int.natAbs_neg, Int.natAbs_natCast, zpow_neg, zpow_natCast,
      div_eq_mul_inv]
  · obtain ⟨k, rfl⟩ := Int.eq_ofNat_of_zero_le (not_lt.1 h)
    rw [if_neg (by simp), Int.natAbs_natCast, zpow_natCast]

/-- The nearest point of a grid is half a step away at most. -/
theorem abs_nearest_sub_le (num : ℕ) {den : ℕ} (hden : 0 < den) (point : ℤ) (count : ℕ) :
    |(roundHalfEven (onGrid num den point count).1 (onGrid num den point count).2 : ℚ) *
      10 ^ (point - count) - num / den| ≤ 10 ^ (point - count) / 2 := by
  obtain ⟨hunit, hgrid⟩ := onGrid_eq num hden point count
  have hnear := abs_roundHalfEven_sub_le (onGrid num den point count).1 hunit
  rw [hgrid] at hnear
  generalize roundHalfEven (onGrid num den point count).1 (onGrid num den point count).2 =
    digits at *
  have hstep : (0 : ℚ) < 10 ^ (point - count) := by positivity
  have hinverse : (10 : ℚ) ^ (count - point) * 10 ^ (point - count) = 1 := by
    rw [← zpow_add₀ (by norm_num), sub_add_sub_cancel, sub_self, zpow_zero]
  have hfactor : digits * (10 : ℚ) ^ (point - count) - num / den =
      (digits - num / den * 10 ^ (count - point)) * 10 ^ (point - count) := by
    rw [sub_mul, mul_assoc, hinverse, mul_one]
  rw [hfactor, abs_mul, abs_of_pos hstep]
  linarith [mul_le_mul_of_nonneg_right hnear hstep.le]

/-- A step that is contained in a number `10 ^ 16` times is finer than the numbers around it. -/
theorem rounded_of_fine {p q step : ℚ} (hx : Represents x q) (hstep : 0 < step)
    (hfine : 10 ^ 16 * step ≤ q) (hclose : |p - q| ≤ step / 2) : rounded p = x := by
  obtain ⟨m, e, hfinite, hm, rfl⟩ := hx
  have hunit : (0 : ℚ) < 2 ^ e := by positivity
  have hm53 : (m : ℚ) < 2 ^ 53 := by exact_mod_cast (canonical_ofFloat hfinite).1.lt
  have hlt : (m : ℚ) * 2 ^ e < 2 ^ 53 * 2 ^ e := mul_lt_mul_of_pos_right hm53 hunit
  have hbelow := (abs_le.1 hclose).1
  refine rounded_of_close hfinite hm (by linarith) (hclose.trans_lt (by linarith))
    fun hpower _ => ?_
  rw [hpower] at hfine hbelow ⊢
  push_cast at hfine hbelow ⊢
  linarith

/-- With seventeen digits, the nearest point of the grid reads back. -/
theorem isSome_candidate? (hx : Represents x (num / den)) (hnum : 0 < num) (hden : 0 < den) :
    (candidate? x num den (pointOf num den) 17).isSome := by
  have hlower := (pointOf_bounds hnum hden).1
  generalize pointOf num den = point at *
  have hclose := abs_nearest_sub_le num hden point 17
  set digits := roundHalfEven (onGrid num den point 17).1 (onGrid num den point 17).2
  rw [Nat.cast_ofNat] at hclose
  have hstep : (0 : ℚ) < 10 ^ (point - 17) := by positivity
  have hfine : (10 : ℚ) ^ 16 * 10 ^ (point - 17) ≤ num / den := by
    rw [← zpow_natCast, ← zpow_add₀ (by norm_num)]
    convert hlower using 2
    push_cast
    ring
  have hread : readBack digits (point - 17) = x := by
    rw [readBack_eq]
    exact rounded_of_fine hx hstep hfine hclose
  have hreads : (readBack digits (point - (17 : ℕ)) == x) = true := by
    rw [Nat.cast_ofNat, hread]
    exact hx.beq_self
  have hcandidate : candidate? x num den point 17 = some digits := if_pos hreads
  rw [hcandidate]
  rfl

/-! ## The search -/

/-- The search ends with a candidate. -/
theorem search_spec (hlast : (candidate? x num den point 17).isSome) {fuel : ℕ} (hfuel : 0 < fuel)
    (h : fuel + count = 18) : ∃ digits c, search x num den point fuel count = (digits, c) ∧
      candidate? x num den point c = some digits ∧ count ≤ c ∧ c ≤ 17 := by
  induction fuel generalizing count with
  | zero => exact absurd hfuel (lt_irrefl 0)
  | succ fuel ih =>
    rw [search]
    cases hcandidate : candidate? x num den point count with
    | some digits => exact ⟨digits, count, rfl, hcandidate, le_rfl, by omega⟩
    | none =>
      rcases Nat.eq_zero_or_pos fuel with rfl | hpos
      · obtain rfl : count = 17 := by omega
        rw [hcandidate] at hlast
        cases hlast
      · have hrest : fuel + (count + 1) = 18 := by omega
        obtain ⟨digits, c, hsearch, hc, hle, hle17⟩ := ih hpos hrest
        exact ⟨digits, c, hsearch, hc, Nat.le_of_succ_le hle, hle17⟩

/-- Only zeros at the end of the digits are dropped. -/
theorem exists_trimmed {n : ℕ} (h : 0 < n) : ∃ d ds k, d ≠ .zero ∧ trimmed n = d :: ds ∧
    digitsOfNat n = trimmed n ++ List.replicate k .zero := by
  obtain ⟨d, ds, hds, hd⟩ := exists_digitsOfNat h
  have hsplit : digitsOfNat n = trimmed n ++
      ((digitsOfNat n).reverse.takeWhile (· == .zero)).reverse := by
    rw [trimmed, ← List.reverse_append, List.takeWhile_append_dropWhile, List.reverse_reverse]
  have hzeros : ((digitsOfNat n).reverse.takeWhile (· == .zero)).reverse =
      List.replicate ((digitsOfNat n).reverse.takeWhile (· == .zero)).length .zero := by
    refine List.eq_replicate_iff.2 ⟨List.length_reverse, fun c hc => ?_⟩
    have hmem := List.mem_reverse.1 hc
    have hzero := List.mem_takeWhile_imp hmem
    exact eq_of_beq hzero
  rw [hzeros] at hsplit
  generalize ((digitsOfNat n).reverse.takeWhile (· == .zero)).length = k at hsplit
  -- The first digit is no zero, and stays.
  cases htrimmed : trimmed n with
  | nil =>
    rw [htrimmed, hds, List.nil_append] at hsplit
    cases k with
    | zero => cases hsplit
    | succ k => exact absurd (List.cons.inj hsplit).1 hd
  | cons c cs =>
    rw [htrimmed] at hsplit
    rw [hds, List.cons_append] at hsplit
    obtain ⟨rfl, hrest⟩ := List.cons.inj hsplit
    exact ⟨d, cs, k, hd, rfl, by rw [hds, hrest, List.cons_append]⟩

theorem parts_eq (m : ℕ) (e : ℤ) :
    ((m * Nat.pow 2 e.toNat : ℕ) : ℚ) / (Nat.pow 2 (-e).toNat : ℕ) = m * 2 ^ e := by
  have hpow : ∀ k, ((Nat.pow 2 k : ℕ) : ℚ) = 2 ^ (k : ℤ) := fun k => by
    rw [zpow_natCast]
    exact Nat.cast_pow 2 k
  have hexponent : e = e.toNat - (-e).toNat := by omega
  rw [Nat.cast_mul, hpow, hpow, mul_div_assoc, ← zpow_sub₀ (by norm_num), ← hexponent]

/-- What is next to the number on a grid is positive and has as many digits as the grid, or is
    just above. -/
theorem candidate?_bounds (hnum : 0 < num) (hden : 0 < den) (hcount : 1 ≤ count) {digits : ℕ}
    (h : candidate? x num den (pointOf num den) count = some digits) :
    0 < digits ∧ digits ≤ 10 ^ count + 1 := by
  obtain ⟨hlower, hupper⟩ := pointOf_bounds hnum hden
  obtain ⟨hunit, hgrid⟩ := onGrid_eq num hden (pointOf num den) count
  obtain ⟨-, hbelow, habove⟩ := candidate?_spec h
  generalize onGrid num den (pointOf num den) count = grid at *
  have hstep : (0 : ℚ) < 10 ^ ((count : ℤ) - pointOf num den) := by positivity
  have hunit' : (0 : ℚ) < grid.2 := by exact_mod_cast hunit
  constructor
  · have hone : (1 : ℚ) ≤ grid.1 / grid.2 :=
      calc (1 : ℚ) ≤ 10 ^ ((count : ℤ) - 1) := one_le_zpow₀ (by norm_num) (by omega)
        _ = 10 ^ (pointOf num den - 1) * 10 ^ ((count : ℤ) - pointOf num den) := by
          rw [← zpow_add₀ (by norm_num)]
          congr 1
          ring
        _ ≤ grid.1 / grid.2 := hgrid ▸ mul_le_mul_of_nonneg_right hlower hstep.le
    rw [one_le_div hunit'] at hone
    exact (Nat.div_pos (by exact_mod_cast hone) hunit).trans_le hbelow
  · have hle : (grid.1 / grid.2 : ℚ) ≤ (10 ^ count : ℕ) :=
      calc (grid.1 / grid.2 : ℚ) ≤ 10 ^ pointOf num den * 10 ^ ((count : ℤ) - pointOf num den) :=
            hgrid ▸ mul_le_mul_of_nonneg_right hupper hstep.le
        _ = (10 ^ count : ℕ) := by
          rw [← zpow_add₀ (by norm_num), add_sub_cancel, zpow_natCast, Nat.cast_pow, Nat.cast_ofNat]
    have hdiv : grid.1 / grid.2 ≤ 10 ^ count := by
      have hfloor : ((grid.1 / grid.2 : ℕ) : ℚ) ≤ (10 ^ count : ℕ) := Nat.cast_div_le.trans hle
      exact_mod_cast hfloor
    omega

/-- What is written for a positive number: digits that begin with no zero and denote a decimal
    which is rounded to the number. -/
theorem ofParts_spec {m : ℕ} {e : ℤ} (hx : Binary64.ofFloat x = .finite false m e) (hm : 0 < m) :
    ∃ d ds, d ≠ .zero ∧ (ofParts x m e).digits = d :: ds ∧ ds.length < 18 ∧
      rounded (natOfDigits (ofParts x m e).digits *
        10 ^ ((ofParts x m e).point - (ofParts x m e).digits.length)) = x := by
  have hvalue := parts_eq m e
  have hnum : 0 < m * Nat.pow 2 e.toNat := Nat.mul_pos hm (Nat.two_pow_pos _)
  have hden : 0 < Nat.pow 2 (-e).toNat := Nat.two_pow_pos _
  rw [ofParts]
  generalize m * Nat.pow 2 e.toNat = num at *
  generalize Nat.pow 2 (-e).toNat = den at *
  have hrepresents : Represents x (num / den) := ⟨m, e, hx, hm, hvalue⟩
  have hlast := isSome_candidate? hrepresents hnum hden
  have hcount : 17 + 1 = 18 := rfl
  obtain ⟨digits, c, hsearch, hcandidate, hc, hc17⟩ :=
    search_spec hlast (Nat.succ_pos 16) hcount
  obtain ⟨hdigits, hupper⟩ := candidate?_bounds hnum hden hc hcandidate
  have hread : rounded (digits * 10 ^ (pointOf num den - c)) = x := by
    rw [← readBack_eq]
    exact hrepresents.eq_of_beq (candidate?_spec hcandidate).1
  obtain ⟨d, ds, k, hd, htrimmed, hall⟩ := exists_trimmed hdigits
  have hdigitsval : digits = natOfDigits (trimmed digits) * 10 ^ k := by
    have happend := natOfDigits_append (trimmed digits) (List.replicate k .zero)
    rwa [← hall, natOfDigits_digitsOfNat, natOfDigits_replicate_zero, add_zero,
      List.length_replicate] at happend
  simp only [hsearch]
  refine ⟨d, ds, hd, htrimmed, ?_, ?_⟩
  · have hpow : 10 ^ ds.length < 10 ^ 18 :=
      calc 10 ^ ds.length ≤ natOfDigits (d :: ds) := le_natOfDigits hd ds
        _ ≤ natOfDigits (d :: ds) * 10 ^ k := Nat.le_mul_of_pos_right _ (by positivity)
        _ = digits := by rw [← htrimmed, ← hdigitsval]
        _ ≤ 10 ^ c + 1 := hupper
        _ ≤ 10 ^ 17 + 1 := by gcongr; norm_num
        _ < 10 ^ 18 := by norm_num
    exact (Nat.pow_lt_pow_iff_right (by norm_num)).1 hpow
  · have hlength : (digitsOfNat digits).length = (trimmed digits).length + k := by
      rw [hall, List.length_append, List.length_replicate]
    have hexponent : pointOf num den + ((digitsOfNat digits).length - c : ℤ) -
        (trimmed digits).length = k + (pointOf num den - c) := by
      omega
    rw [← hread, hexponent, zpow_add₀ (by norm_num), zpow_natCast, ← mul_assoc]
    congr 2
    exact_mod_cast hdigitsval.symm

end Shortest

end Lindenmayer

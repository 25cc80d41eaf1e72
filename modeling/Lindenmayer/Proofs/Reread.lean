import Lindenmayer.Proofs.Accuracy
import Lindenmayer.Proofs.Printing
import Lindenmayer.Proofs.Shortest

/-!
# Binary64 numbers written and read back

A binary64 number is written with digits that are rounded to it, in one of three notations
(`exists_ofFloat?`). The reader does not always round those digits to the number again. What it
reads is very close (`exists_toFloat?`), and never too large, and it is the number if the digits
and the power of ten fit in binary64.

The bounds of the errors say nothing of the very greatest and of the least number, which could
be read as too large or as zero for all they say. These few are read one by one
(`scale?_greatest`, `scale?_least`).
-/

namespace Lindenmayer

/-- Two numbers other than zero of one sign, of which the second is within a few roundings of
    the first. -/
def CloseTo (x y : Float) : Prop :=
  ∃ p q : ℚ, (Binary64.ofFloat x).toRat? = some p ∧ (Binary64.ofFloat y).toRat? = some q ∧
    0 < p * q ∧ |q - p| ≤ |p| / 2 ^ 49 + 2 ^ (-1074 : ℤ)

namespace Json.Number

/-! ## Notations -/

/-- A number that is written for digits with a point among them. Zeros may be added to the
    digits. -/
structure Denotes (n : Number) (s : Scientific) (zeros : ℕ) : Prop where
  written : n.IsWritten
  significand : n.significand = natOfDigits s.digits * 10 ^ zeros
  power : n.power = s.point - s.digits.length - zeros
  few : zeros = 0 ∨ s.digits.length + zeros ≤ 17

theorem natOfDigits_append_zeros (ds : List Digit) (count : ℕ) :
    natOfDigits (ds ++ List.replicate count .zero) = natOfDigits ds * 10 ^ count := by
  rw [natOfDigits_append, natOfDigits_replicate_zero, List.length_replicate, add_zero]

theorem natOfDigits_zeros_append (ds : List Digit) (count : ℕ) :
    natOfDigits (List.replicate count .zero ++ ds) = natOfDigits ds := by
  rw [natOfDigits_append, natOfDigits_replicate_zero, zero_mul, zero_add]

variable {s : Scientific} {d : Digit} {ds : List Digit}

/-- Whichever notation is used, a number denotes the digits it is written for. -/
theorem exists_denotes_ofScientific (hs : s.digits = d :: ds) (hd : d ≠ .zero) (negative : Bool) :
    ∃ zeros, (ofScientific negative s).Denotes s zeros := by
  rw [ofScientific]
  split_ifs with hpositional hpoint
  · -- All digits stand behind the point, after zeros.
    refine ⟨0, ⟨.single _⟩, ?_, ?_, .inl rfl⟩
    · rw [significand, ← List.replicate_one, natOfDigits_zeros_append, natOfDigits_zeros_append,
        pow_zero, mul_one]
    · simp only [power, List.length_append, List.length_replicate, Option.getD_none]
      omega
  · obtain ⟨count, hcount⟩ := Int.eq_ofNat_of_zero_le (not_le.1 hpoint).le
    have hrange : -4 ≤ s.point ∧ s.point ≤ 16 := of_decide_eq_true hpositional
    obtain ⟨before, rfl⟩ := Nat.exists_eq_add_one_of_ne_zero (n := count) (by omega)
    rw [hcount, Int.toNat_natCast]
    dsimp only
    have hwhole : ∀ zeros,
        IsWhole ((s.digits ++ List.replicate zeros Digit.zero).take (before + 1)) := by
      intro zeros
      rw [hs]
      exact .leading hd
    rcases le_or_gt s.digits.length (before + 1) with hle | hgt
    · -- All digits stand before the point, and one zero behind it.
      have hlength : (s.digits ++ List.replicate (before + 1 - s.digits.length) Digit.zero).length ≤
          before + 1 := by
        rw [List.length_append, List.length_replicate]
        omega
      refine ⟨before + 1 - s.digits.length + 1, ⟨hwhole _⟩, ?_, ?_, .inr (by omega)⟩
      · simp only [significand]
        rw [List.take_of_length_le hlength, List.drop_of_length_le hlength,
          ← natOfDigits_append_zeros, List.replicate_succ', ← List.append_assoc]
        rfl
      · simp only [power]
        rw [List.drop_of_length_le hlength]
        simp only [List.isEmpty_nil, if_true, List.length_singleton, Option.getD_none]
        omega
    · -- The point stands among the digits.
      have hnone : before + 1 - s.digits.length = 0 := by omega
      have hsome : (s.digits.drop (before + 1)).isEmpty = false := by
        rw [List.isEmpty_eq_false_iff, ne_eq, List.drop_eq_nil_iff]
        omega
      have hwhole := hwhole 0
      rw [List.replicate_zero, List.append_nil] at hwhole
      rw [hnone, List.replicate_zero, List.append_nil, hsome]
      refine ⟨0, ⟨hwhole⟩, ?_, ?_, .inl rfl⟩
      · simp only [significand, Bool.false_eq_true, if_false]
        rw [List.take_append_drop, pow_zero, mul_one]
      · simp only [power, Bool.false_eq_true, if_false, List.length_drop, Option.getD_none]
        omega
  · -- The point stands behind the first digit, and the exponent places it.
    refine ⟨0, ⟨?_⟩, ?_, ?_, .inl rfl⟩
    · rw [hs]
      exact .single d
    · simp only [significand]
      rw [List.take_append_drop, pow_zero, mul_one]
    · simp only [power, hs, List.length_drop, List.length_cons, Option.getD_some]
      omega

/-- A finite number other than zero is written, with digits that are rounded to it. -/
theorem exists_ofFloat? {x : Float} {negative : Bool} {m : ℕ} {e : ℤ}
    (hx : Binary64.ofFloat x = .finite negative m e) (hm : 0 < m) :
    ∃ n, ofFloat? x = some n ∧ n = ofScientific negative (Shortest.ofParts x.abs m e) ∧
      n.IsWritten ∧ 0 < n.significand ∧ n.significand < 2 ^ 64 ∧
      rounded (n.significand * 10 ^ n.power) = x.abs := by
  obtain ⟨d, ds, hd, hs, hlength, hround⟩ := Shortest.ofParts_spec (ofFloat_abs hx hm) hm
  obtain ⟨zeros, hdenotes⟩ := exists_denotes_ofScientific hs hd negative
  have hcount : (Shortest.ofParts x.abs m e).digits.length = ds.length + 1 := by
    rw [hs, List.length_cons]
  have hdigits : 0 < natOfDigits (Shortest.ofParts x.abs m e).digits := by
    rw [hs]
    exact (Nat.pow_pos (by decide)).trans_le (le_natOfDigits hd ds)
  refine ⟨_, ?_, rfl, hdenotes.written, ?_, ?_, ?_⟩
  · simp only [ofFloat?, hx, if_neg hm.ne']
  · rw [hdenotes.significand]
    positivity
  · rw [hdenotes.significand]
    calc natOfDigits (Shortest.ofParts x.abs m e).digits * 10 ^ zeros
        < 10 ^ (ds.length + 1) * 10 ^ zeros := by
          refine Nat.mul_lt_mul_of_pos_right ?_ (by positivity)
          exact hcount ▸ natOfDigits_lt _
      _ = 10 ^ (ds.length + 1 + zeros) := (pow_add _ _ _).symm
      _ ≤ 10 ^ 18 := Nat.pow_le_pow_right (by decide) (by have := hdenotes.few; omega)
      _ < 2 ^ 64 := by decide
  · refine Eq.trans ?_ hround
    rw [hdenotes.significand, hdenotes.power, zpow_sub₀ (by norm_num), zpow_natCast]
    congr 1
    push_cast
    field_simp

/-! ## The greatest numbers and the least one -/

/-- The greatest number, and those before it. -/
def greatest (i : ℕ) : Float := Float.ofBits (0x7fefffffffffffff - i.toUInt64)

/-- The least number above zero. -/
def least : Float := Float.ofBits 1

theorem ofFloat_greatest : ∀ i : Fin 3,
    Binary64.ofFloat (greatest i) = .finite false (9007199254740991 - i) 971 := by
  decide +kernel

theorem ofFloat_least : Binary64.ofFloat least = .finite false 1 (-1074) := by
  decide +kernel

/-- The greatest numbers are read as they are or as the next greater one. -/
theorem scale?_greatest : ∀ i : Fin 3,
    let n := ofScientific false (Shortest.ofParts (greatest i) (9007199254740991 - i) 971)
    scale? n.significand n.power = some (greatest (i / 2 * 2)) := by
  decide +kernel

/-- The least number is read as it is. -/
theorem scale?_least :
    let n := ofScientific false (Shortest.ofParts least 1 (-1074))
    scale? n.significand n.power = some least := by
  decide +kernel

/-! ## Reading back -/

theorem parts_ofScientific (negative : Bool) (s : Scientific) :
    (ofScientific negative s).negative = negative ∧
      (ofScientific negative s).significand = (ofScientific false s).significand ∧
      (ofScientific negative s).power = (ofScientific false s).power := by
  simp only [ofScientific]
  split_ifs <;> exact ⟨rfl, rfl, rfl⟩

/-- Only the least number is below twice the least one. -/
theorem eq_least {m : ℕ} {e : ℤ} (hm : 0 < m) (hc : Canonical m e)
    (h : (m : ℚ) * 2 ^ e < 2 * 2 ^ (-1074 : ℤ)) : m = 1 ∧ e = -1074 := by
  have hone : (1 : ℚ) ≤ m := by exact_mod_cast hm
  have hle := hc.le
  have hlt : (2 : ℚ) ^ e < 2 ^ (-1073 : ℤ) :=
    calc (2 : ℚ) ^ e ≤ m * 2 ^ e := le_mul_of_one_le_left (by positivity) hone
      _ < 2 * 2 ^ (-1074 : ℤ) := h
      _ = 2 ^ (-1073 : ℤ) := by rw [mul_comm, ← zpow_add_one₀ (by norm_num)]; rfl
  have hexponent := (zpow_lt_zpow_iff_right₀ (by norm_num)).1 hlt
  obtain rfl : e = -1074 := by omega
  have hm2 : (m : ℚ) < 2 := lt_of_mul_lt_mul_right h least_pos.le
  have hm2' : m < 2 := by exact_mod_cast hm2
  exact ⟨by omega, rfl⟩

/-- Only the three greatest numbers are above the fourth. -/
theorem eq_greatest {m : ℕ} {e : ℤ} (hc : Canonical m e) (he : e ≤ 971)
    (h : (2 ^ 53 - 4) * 2 ^ (971 : ℤ) < (m : ℚ) * 2 ^ e) :
    ∃ i : Fin 3, m = 9007199254740991 - i ∧ e = 971 := by
  have hgreatest : (0 : ℚ) < 2 ^ (971 : ℤ) := zpow_pos (by norm_num) _
  have hlt := hc.lt
  have hexponent : e = 971 := by
    by_contra hne
    have hpow : (2 : ℚ) ^ e * 2 ≤ 2 ^ (971 : ℤ) := by
      rw [← zpow_add_one₀ (by norm_num)]
      exact zpow_le_zpow_right₀ (by norm_num) (by omega)
    have hle : (m : ℚ) * 2 ^ e ≤ 2 ^ 53 * 2 ^ e :=
      mul_le_mul_of_nonneg_right (by exact_mod_cast hlt.le) (by positivity)
    generalize (2 : ℚ) ^ (971 : ℤ) = greatest at *
    linarith
  subst hexponent
  have hm : (2 : ℚ) ^ 53 - 4 < m := lt_of_mul_lt_mul_right h hgreatest.le
  have hm' : 2 ^ 53 < m + 4 := by
    have hcast : (2 : ℚ) ^ 53 < m + 4 := by linarith
    exact_mod_cast hcast
  exact ⟨⟨9007199254740991 - m, by omega⟩, by dsimp only; omega, rfl⟩

/-- What is written for a number is read as one that is close to it. -/
theorem exists_scale?_ofFloat? {x : Float} {negative : Bool} {m : ℕ} {e : ℤ} {n : Number}
    (hx : Binary64.ofFloat x = .finite negative m e) (hm : 0 < m) (hn : ofFloat? x = some n) :
    ∃ y Y, scale? n.significand n.power = some y ∧ Represents y Y ∧
      |Y - m * 2 ^ e| ≤ m * 2 ^ e / 2 ^ 49 + 2 ^ (-1074 : ℤ) := by
  have habs := ofFloat_abs hx hm
  obtain ⟨hc, he⟩ := canonical_ofFloat hx
  obtain ⟨n', hn', hparts, -, hpos, hlt, hround⟩ := exists_ofFloat? hx hm
  obtain rfl : n = n' := Option.some.inj (hn.symm.trans hn')
  obtain ⟨-, hsignificand, hpower⟩ := parts_ofScientific negative (Shortest.ofParts x.abs m e)
  rw [← hparts] at hsignificand hpower
  rcases lt_or_ge ((m : ℚ) * 2 ^ e) (2 * 2 ^ (-1074 : ℤ)) with hsmall | hlow
  · obtain ⟨rfl, rfl⟩ := eq_least hm hc hsmall
    have hleast : x.abs = least := eq_of_ofFloat habs ofFloat_least
    refine ⟨least, _, ?_, ⟨1, -1074, ofFloat_least, hm, rfl⟩, ?_⟩
    · rw [hsignificand, hpower, hleast]
      exact scale?_least
    · rw [sub_self, abs_zero]
      positivity
  rcases le_or_gt ((m : ℚ) * 2 ^ e) ((2 ^ 53 - 4) * 2 ^ (971 : ℤ)) with hup | hlarge
  · exact exists_scale?_close hpos hlt ⟨m, e, habs, hm, rfl⟩ hround hlow hup
  · obtain ⟨i, rfl, rfl⟩ := eq_greatest hc he hlarge
    have hgreatest : x.abs = greatest i := eq_of_ofFloat habs (ofFloat_greatest i)
    refine ⟨greatest (i / 2 * 2), _, ?_,
      ⟨_, 971, ofFloat_greatest ⟨i / 2 * 2, by omega⟩, by dsimp only; omega, rfl⟩, ?_⟩
    · rw [hsignificand, hpower, hgreatest]
      exact scale?_greatest i
    · have hunit : (0 : ℚ) < 2 ^ (971 : ℤ) := zpow_pos (by norm_num) _
      have hleast := least_pos
      rw [← sub_mul, abs_mul, abs_of_pos hunit]
      generalize (2 : ℚ) ^ (971 : ℤ) = unit at *
      generalize (2 : ℚ) ^ (-1074 : ℤ) = least at *
      fin_cases i <;> norm_num at * <;> linarith

/-- A finite number other than zero is written, and read as one that is close to it. It is the
    same number if its digits are below `2 ^ 53` and are scaled by no more than `10 ^ 22`. -/
theorem exists_toFloat? {x : Float} {negative : Bool} {m : ℕ} {e : ℤ}
    (hx : Binary64.ofFloat x = .finite negative m e) (hm : 0 < m) :
    ∃ n y, ofFloat? x = some n ∧ n.IsWritten ∧ n.toFloat? = some y ∧ CloseTo x y ∧
      (n.significand < 2 ^ 53 → n.power.natAbs ≤ 22 → y = x) := by
  obtain ⟨n, hn, hparts, hwritten, hpos, hlt, hround⟩ := exists_ofFloat? hx hm
  obtain ⟨y, q, hscale, hy, hclose⟩ := exists_scale?_ofFloat? hx hm hn
  have hnegative : n.negative = negative := hparts ▸ (parts_ofScientific negative _).1
  have hread : n.toFloat? = some (if negative then -y else y) := by
    rw [toFloat?_eq hlt, hscale, hnegative]
    rfl
  have hvalue := (congrArg Binary64.toRat? hx).trans (toRat?_finite negative m e)
  refine ⟨n, _, hn, hwritten, hread, ⟨_, _, hvalue, hy.toRat?_signed negative, ?_, ?_⟩, ?_⟩
  · have hq := hy.pos
    have hp : (0 : ℚ) < m * 2 ^ e := by positivity
    cases negative <;> simpa using mul_pos hp hq
  · have hp : (0 : ℚ) < m * 2 ^ e := by positivity
    rw [← mul_sub, abs_mul, abs_mul, abs_of_pos hp]
    cases negative <;> simpa using hclose
  · intro hfew hnear
    have hrepresents : Represents (rounded (n.significand * 10 ^ n.power)) (m * 2 ^ e) := by
      rw [hround]
      exact ⟨m, e, ofFloat_abs hx hm, hm, rfl⟩
    have hexact := scale?_exact hpos hfew hnear hrepresents
    obtain rfl : y = x.abs := by
      rw [← hround]
      exact Option.some.inj (hscale.symm.trans hexact)
    exact signed_abs hx hm

end Json.Number

end Lindenmayer

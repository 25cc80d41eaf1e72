import Lindenmayer.Proofs.Digits
import Lindenmayer.Proofs.Numerals
import Lindenmayer.Proofs.Rounding

/-!
# Numbers with six decimal places

What the text of a number with six decimal places shows (`SixPlaces`): the sign, digits before the
point without a zero in front, and six digits behind it. Together the digits are the number of
millionths nearest to the exact value; of two that are equally near it is the even one. What is not
a number and the infinities are shown by words.

* `sixPlaces_iff`: there is one such text for every number, and it is the one that is printed.
-/

namespace Lindenmayer

/-! ## The nearest natural number -/

/-- A natural number is the nearest to `q`; of two that are equally near, it is the even one. -/
structure IsNearest (q : ℚ) (n : ℕ) : Prop where
  near : |(n : ℚ) - q| ≤ 1 / 2
  even : |(n : ℚ) - q| = 1 / 2 → Even n

theorem isNearest_nearestEven {q : ℚ} (hq : 0 ≤ q) : IsNearest q (nearestEven q) where
  near := abs_nearestEven_sub_le hq
  even := even_nearestEven hq

/-- There is one nearest number. -/
theorem IsNearest.unique {q : ℚ} {m n : ℕ} (hm : IsNearest q m) (hn : IsNearest q n) : m = n := by
  wlog hlt : m < n generalizing m n
  · rcases not_lt.1 hlt |>.eq_or_lt with heq | hgt
    · exact heq.symm
    · exact (this hn hm hgt).symm
  -- Two of them lie a half below and a half above, so both would be even.
  have hnext : (m : ℚ) + 1 ≤ n := by exact_mod_cast hlt
  have hbelow := abs_le.1 hm.near
  have habove := abs_le.1 hn.near
  have hmq : (m : ℚ) - q = -(1 / 2) := by linarith
  have hnq : (n : ℚ) - q = 1 / 2 := by linarith
  have hsucc : n = m + 1 := by
    have : (n : ℚ) = m + 1 := by linarith
    exact_mod_cast this
  have hm' : Even m := hm.even (by rw [hmq, abs_neg, abs_of_pos one_half_pos])
  have hn' : Even n := hn.even (by rw [hnq, abs_of_pos one_half_pos])
  rw [hsucc, Nat.even_add_one] at hn'
  exact absurd hm' hn'

/-- The exact value is rounded once. -/
theorem isNearest_millionths (significand : ℕ) (exponent : ℤ) :
    IsNearest (significand * 2 ^ exponent * 10 ^ 6) (millionths significand exponent) := by
  have hpow (k : ℕ) : ((Nat.pow 2 k : ℕ) : ℚ) = 2 ^ k := Nat.cast_pow 2 k
  rw [millionths]
  split_ifs with h
  · -- Above the point there is nothing to round.
    obtain ⟨k, rfl⟩ := Int.eq_ofNat_of_zero_le h
    have hexact : ((significand * Nat.pow 2 (k : ℤ).toNat * million : ℕ) : ℚ) =
        significand * 2 ^ (k : ℤ) * 10 ^ 6 := by
      rw [Int.toNat_natCast, Nat.cast_mul, Nat.cast_mul, hpow, zpow_natCast, million]
      norm_num
    constructor <;> rw [hexact, sub_self, abs_zero] <;> norm_num
  · obtain ⟨k, hk⟩ := Int.eq_ofNat_of_zero_le (neg_nonneg.2 (not_le.1 h).le)
    obtain rfl : exponent = -k := by omega
    have hquotient : ((significand * million : ℕ) : ℚ) / (Nat.pow 2 k : ℕ) =
        significand * 2 ^ (-(k : ℤ)) * 10 ^ 6 := by
      rw [Nat.cast_mul, hpow, zpow_neg, zpow_natCast, million, div_eq_mul_inv]
      push_cast
      ring
    have hpos : 0 < Nat.pow 2 k := Nat.pow_pos two_pos
    rw [hk, Int.toNat_natCast, roundHalfEven_eq_nearestEven _ hpos, hquotient]
    exact isNearest_nearestEven (by positivity)

/-! ## Digits -/

/-- The number that digits denote and how many they are determine them. -/
theorem eq_of_natOfDigits_eq {ds es : List Digit} (hlength : ds.length = es.length)
    (h : natOfDigits ds = natOfDigits es) : ds = es := by
  induction ds using List.reverseRecOn generalizing es with
  | nil => exact (List.length_eq_zero_iff.1 hlength.symm).symm
  | append_singleton ds d ih =>
    rcases List.eq_nil_or_concat es with rfl | ⟨es, e, rfl⟩
    · simp at hlength
    · rw [List.concat_eq_append] at hlength h ⊢
      rw [natOfDigits_append, natOfDigits_append, natOfDigits_singleton, natOfDigits_singleton,
        List.length_singleton, List.length_singleton, pow_one] at h
      have hd : d.val < 10 := d.isLt
      have he : e.val < 10 := e.isLt
      rw [ih (by simpa using hlength) (by omega), Fin.ext (by omega : d.val = e.val)]

theorem IsWhole.length_le {ds es : List Digit} (hd : IsWhole ds) (he : IsWhole es)
    (h : natOfDigits ds = natOfDigits es) : ds.length ≤ es.length := by
  cases hd with
  | single d => cases he <;> simp
  | @leading d ds hd =>
    have hlt : 10 ^ ds.length < 10 ^ es.length :=
      ((le_natOfDigits hd ds).trans_eq h).trans_lt (natOfDigits_lt es)
    exact (Nat.pow_lt_pow_iff_right (by decide)).1 hlt

/-- Without a zero in front, digits are determined by the number they denote. -/
theorem IsWhole.eq_of_natOfDigits_eq {ds es : List Digit} (hd : IsWhole ds) (he : IsWhole es)
    (h : natOfDigits ds = natOfDigits es) : ds = es :=
  Lindenmayer.eq_of_natOfDigits_eq (le_antisymm (hd.length_le he h) (he.length_le hd h.symm)) h

theorem toDigits_eq_map_digitChar (n : ℕ) :
    Nat.toDigits 10 n = (digitsOfNat n).map digitChar := by
  have hlast : ∀ d < 10, Nat.digitChar d = digitChar (.last d) := by decide
  induction n using Nat.strong_induction_on with
  | h n ih =>
    rcases lt_or_ge n 10 with h | h
    · rw [Nat.toDigits_of_lt_base h, digitsOfNat_of_lt h, hlast n h]
      rfl
    · have hmod : Digit.last (n % 10) = .last n := Fin.ext (Nat.mod_mod n 10)
      rw [Nat.toDigits_of_base_le (by decide) h, digitsOfNat_of_le h,
        ih _ (Nat.div_lt_self (by omega) (by decide)), hlast _ (Nat.mod_lt n (by decide)), hmod,
        List.map_append]
      rfl

theorem exists_lastDigits (count n : ℕ) :
    ∃ ds : List Digit, ds.length = count ∧ natOfDigits ds = n % 10 ^ count ∧
      lastDigits count n = ds.map digitChar := by
  induction count generalizing n with
  | zero => exact ⟨[], rfl, (Nat.mod_one n).symm, rfl⟩
  | succ count ih =>
    obtain ⟨ds, hlength, hvalue, htext⟩ := ih (n / 10)
    refine ⟨ds ++ [.last n], by simp [hlength], ?_, by simp [lastDigits, htext]⟩
    rw [natOfDigits_append, natOfDigits_singleton, hvalue, last_val, List.length_singleton, pow_one,
      pow_succ', Nat.mod_mul]
    ring

/-! ## Texts -/

/-- What the text of a number with six decimal places shows. -/
inductive SixPlaces : Binary64 → List Char → Prop
  | notANumber : SixPlaces .notANumber "NaN".toList
  | infinite (negative : Bool) :
    SixPlaces (.infinite negative) ((if negative then ['-'] else []) ++ "inf".toList)
  /-- The sign is shown even if nothing but zeros is behind it. -/
  | finite {significand : ℕ} {exponent : ℤ} {whole fraction : List Digit} (negative : Bool) :
    IsWhole whole → fraction.length = 6 →
    IsNearest (significand * 2 ^ exponent * 10 ^ 6) (natOfDigits (whole ++ fraction)) →
    SixPlaces (.finite negative significand exponent)
      ((if negative then ['-'] else []) ++ (whole.map digitChar ++ '.' :: fraction.map digitChar))

/-- The digits of a number of millionths. -/
theorem exists_millionthsText (n : ℕ) :
    ∃ whole fraction : List Digit, IsWhole whole ∧ fraction.length = 6 ∧
      natOfDigits (whole ++ fraction) = n ∧
      millionthsText n = whole.map digitChar ++ '.' :: fraction.map digitChar := by
  obtain ⟨fraction, hlength, hvalue, htext⟩ := exists_lastDigits 6 n
  refine ⟨digitsOfNat (n / million), fraction, isWhole_digitsOfNat _, hlength, ?_, ?_⟩
  · rw [natOfDigits_append, natOfDigits_digitsOfNat, hvalue, hlength, million]
    exact Nat.div_add_mod' n (10 ^ 6)
  · rw [millionthsText, htext, toDigits_eq_map_digitChar]

/-- What is printed has six decimal places. -/
theorem sixPlaces_fixedText (x : Binary64) : SixPlaces x (fixedText x) := by
  cases x with
  | notANumber => exact .notANumber
  | infinite negative =>
    cases negative
    · exact .infinite false
    · exact .infinite true
  | finite negative significand exponent =>
    obtain ⟨whole, fraction, hwhole, hlength, hvalue, htext⟩ :=
      exists_millionthsText (millionths significand exponent)
    rw [fixedText, htext]
    exact .finite negative hwhole hlength (hvalue ▸ isNearest_millionths significand exponent)

/-- There is one text with six decimal places. -/
theorem SixPlaces.unique {x : Binary64} {s t : List Char} (hs : SixPlaces x s)
    (ht : SixPlaces x t) : s = t := by
  cases hs with
  | notANumber =>
    cases ht
    rfl
  | infinite negative =>
    cases ht
    rfl
  | @finite _ _ whole fraction negative hwhole hlength hnear =>
    cases ht with
    | @finite _ _ whole' fraction' _ hwhole' hlength' hnear' =>
      -- The digits are those of one number, and six of them are behind the point.
      have heq := hnear.unique hnear'
      rw [natOfDigits_append, natOfDigits_append, hlength, hlength'] at heq
      have hlt := natOfDigits_lt fraction
      have hlt' := natOfDigits_lt fraction'
      rw [hlength] at hlt
      rw [hlength'] at hlt'
      have hw : natOfDigits whole = natOfDigits whole' := by omega
      have hf : natOfDigits fraction = natOfDigits fraction' := by omega
      rw [hwhole.eq_of_natOfDigits_eq hwhole' hw,
        eq_of_natOfDigits_eq (hlength.trans hlength'.symm) hf]

/-- **Six decimal places.** A text shows a number with six decimal places if and only if it is the
    one that is printed. -/
theorem sixPlaces_iff {x : Binary64} {text : List Char} : SixPlaces x text ↔ text = fixedText x :=
  ⟨fun h => h.unique (sixPlaces_fixedText x), fun h => h ▸ sixPlaces_fixedText x⟩

theorem sixPlaces_fixed (x : Float) : SixPlaces (.ofFloat x) (fixed x).toList :=
  sixPlaces_iff.2 (toList_fixed x)

end Lindenmayer

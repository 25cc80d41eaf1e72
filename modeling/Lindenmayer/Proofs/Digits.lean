import Lindenmayer.Number.Decimal
import Mathlib

/-!
# Digits

Digits are read from the left, the way they are written.

* `natOfDigits_digitsOfNat`: the digits of a natural number denote it;
* `isWhole_digitsOfNat`: they begin with a zero only if it stands alone.
-/

namespace Lindenmayer

theorem digit?_digitChar : ∀ d : Digit, digit? (digitChar d) = some d := by
  decide

/-! ## Reading -/

theorem foldl_digits (n : ℕ) (ds : List Digit) :
    ds.foldl (fun n d => 10 * n + d.val) n = n * 10 ^ ds.length + natOfDigits ds := by
  induction ds using List.reverseRecOn with
  | nil => simp [natOfDigits]
  | append_singleton ds d ih =>
    rw [natOfDigits] at ih ⊢
    rw [List.foldl_append, List.foldl_append, ih, List.length_append]
    simp only [List.foldl_cons, List.foldl_nil, List.length_singleton]
    ring

theorem natOfDigits_append (ds es : List Digit) :
    natOfDigits (ds ++ es) = natOfDigits ds * 10 ^ es.length + natOfDigits es := by
  rw [natOfDigits, List.foldl_append]
  exact foldl_digits _ es

theorem natOfDigits_singleton (d : Digit) : natOfDigits [d] = d.val := by
  simp [natOfDigits]

theorem natOfDigits_replicate_zero (count : ℕ) : natOfDigits (List.replicate count .zero) = 0 := by
  induction count with
  | zero => rfl
  | succ count ih =>
    rw [List.replicate_succ', natOfDigits_append, ih]
    rfl

theorem natOfDigits_lt (ds : List Digit) : natOfDigits ds < 10 ^ ds.length := by
  induction ds using List.reverseRecOn with
  | nil => simp [natOfDigits]
  | append_singleton ds d ih =>
    have hd : d.val < 10 := d.isLt
    rw [natOfDigits_append, natOfDigits_singleton, List.length_append, List.length_singleton,
      pow_one, pow_succ]
    omega

theorem le_natOfDigits {d : Digit} (hd : d ≠ .zero) (ds : List Digit) :
    10 ^ ds.length ≤ natOfDigits (d :: ds) := by
  have hpos : 0 < d.val := Nat.pos_of_ne_zero fun hzero => hd (Fin.ext hzero)
  rw [← List.singleton_append, natOfDigits_append, natOfDigits_singleton]
  exact (Nat.le_mul_of_pos_left _ hpos).trans (Nat.le_add_right _ _)

/-! ## Writing -/

theorem digit?_digitChar_of_lt {n : ℕ} (h : n < 10) :
    digit? (Nat.digitChar n) = some (.last n) := by
  interval_cases n <;> decide

theorem last_val (n : ℕ) : (Digit.last n).val = n % 10 := rfl

theorem digitsOfNat_of_lt {n : ℕ} (h : n < 10) : digitsOfNat n = [.last n] := by
  rw [digitsOfNat, Nat.toDigits_of_lt_base h, List.filterMap_cons, digit?_digitChar_of_lt h]
  rfl

theorem digitsOfNat_of_le {n : ℕ} (h : 10 ≤ n) :
    digitsOfNat n = digitsOfNat (n / 10) ++ [.last n] := by
  have hlast : digit? (Nat.digitChar (n % 10)) = some (.last n) := by
    rw [digit?_digitChar_of_lt (Nat.mod_lt _ (by decide))]
    exact congrArg some (Fin.ext (Nat.mod_mod n 10))
  rw [digitsOfNat, digitsOfNat, Nat.toDigits_of_base_le (by decide) h, List.filterMap_append,
    List.filterMap_cons, hlast]
  rfl

/-- The digits of a natural number denote it. -/
theorem natOfDigits_digitsOfNat (n : ℕ) : natOfDigits (digitsOfNat n) = n := by
  induction n using Nat.strong_induction_on with
  | h n ih =>
    rcases lt_or_ge n 10 with h | h
    · rw [digitsOfNat_of_lt h, natOfDigits_singleton, last_val, Nat.mod_eq_of_lt h]
    · rw [digitsOfNat_of_le h, natOfDigits_append, ih _ (Nat.div_lt_self (by omega) (by decide)),
        natOfDigits_singleton, last_val, List.length_singleton]
      omega

theorem exists_digitsOfNat {n : ℕ} (h : 0 < n) :
    ∃ d ds, digitsOfNat n = d :: ds ∧ d ≠ .zero := by
  induction n using Nat.strong_induction_on with
  | h n ih =>
    rcases lt_or_ge n 10 with hlt | hle
    · refine ⟨_, _, digitsOfNat_of_lt hlt, fun hzero => ?_⟩
      have hval : n % 10 = 0 := congrArg Fin.val hzero
      omega
    · obtain ⟨d, ds, hds, hd⟩ := ih (n / 10) (Nat.div_lt_self h (by decide)) (by omega)
      exact ⟨d, ds ++ [.last n], by rw [digitsOfNat_of_le hle, hds, List.cons_append], hd⟩

/-- Digits as they stand before a point: there is one, and it is no zero if there are more. -/
inductive IsWhole : List Digit → Prop
  | single (d : Digit) : IsWhole [d]
  | leading {d : Digit} {ds : List Digit} (hd : d ≠ .zero) : IsWhole (d :: ds)

theorem isWhole_digitsOfNat (n : ℕ) : IsWhole (digitsOfNat n) := by
  rcases Nat.eq_zero_or_pos n with rfl | h
  · exact digitsOfNat_of_lt (n := 0) (by decide) ▸ .single _
  · obtain ⟨d, ds, hds, hd⟩ := exists_digitsOfNat h
    exact hds ▸ .leading hd

end Lindenmayer

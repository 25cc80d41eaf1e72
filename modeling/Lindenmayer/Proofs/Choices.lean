import Lindenmayer.Derivation.Weighted
import Mathlib

/-!
# Choices by weight

The weights of rules share out the numbers below their sum: each weight has as many of them as
it says, one share behind the other (`pick_eq_iff`). A draw is multiplied by the sum of the
weights, and the high half of the product tells the share.

High halves do not fall to the same number of draws by themselves, since the sum need not divide
`2 ^ 64`. But each of them falls to the same number of *accepted* draws, those whose low half is
below a multiple of the sum: they follow each other, from the first draw that reaches the high
half on (`mem_accepting_iff`). So the draws that choose a rule are as many as its weight says,
times a number that is the same for all of them (`ncard_choose?`).

* `activeWeights_eq_ok_iff`: which weights rules can be chosen by (`Weighable`), and what is
  read off them;
* `sample_position`: a search in a stream ends at the first draw that is accepted;
* `choice_isProportional`: such weights make a choice, and it is exactly proportional.
-/

namespace Lindenmayer

theorem map_eq_ok_iff {α β ε : Type} {f : α → β} {x : Except ε α} {b : β} :
    x.map f = .ok b ↔ ∃ a, x = .ok a ∧ f a = b := by
  cases x <;> simp [Except.map]

theorem map_eq_error_iff {α β ε : Type} {f : α → β} {x : Except ε α} {e : ε} :
    x.map f = .error e ↔ x = .error e := by
  cases x <;> simp [Except.map]

/-! ## Streams -/

namespace Generator

variable {key : Key} {n : ℕ}

/-- The generator in front of the draw with the number `n` of a stream. -/
def position (key : Key) (n : ℕ) : Generator where
  key := key
  counter := .ofNat (n / 8)
  words := ChaCha.block key (.ofNat (n / 8))
  next := ⟨n % 8, Nat.mod_lt n (by decide)⟩

theorem ofSeed_eq_position (seed : Seed) : ofSeed seed = position (keyOf seed) 0 := rfl

theorem advance_position : (position key n).advance = position key (n + 1) := by
  have hnext : (position key n).next = 7 ↔ n % 8 = 7 := Fin.ext_iff
  rw [advance]
  split_ifs with h
  · have hmod : n % 8 = 7 := hnext.1 h
    have hdiv : (n + 1) / 8 = n / 8 + 1 := by omega
    have hcounter : UInt64.ofNat (n / 8) + 1 = .ofNat ((n + 1) / 8) := by
      rw [hdiv, UInt64.ofNat_add]
      rfl
    have hzero : (n + 1) % 8 = 0 := by omega
    simp only [position, hcounter, hzero]
    rfl
  · have hmod : n % 8 ≠ 7 := mt hnext.2 h
    have hdiv : (n + 1) / 8 = n / 8 := by omega
    have hsucc : (position key n).next + 1 = (position key (n + 1)).next :=
      Fin.ext (by simp [position, Fin.val_add])
    rw [hsucc]
    simp only [position, hdiv]

theorem iterate_advance (m : ℕ) : advance^[m] (position key n) = position key (n + m) := by
  induction m generalizing n with
  | zero => rfl
  | succ m ih =>
    rw [Function.iterate_succ_apply, advance_position, ih, Nat.add_right_comm, add_assoc]

/-- A stream repeats after its period. -/
theorem position_add_period (key : Key) (n : ℕ) : position key (n + period) = position key n := by
  have hdiv : (n + period) / 8 = n / 8 + UInt64.size := Nat.add_mul_div_left _ _ (by decide)
  have hcounter : UInt64.ofNat (n / 8 + UInt64.size) = .ofNat (n / 8) := by
    rw [UInt64.ofNat_add]
    exact add_zero _
  have hmod : (n + period) % 8 = n % 8 := Nat.add_mul_mod_self_left _ _ _
  simp only [position, hdiv, hcounter, hmod]

theorem position_add_mul_period (key : Key) (n count : ℕ) :
    position key (n + count * period) = position key n := by
  induction count with
  | zero => rw [zero_mul, add_zero]
  | succ count ih => rw [Nat.succ_mul, ← add_assoc, position_add_period, ih]

/-- Each draw of a stream is met within a period, from any position on. -/
theorem exists_position_eq (key : Key) (n k : ℕ) :
    ∃ j < period, position key k = position key (n + j) := by
  have hpos : 0 < period := by decide
  -- It comes back behind the position, and as many periods before that within the first one.
  obtain ⟨d, hd⟩ := Nat.exists_eq_add_of_le
    ((Nat.le_mul_of_pos_right n hpos).trans (Nat.le_add_left _ k))
  have hperiods : n + d = n + d % period + d / period * period := by
    rw [add_assoc, Nat.mod_add_div']
  refine ⟨d % period, Nat.mod_lt d hpos, ?_⟩
  rw [← position_add_mul_period key k n, hd, hperiods, position_add_mul_period]

end Generator

/-! ## Weights of rules -/

/-- Rules that can be chosen by weights: there is a rule, each has a weight, which is positive,
    and their weights add up to less than `2 ^ 64`. What weights there are besides does not
    matter. -/
structure Weighable (rules : List Word) (weights : List Int64) : Prop where
  rules_ne : rules ≠ []
  length_le : rules.length ≤ weights.length
  pos : ∀ w ∈ weights.take rules.length, 0 < w.toInt
  sum_lt : ((weights.take rules.length).map Int64.toInt).sum < 2 ^ 64

namespace RuleSet

variable {rules : List Word} {weights ws : List Int64} {active : List ℕ} {total : ℕ}

theorem sum_toInt_nonneg (h : ∀ w ∈ ws, 0 < w.toInt) : 0 ≤ (ws.map Int64.toInt).sum := by
  refine List.sum_nonneg fun x hx => ?_
  obtain ⟨w, hw, rfl⟩ := List.mem_map.1 hx
  exact (h w hw).le

theorem takeWeights_eq_ok_iff (htotal : total < 2 ^ 64) :
    takeWeights total ws = .ok active ↔
      (∀ w ∈ ws, 0 < w.toInt) ∧ total + (ws.map Int64.toInt).sum < 2 ^ 64 ∧
        active = ws.map (·.toInt.toNat) := by
  induction ws generalizing total active with
  | nil =>
    have hcast : (total : ℤ) < 2 ^ 64 := by exact_mod_cast htotal
    simpa [takeWeights, eq_comm] using fun _ => hcast
  | cons w ws ih =>
    rw [takeWeights, List.forall_mem_cons, List.map_cons, List.sum_cons]
    by_cases hw : w.toInt ≤ 0
    · simp [hw, not_lt.2 hw]
    have hcast : ((total + w.toInt.toNat : ℕ) : ℤ) = total + w.toInt := by
      rw [Nat.cast_add, Int.toNat_of_nonneg (not_le.1 hw).le]
    rw [if_neg hw]
    by_cases hsum : UInt64.size ≤ total + w.toInt.toNat
    · rw [if_pos hsum]
      refine iff_of_false (by simp) fun ⟨⟨_, hws⟩, hlt, _⟩ => ?_
      -- What the other weights add is not negative.
      have hrest := sum_toInt_nonneg hws
      have hsize : (2 : ℤ) ^ 64 = UInt64.size := rfl
      omega
    · rw [if_neg hsum, map_eq_ok_iff]
      simp only [ih (not_le.1 hsum), hcast, List.map_cons, add_assoc, not_le.1 hw, true_and]
      constructor
      · rintro ⟨l, ⟨hws, hlt, rfl⟩, rfl⟩
        exact ⟨hws, hlt, rfl⟩
      · rintro ⟨hws, hlt, rfl⟩
        exact ⟨_, ⟨hws, hlt, rfl⟩, rfl⟩

/-- Weights are read off rules that can be chosen by them. -/
theorem activeWeights_eq_ok_iff :
    activeWeights rules weights = .ok active ↔
      Weighable rules weights ∧ active = (weights.take rules.length).map (·.toInt.toNat) := by
  rw [activeWeights]
  by_cases hrules : rules = []
  · exact iff_of_false (by simp [hrules]) fun h => h.1.rules_ne hrules
  by_cases hlength : weights.length < rules.length
  · refine iff_of_false ?_ fun h => absurd h.1.length_le (not_le.2 hlength)
    split_ifs <;> simp
  have hweights : ¬ weights.isEmpty := by
    intro hempty
    rw [List.isEmpty_iff.1 hempty] at hlength
    exact hlength (List.length_pos_of_ne_nil hrules)
  rw [if_neg (by simpa using hrules), if_neg hweights, if_neg hlength,
    takeWeights_eq_ok_iff (by norm_num), Nat.cast_zero, zero_add]
  exact ⟨fun ⟨hpos, hsum, h⟩ => ⟨⟨hrules, not_lt.1 hlength, hpos, hsum⟩, h⟩,
    fun ⟨h, hactive⟩ => ⟨h.pos, h.sum_lt, hactive⟩⟩

/-- Weights without a rule are not looked at. -/
theorem activeWeights_append (h : rules.length ≤ weights.length) (extra : List Int64) :
    activeWeights rules (weights ++ extra) = activeWeights rules weights := by
  by_cases hrules : rules = []
  · simp [activeWeights, hrules]
  have hweights : weights ≠ [] := by
    rintro rfl
    exact hrules (List.length_eq_zero_iff.1 (Nat.le_zero.1 h))
  have hlength : ¬ weights.length + extra.length < rules.length := by omega
  simp [activeWeights, hrules, hweights, not_lt.2 h, hlength, List.take_append_of_le_length h]

variable (h : activeWeights rules weights = .ok active)
include h

theorem length_active : active.length = rules.length := by
  obtain ⟨hw, rfl⟩ := activeWeights_eq_ok_iff.1 h
  simpa using hw.length_le

theorem active_pos : ∀ w ∈ active, 0 < w := by
  obtain ⟨hw, rfl⟩ := activeWeights_eq_ok_iff.1 h
  intro x hx
  obtain ⟨w, hmem, rfl⟩ := List.mem_map.1 hx
  exact Int.pos_iff_toNat_pos.1 (hw.pos w hmem)

theorem active_ne_nil : active ≠ [] := by
  intro hnil
  have hlength := length_active h
  rw [hnil] at hlength
  exact (activeWeights_eq_ok_iff.1 h).1.rules_ne (List.length_eq_zero_iff.1 hlength.symm)

theorem sum_active_pos : 0 < active.sum := by
  obtain ⟨w, hw⟩ := List.exists_mem_of_ne_nil _ (active_ne_nil h)
  exact (active_pos h w hw).trans_le (List.single_le_sum (fun _ _ => Nat.zero_le _) _ hw)

theorem sum_active_lt : active.sum < 2 ^ 64 := by
  obtain ⟨hw, rfl⟩ := activeWeights_eq_ok_iff.1 h
  have hsum : ((((weights.take rules.length).map (·.toInt.toNat)).sum : ℕ) : ℤ) =
      ((weights.take rules.length).map Int64.toInt).sum := by
    rw [Nat.cast_list_sum, List.map_map]
    congr 1
    exact List.map_congr_left fun w hmem => Int.toNat_of_nonneg (hw.pos w hmem).le
  have hlt := hw.sum_lt
  rw [← hsum] at hlt
  exact_mod_cast hlt

end RuleSet

namespace Choice

variable {weights : List ℕ} {i n total : ℕ}

/-! ## Shares -/

theorem totalWeight_eq_sum (weights : List ℕ) : totalWeight weights = weights.sum := rfl

/-- The numbers that fall to an index are those from the weights before it on, and as many as
    its own weight. -/
theorem pick_eq_iff (hn : n < weights.sum) :
    pick weights n = i ↔ (weights.take i).sum ≤ n ∧ n < (weights.take (i + 1)).sum := by
  induction weights generalizing n i with
  | nil => simp at hn
  | cons w ws ih =>
    rw [pick]
    by_cases hw : n < w
    · rw [if_pos hw]
      cases i with
      | zero => simpa using hw
      | succ i =>
        simp only [List.take_succ_cons, List.sum_cons]
        omega
    · rw [if_neg hw]
      cases i with
      | zero => simpa using not_lt.1 hw
      | succ i =>
        rw [List.sum_cons] at hn
        rw [Nat.add_right_cancel_iff, ih (by omega)]
        simp only [List.take_succ_cons, List.sum_cons]
        omega

/-- The index is the first one whose weight, with those before it, is more than the number. -/
theorem pick_eq_iff_isLeast (hn : n < weights.sum) :
    pick weights n = i ↔ IsLeast {k | n < (weights.take (k + 1)).sum} i := by
  have hleast : IsLeast {k | n < (weights.take (k + 1)).sum} (pick weights n) := by
    obtain ⟨hle, hlt⟩ := (pick_eq_iff hn).1 rfl
    refine ⟨hlt, fun k hk => not_lt.1 fun hki => ?_⟩
    have hmono := List.monotone_sum_take weights (Nat.succ_le_of_lt hki)
    exact absurd hk (not_lt.2 (hmono.trans hle))
  exact ⟨fun h => h ▸ hleast, fun h => hleast.unique h⟩

theorem pick_lt_length (hn : n < weights.sum) : pick weights n < weights.length := by
  by_contra hle
  have h := ((pick_eq_iff hn).1 rfl).1
  rw [List.take_of_length_le (not_lt.1 hle)] at h
  omega

/-! ## Accepted draws -/

/-- A draw is accepted if the low half of its product with the sum of the weights is not among
    the greatest numbers of 64 bits, as many of which are rejected as the sum leaves of
    `2 ^ 64`. -/
def Accepted (total : ℕ) (draw : UInt64) : Prop :=
  draw.toNat * total % 2 ^ 64 ≤ 2 ^ 64 - 1 - (2 ^ 64 - total) % total

/-- The high half of the product of a draw with the sum of the weights. -/
def highHalf (total : ℕ) (draw : UInt64) : ℕ := draw.toNat * total / 2 ^ 64

theorem highHalf_lt (htotal : 0 < total) (draw : UInt64) : highHalf total draw < total :=
  Nat.div_lt_of_lt_mul (Nat.mul_lt_mul_of_pos_right draw.toNat_lt htotal)

theorem choose?_eq_some_iff {draw : UInt64} :
    choose? weights draw = some i ↔
      Accepted weights.sum draw ∧ pick weights (highHalf weights.sum draw) = i := by
  rw [choose?, Option.ite_none_right_eq_some, Option.some.injEq]
  rfl

/-- What is accepted is below a multiple of the sum. -/
theorem accepted_iff (htotal : 0 < total) (hlt : total < 2 ^ 64) {draw : UInt64} :
    Accepted total draw ↔ draw.toNat * total % 2 ^ 64 < total * (2 ^ 64 / total) := by
  have hrejected : (2 ^ 64 - total) % total = 2 ^ 64 % total := (Nat.mod_eq_sub_mod hlt.le).symm
  have hdiv := Nat.div_add_mod (2 ^ 64) total
  have hmod := Nat.mod_lt (2 ^ 64) htotal
  rw [Accepted, hrejected]
  omega

/-- The numbers that the accepted draws with the high half `n` are: as many as the sum goes into
    `2 ^ 64`, from the first one on whose product reaches `n * 2 ^ 64`. -/
def accepting (total n : ℕ) : Finset ℕ :=
  .Ico (n * 2 ^ 64 ⌈/⌉ total) (n * 2 ^ 64 ⌈/⌉ total + 2 ^ 64 / total)

theorem mem_accepting_iff (htotal : 0 < total) {v : ℕ} :
    v ∈ accepting total n ↔
      v * total % 2 ^ 64 < total * (2 ^ 64 / total) ∧ v * total / 2 ^ 64 = n := by
  have hle : total * (2 ^ 64 / total) ≤ 2 ^ 64 := Nat.mul_div_le _ _
  have hproduct : v * total % 2 ^ 64 < total * (2 ^ 64 / total) ∧ v * total / 2 ^ 64 = n ↔
      n * 2 ^ 64 ≤ total * v ∧ total * v < n * 2 ^ 64 + total * (2 ^ 64 / total) := by
    rw [mul_comm v]
    omega
  rw [hproduct, accepting, Finset.mem_Ico, ceilDiv_le_iff_le_mul htotal]
  refine and_congr_right fun hreach => ?_
  rcases Nat.lt_or_ge v (2 ^ 64 / total) with hsmall | hlarge
  · have := Nat.mul_lt_mul_of_pos_left hsmall htotal
    exact iff_of_true (by omega) (by omega)
  · -- So many numbers before, the product has not yet reached the high half.
    obtain ⟨k, rfl⟩ := Nat.exists_eq_add_of_le hlarge
    have hbefore := not_congr (ceilDiv_le_iff_le_mul (b := n * 2 ^ 64) (c := k) htotal)
    rw [mul_add]
    omega

theorem lt_of_mem_accepting (hn : n < total) {v : ℕ} (hv : v ∈ accepting total n) :
    v < 2 ^ 64 := by
  have htotal := (Nat.zero_le n).trans_lt hn
  have hhigh := ((mem_accepting_iff htotal).1 hv).2
  by_contra hge
  have hproduct : 2 ^ 64 * total ≤ v * total := Nat.mul_le_mul_right _ (not_lt.1 hge)
  omega

/-- The draws that choose an index are the accepted ones with a high half in its share. -/
theorem image_choose? (hpos : 0 < weights.sum) (hlt : weights.sum < 2 ^ 64) (i : ℕ) :
    UInt64.toNat '' {draw | choose? weights draw = some i} =
      ((Finset.Ico (weights.take i).sum (weights.take (i + 1)).sum).biUnion
        (accepting weights.sum) : Set ℕ) := by
  have hshare : (weights.take (i + 1)).sum ≤ weights.sum :=
    (List.take_sublist _ _).sum_le_sum fun _ _ => Nat.zero_le _
  ext v
  simp only [Set.mem_image, Set.mem_ofPred_eq, choose?_eq_some_iff, accepted_iff hpos hlt,
    pick_eq_iff (highHalf_lt hpos _), Finset.mem_coe, Finset.mem_biUnion, Finset.mem_Ico]
  constructor
  · rintro ⟨draw, ⟨haccepted, hpick⟩, rfl⟩
    exact ⟨_, hpick, (mem_accepting_iff hpos).2 ⟨haccepted, rfl⟩⟩
  · rintro ⟨n, hn, hv⟩
    have hv64 := lt_of_mem_accepting (hn.2.trans_le hshare) hv
    obtain ⟨haccepted, rfl⟩ := (mem_accepting_iff hpos).1 hv
    have hdraw : (UInt64.ofNat v).toNat = v := UInt64.toNat_ofNat_of_lt hv64
    exact ⟨.ofNat v, ⟨by rwa [hdraw], by rwa [highHalf, hdraw]⟩, hdraw⟩

/-- To each index fall as many draws as its weight says, times a number that is the same for all
    of them. -/
theorem ncard_choose? (hpos : 0 < weights.sum) (hlt : weights.sum < 2 ^ 64)
    (hi : i < weights.length) :
    {draw | choose? weights draw = some i}.ncard = weights[i] * (2 ^ 64 / weights.sum) := by
  have hinjective : Function.Injective UInt64.toNat := fun _ _ => UInt64.toNat_inj.1
  have hdisjoint : Set.PairwiseDisjoint
      (Finset.Ico (weights.take i).sum (weights.take (i + 1)).sum : Set ℕ)
      (accepting weights.sum) := by
    intro n _ m _ hnm
    refine Finset.disjoint_left.2 fun v hn hm => hnm ?_
    rw [← ((mem_accepting_iff hpos).1 hn).2, ((mem_accepting_iff hpos).1 hm).2]
  rw [← Set.ncard_image_of_injective _ hinjective, image_choose? hpos hlt,
    Set.ncard_coe_finset, Finset.card_biUnion hdisjoint]
  simp [accepting, List.sum_take_succ _ _ hi]

theorem choose?_lt_length (hpos : 0 < weights.sum) {draw : UInt64}
    (h : choose? weights draw = some i) : i < weights.length := by
  obtain ⟨-, rfl⟩ := choose?_eq_some_iff.1 h
  exact pick_lt_length (highHalf_lt hpos draw)

/-! ## Searches -/

/-- A search ends behind the first draw that is accepted, or behind the last one that it may
    make. -/
theorem sampleWithin_cases (weights : List ℕ) (fuel : ℕ) (g : Generator) :
    (∃ k < fuel, ∃ i, (∀ j < k, choose? weights (Generator.advance^[j] g).word = none) ∧
      choose? weights (Generator.advance^[k] g).word = some i ∧
      sampleWithin weights fuel g = (i, Generator.advance^[k + 1] g)) ∨
    (∀ j < fuel, choose? weights (Generator.advance^[j] g).word = none) ∧
      sampleWithin weights fuel g = (0, Generator.advance^[fuel] g) := by
  induction fuel generalizing g with
  | zero => exact .inr ⟨fun _ hj => absurd hj (Nat.not_lt_zero _), rfl⟩
  | succ fuel ih =>
    rw [sampleWithin]
    cases h : choose? weights g.word with
    | some i =>
      exact .inl ⟨0, fuel.succ_pos, i, fun _ hj => absurd hj (Nat.not_lt_zero _), h, rfl⟩
    | none =>
      have hcons {k : ℕ}
          (hrest : ∀ j < k, choose? weights (Generator.advance^[j] g.advance).word = none) :
          ∀ j < k + 1, choose? weights (Generator.advance^[j] g).word = none :=
        Nat.forall_lt_succ_left.2 ⟨h, hrest⟩
      rcases ih g.advance with ⟨k, hk, i, hrejected, hchosen, hsample⟩ | ⟨hrejected, hsample⟩
      · exact .inl ⟨k + 1, Nat.succ_lt_succ hk, i, hcons hrejected, hchosen, hsample⟩
      · exact .inr ⟨hcons hrejected, hsample⟩

theorem sample_lt_length (hpos : 0 < weights.sum) (g : Generator) :
    (sample weights g).1 < weights.length := by
  rcases sampleWithin_cases weights Generator.period g with
    ⟨k, -, i, -, hchosen, hsample⟩ | ⟨-, hsample⟩
  · rw [sample, hsample]
    exact choose?_lt_length hpos hchosen
  · rw [sample, hsample]
    refine List.length_pos_of_ne_nil ?_
    rintro rfl
    simp at hpos

section Streams

open Generator (position)

variable {key : Key}

theorem choose?_eq_none_iff {draw : UInt64} :
    choose? weights draw = none ↔ ¬ Accepted weights.sum draw := by
  rw [choose?, ite_eq_right_iff]
  simp only [reduceCtorEq, imp_false]
  rfl

/-- **A choice is the one of the first draw that is accepted.** If any draw of a stream is, then
    every search in the stream ends at the first one that it meets, and goes on behind it. -/
theorem sample_position (h : ∃ k, Accepted weights.sum (position key k).word) (n : ℕ) :
    ∃ k, IsLeast {k | n ≤ k ∧ Accepted weights.sum (position key k).word} k ∧
      sample weights (position key n) =
        (pick weights (highHalf weights.sum (position key k).word), position key (k + 1)) := by
  have hcases := sampleWithin_cases weights Generator.period (position key n)
  simp only [Generator.iterate_advance, choose?_eq_none_iff] at hcases
  rcases hcases with ⟨k, -, i, hrejected, hchosen, hsample⟩ | ⟨hrejected, -⟩
  · obtain ⟨haccepted, rfl⟩ := choose?_eq_some_iff.1 hchosen
    refine ⟨n + k, ⟨⟨Nat.le_add_right n k, haccepted⟩, ?_⟩, hsample⟩
    rintro m ⟨hnm, hm⟩
    obtain ⟨j, rfl⟩ := Nat.exists_eq_add_of_le hnm
    exact Nat.add_le_add_left (not_lt.1 fun hj => hrejected j hj hm) n
  · -- A period is searched, and the draw that is accepted comes back in each.
    obtain ⟨k, hk⟩ := h
    obtain ⟨j, hj, hposition⟩ := Generator.exists_position_eq key n k
    rw [hposition] at hk
    exact absurd hk (hrejected j hj)

/-- A stream without such a draw is left where the search began. -/
theorem sample_position_of_rejected (h : ∀ k, ¬ Accepted weights.sum (position key k).word)
    (n : ℕ) : sample weights (position key n) = (0, position key n) := by
  have hcases := sampleWithin_cases weights Generator.period (position key n)
  simp only [Generator.iterate_advance] at hcases
  rcases hcases with ⟨k, -, i, -, hchosen, -⟩ | ⟨-, hsample⟩
  · exact absurd (choose?_eq_some_iff.1 hchosen).1 (h _)
  · rw [sample, hsample, Generator.position_add_period]

end Streams

end Choice

/-! ## Choosers -/

variable {rules : List Word} {weights : List Int64} {active : List ℕ}

/-- Weights that rules can be chosen by make a choice. -/
theorem Weighted.chooser_of_activeWeights (h : RuleSet.activeWeights rules weights = .ok active)
    (seed : Seed) : chooser rules weights seed = .ok ⟨active, .ofSeed seed⟩ := by
  have husable : Choice.unusableWeights? active = none := by
    have hempty : ¬ active.isEmpty := by simpa using RuleSet.active_ne_nil h
    rw [Choice.unusableWeights?, if_neg hempty, Choice.totalWeight_eq_sum,
      if_neg (RuleSet.sum_active_pos h).ne']
  simp only [chooser, h, bind, Except.bind, husable]

/-- **Choices by weight are exactly proportional.** Weights can be read off rules if the rules
    can be chosen by them, and weights without a rule are not looked at. The weights that are
    read make a chooser, for every seed. A draw that is accepted chooses the first rule whose
    weight, with those before it, is more than the high half of the product; there is such a
    rule, also at the end of a search for a draw that is accepted. To each rule fall as many of
    the `2 ^ 64` draws as its weight says, times the number that says how often the sum of the
    weights goes into `2 ^ 64`. -/
theorem choice_isProportional (rules : List Word) (weights : List Int64) :
    ((∃ active, RuleSet.activeWeights rules weights = .ok active) ↔ Weighable rules weights) ∧
    (rules.length ≤ weights.length → ∀ extra,
      RuleSet.activeWeights rules (weights ++ extra) = RuleSet.activeWeights rules weights) ∧
    ∀ active, RuleSet.activeWeights rules weights = .ok active →
      active = (weights.take rules.length).map (·.toInt.toNat) ∧
      (∀ seed, Weighted.chooser rules weights seed = .ok ⟨active, .ofSeed seed⟩) ∧
      (∀ draw i, Choice.choose? active draw = some i ↔ Choice.Accepted active.sum draw ∧
        IsLeast {k | Choice.highHalf active.sum draw < (active.take (k + 1)).sum} i) ∧
      (∀ draw, Choice.Accepted active.sum draw →
        ∃ i, i < rules.length ∧ Choice.choose? active draw = some i) ∧
      (∀ g, (Choice.sample active g).1 < rules.length) ∧
      ∀ i, i < rules.length → ∃ w, active[i]? = some w ∧
        {draw | Choice.choose? active draw = some i}.ncard = w * (2 ^ 64 / active.sum) ∧
        0 < w * (2 ^ 64 / active.sum) := by
  refine ⟨?_, fun h => RuleSet.activeWeights_append h, fun active h => ?_⟩
  · simp only [RuleSet.activeWeights_eq_ok_iff, exists_and_left, exists_eq, and_true]
  have hpos := RuleSet.sum_active_pos h
  have hlt := RuleSet.sum_active_lt h
  have hlength := RuleSet.length_active h
  refine ⟨(RuleSet.activeWeights_eq_ok_iff.1 h).2, Weighted.chooser_of_activeWeights h, ?_, ?_, ?_,
    fun i hi => ?_⟩
  · intro draw i
    rw [Choice.choose?_eq_some_iff, Choice.pick_eq_iff_isLeast (Choice.highHalf_lt hpos draw)]
  · intro draw haccepted
    have hchosen := Choice.choose?_eq_some_iff.2 ⟨haccepted, rfl⟩
    exact ⟨_, hlength ▸ Choice.choose?_lt_length hpos hchosen, hchosen⟩
  · exact fun g => hlength ▸ Choice.sample_lt_length hpos g
  · rw [← hlength] at hi
    refine ⟨active[i], List.getElem?_eq_getElem hi, Choice.ncard_choose? hpos hlt hi, ?_⟩
    exact Nat.mul_pos (RuleSet.active_pos h _ (List.getElem_mem hi)) (Nat.div_pos hlt.le hpos)

/-- Three does not divide `2 ^ 64`, so one draw is rejected, and two thirds of the others choose
    the second rule. The third weight has no rule. -/
theorem choice_isProportional_thirds :
    RuleSet.activeWeights [['F'], []] [1, 2, -5] = .ok [1, 2] ∧
      Choice.choose? [1, 2] 0x5555555555555555 = none ∧
      {draw | Choice.choose? [1, 2] draw = some 1}.ncard = 2 * (2 ^ 64 / 3) := by
  have hactive : RuleSet.activeWeights [['F'], []] [1, 2, -5] = .ok [1, 2] := rfl
  obtain ⟨-, -, hchoice⟩ := choice_isProportional [['F'], []] [1, 2, -5]
  obtain ⟨-, -, -, -, -, hshares⟩ := hchoice _ hactive
  obtain ⟨w, hw, hcard, -⟩ := hshares 1 (by decide)
  obtain rfl : 2 = w := Option.some.inj hw
  exact ⟨hactive, by decide, hcard⟩

end Lindenmayer

import Lindenmayer.Proofs.Generations

/-!
# How words grow

Literal rules whose keys are single symbols rewrite a word symbol by symbol: a sweep puts together
what becomes of each symbol (`Literal.rewrite_eq_flatMap`), and so does a whole derivation
(`derive_eq_iterate`). Words that are written behind each other are derived behind each other.

How often the symbols occur in the next generation can be told from how often they occur in the
word: their numbers are multiplied by the matrix of the rules (`Literal.growth`). Along a
derivation this is a power of the matrix (`Literal.counts_iterate`).

* `derive_append_and_count`: both laws of a derivation.
-/

namespace Lindenmayer

open Matrix

/-- There are finitely many symbols. -/
noncomputable local instance fintypeChar : Fintype Char :=
  .ofInjective (fun c : Char => c.val.toBitVec.toFin) fun _ _ h =>
    Char.ext (UInt32.toBitVec_inj.1 (BitVec.toFin_inj.1 h))

namespace Literal

variable {rules : List (Word × Word)}

/-! ## Sweeps -/

/-- What becomes of a symbol: the replacement of the first rule that is declared for it, and
    without such a rule the symbol itself. -/
def image (rules : List (Word × Word)) (c : Char) : Word :=
  match rules.find? (·.1 = [c]) with
  | some rule => rule.2
  | none => [c]

/-- The generation after a word, symbol by symbol. -/
def sweep (rules : List (Word × Word)) (w : Word) : Word := w.flatMap (image rules)

section

variable (hkeys : ∀ rule ∈ rules, rule.1.length = 1)
include hkeys

theorem firstMatch_cons (c : Char) (w : Word) :
    firstMatch rules (c :: w) = rules.find? (·.1 = [c]) := by
  induction rules with
  | nil => rfl
  | cons rule rules ih =>
    obtain ⟨hrule, hrules⟩ := List.forall_mem_cons.1 hkeys
    obtain ⟨k, hk⟩ := List.length_eq_one_iff.1 hrule
    have hmatches : rule.1.isPrefixOf (c :: w) = decide (rule.1 = [c]) := by
      simp [hk, List.isPrefixOf, beq_eq_decide]
    have hrest : rules.find? (fun rule => rule.1.isPrefixOf (c :: w)) =
        rules.find? (·.1 = [c]) := ih hrules
    rw [firstMatch, List.find?_cons, List.find?_cons, hmatches, hrest]

theorem rewriteInto_eq_sweep (done w : Word) :
    rewriteInto rules done 0 w = done.reverse ++ sweep rules w := by
  induction w generalizing done with
  | nil => simp [rewriteInto, sweep]
  | cons c w ih =>
    rw [rewriteInto, firstMatch_cons hkeys, sweep, List.flatMap_cons, image]
    cases hmatch : rules.find? (·.1 = [c]) with
    | none => simp [ih, sweep]
    | some rule =>
      -- The key is used up by its only symbol, so nothing is skipped.
      have hlength : rule.1.length = 1 := hkeys rule (List.mem_of_find?_eq_some hmatch)
      simp [hlength, ih, sweep]

theorem rewrite_eq_sweep (w : Word) : rewrite rules w = sweep rules w :=
  rewriteInto_eq_sweep hkeys [] w

end

theorem sweep_append (v w : Word) : sweep rules (v ++ w) = sweep rules v ++ sweep rules w :=
  List.flatMap_append

theorem sweep_iterate_append (n : ℕ) (v w : Word) :
    (sweep rules)^[n] (v ++ w) = (sweep rules)^[n] v ++ (sweep rules)^[n] w := by
  induction n generalizing v w with
  | zero => rfl
  | succ n ih => simp only [Function.iterate_succ_apply, sweep_append, ih]

/-! ## Numbers of symbols -/

/-- How often each symbol occurs in a word. -/
def counts (w : Word) : Char → ℕ := fun c => w.count c

/-- How often a symbol `c` occurs in the replacement of `d`. A symbol without a rule stays, and so
    it is there once. -/
def growth (rules : List (Word × Word)) : Matrix Char Char ℕ :=
  .of fun d c =>
    match rules.find? (·.1 = [d]) with
    | some rule => rule.2.count c
    | none => if d = c then 1 else 0

theorem growth_apply (d c : Char) : growth rules d c = (image rules d).count c := by
  simp only [growth, of_apply, image]
  cases rules.find? (·.1 = [d]) with
  | some rule => rfl
  | none => simp [List.count_singleton, beq_eq_decide]

/-- Every occurrence of a symbol in a generation comes from one in the word before. -/
theorem counts_sweep (w : Word) : counts (sweep rules w) = counts w ᵥ* growth rules := by
  funext c
  calc (sweep rules w).count c
      = (w.map fun d => (image rules d).count c).sum := List.count_flatMap
    _ = ∑ d ∈ w.toFinset, w.count d • (image rules d).count c :=
        Finset.sum_list_map_count w fun d => (image rules d).count c
    _ = ∑ d, w.count d * (image rules d).count c := by
        refine Finset.sum_subset (Finset.subset_univ _) fun d _ hd => ?_
        rw [List.count_eq_zero.2 fun hmem => hd (List.mem_toFinset.2 hmem), zero_smul]
    _ = ∑ d, w.count d * growth rules d c := by simp only [growth_apply]

theorem counts_iterate (n : ℕ) (w : Word) :
    counts ((sweep rules)^[n] w) = counts w ᵥ* growth rules ^ n := by
  induction n generalizing w with
  | zero => rw [pow_zero, vecMul_one]; rfl
  | succ n ih =>
    rw [Function.iterate_succ_apply, ih, counts_sweep, vecMul_vecMul, pow_succ']

end Literal

/-! ## Derivations -/

variable {rules : List (Word × Word)}

/-- A derivation that nothing cuts short is one sweep after the other. -/
theorem derive_eq_iterate (hkeys : ∀ rule ∈ rules, rule.1.length = 1) (n : ℕ) {w : Word}
    (hne : w ≠ []) : derive n w (.literal rules) = .ok ((Literal.sweep rules)^[n] w) := by
  have hvalid : RuleSet.validateLiteral rules = .ok () := by
    have hnone : rules.any (·.1.isEmpty) = false := by
      refine List.any_eq_false.2 fun rule hrule => ?_
      have hlength := hkeys rule hrule
      simpa using List.ne_nil_of_length_pos (by omega : 0 < rule.1.length)
    rw [RuleSet.validateLiteral, hnone]
    rfl
  have hgenerations : Derivation.generations (Derivation.literalStep rules) {} n 1 w () =
      .ok ((Literal.sweep rules)^[n] w, ()) := by
    induction n with
    | zero => rfl
    | succ n ih =>
      rw [Derivation.generations_succ rfl rfl, ih, Function.iterate_succ_apply',
        ← Literal.rewrite_eq_sweep hkeys]
      rfl
  rw [derive_literal hne hvalid, hgenerations]
  rfl

/-- **Rules for single symbols are homomorphisms, and words grow by a matrix.** Whatever the rules
    for single symbols are, a word written behind another one is derived behind it, and the number
    of each symbol in a derivation of order `n` is told from those in the start by the `n`-th power
    of the matrix of the rules. -/
theorem derive_append_and_count (hkeys : ∀ rule ∈ rules, rule.1.length = 1) (n : ℕ) :
    (∀ a b, a ≠ [] → b ≠ [] → ∃ u v, derive n a (.literal rules) = .ok u ∧
      derive n b (.literal rules) = .ok v ∧ derive n (a ++ b) (.literal rules) = .ok (u ++ v)) ∧
    ∀ a, a ≠ [] → ∃ u, derive n a (.literal rules) = .ok u ∧
      ∀ c, u.count c = ∑ d, a.count d * (Literal.growth rules ^ n) d c := by
  refine ⟨fun a b ha hb => ?_, fun a ha => ?_⟩
  · refine ⟨_, _, derive_eq_iterate hkeys n ha, derive_eq_iterate hkeys n hb, ?_⟩
    rw [← Literal.sweep_iterate_append]
    exact derive_eq_iterate hkeys n (by simp [ha])
  · exact ⟨_, derive_eq_iterate hkeys n ha, congrFun (Literal.counts_iterate n a)⟩

/-- Fibonacci's rabbits: the old ones have young, which grow old, and a third kind dies out. A
    second rule for the young is never used. -/
def rabbits : List (Word × Word) :=
  [(['O'], ['O', 'Y']), (['Y'], ['O']), (['Y'], ['X', 'X']), (['X'], [])]

/-- After five generations there are eight old rabbits of one, and so the power of the matrix is
    known. -/
theorem derive_append_and_count_rabbits :
    derive 2 ['O'] (.literal rabbits) = .ok ['O', 'Y', 'O'] ∧
      derive 2 ['X', 'Y'] (.literal rabbits) = .ok ['O', 'Y'] ∧
      derive 2 ['O', 'X', 'Y'] (.literal rabbits) = .ok ['O', 'Y', 'O', 'O', 'Y'] ∧
      (Literal.growth rabbits ^ 5) 'O' 'O' = 8 := by
  have hkeys : ∀ rule ∈ rabbits, rule.1.length = 1 := by decide
  have hleft : derive 2 ['O'] (.literal rabbits) = .ok ['O', 'Y', 'O'] := rfl
  have hright : derive 2 ['X', 'Y'] (.literal rabbits) = .ok ['O', 'Y'] := rfl
  refine ⟨hleft, hright, ?_, ?_⟩
  · obtain ⟨u, v, hu, hv, huv⟩ :=
      (derive_append_and_count hkeys 2).1 ['O'] ['X', 'Y'] (by decide) (by decide)
    obtain rfl := Except.ok.inj (hleft.symm.trans hu)
    obtain rfl := Except.ok.inj (hright.symm.trans hv)
    exact huv
  · obtain ⟨u, hu, hcount⟩ := (derive_append_and_count hkeys 5).2 ['O'] (by decide)
    have hfifth : derive 5 ['O'] (.literal rabbits) = .ok ['O', 'Y', 'O', 'O', 'Y', 'O', 'Y', 'O',
      'O', 'Y', 'O', 'O', 'Y'] := rfl
    obtain rfl := Except.ok.inj (hfifth.symm.trans hu)
    -- Only the row of the symbol that the derivation starts from counts.
    have hrow : ∑ d, ['O'].count d * (Literal.growth rabbits ^ 5) d 'O' =
        (Literal.growth rabbits ^ 5) 'O' 'O' := by
      rw [Finset.sum_eq_single 'O' (fun d _ hd => by simp [hd.symm]) (by simp)]
      simp
    rw [← hrow, ← hcount]
    rfl

end Lindenmayer

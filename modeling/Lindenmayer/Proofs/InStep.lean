import Lindenmayer.Proofs.Growth

/-!
# Derivations in step

Two derivations go in step if their sweeps do: what the second sweep makes of the image of a word
is the image of what the first one makes of the word, and where one fails the other fails in the
same way (`Derivation.InStep`). The states of the rules need not have anything to do with each
other. If a word and its image take the same number of bytes, no limit tells the two apart, and
each generation of the second derivation is the image of the same generation of the first
(`Derivation.generations_inStep`, `Drives.derive_inStep`).

Weighted rules that all have one replacement leave nothing to choose. A draw is still made for each
`F`, and the generator moves on, but the word does not depend on it, so the derivation goes in step
with the one by the literal rule for `F`.

* `derive_soleReplacement`: weighted rules with one replacement are a literal rule.
-/

namespace Lindenmayer

/-! ## Sweeps in step -/

namespace Derivation

variable {σ τ : Type} {rewrite : Word → σ → Except Error (Word × σ)}
  {rewrite' : Word → τ → Except Error (Word × τ)} {f : Word → Word}

/-- Whatever the states are, the second sweep makes of the image of a word the image of what the
    first one makes of the word, or both fail with one error. -/
def InStep (f : Word → Word) (rewrite : Word → σ → Except Error (Word × σ))
    (rewrite' : Word → τ → Except Error (Word × τ)) : Prop :=
  ∀ w state state', (rewrite' (f w) state').map Prod.fst = (rewrite w state).map fun s => f s.1

/-- Of two outcomes that are in step, both are the same error, or both are words, the second one the
    image of the first. -/
theorem outcomes_inStep {x : Except Error (Word × σ)} {y : Except Error (Word × τ)}
    (h : y.map Prod.fst = x.map fun s => f s.1) :
    (∃ e, x = .error e ∧ y = .error e) ∨ ∃ s s', x = .ok s ∧ y = .ok s' ∧ s'.1 = f s.1 := by
  cases x with
  | error e => exact .inl ⟨e, rfl, map_eq_error_iff.1 h⟩
  | ok s =>
    obtain ⟨s', hs', himage⟩ := map_eq_ok_iff.1 h
    exact .inr ⟨s, s', rfl, hs', himage⟩

/-- The limit does not tell words that take the same number of bytes. -/
theorem checkGrowth_congr {options : Options} {number : ℕ} {v w : Word}
    (h : v.byteLength = w.byteLength) :
    checkGrowth options number v = checkGrowth options number w := by
  rw [checkGrowth, checkGrowth, h]

variable (hsize : ∀ w, (f w).byteLength = w.byteLength) (hstep : InStep f rewrite rewrite')
include hsize hstep

theorem generation_inStep (options : Options) (number : ℕ) :
    InStep f (generation rewrite options number) (generation rewrite' options number) := by
  intro w state state'
  rw [generation, generation]
  split_ifs
  · rfl
  rcases outcomes_inStep (hstep w state state') with ⟨e, h, h'⟩ | ⟨s, s', h, h', himage⟩
  · rw [h, h']
    rfl
  · simp only [h, h', himage, checkGrowth_congr (hsize s.1)]
    cases checkGrowth options number s.1 <;> rfl

theorem generations_inStep (options : Options) (count number : ℕ) :
    InStep f (generations rewrite options count number)
      (generations rewrite' options count number) := by
  intro w state state'
  induction count generalizing number w state state' with
  | zero => rfl
  | succ count ih =>
    rw [generations, generations]
    rcases outcomes_inStep (generation_inStep hsize hstep options number w state state') with
      ⟨e, h, h'⟩ | ⟨s, s', h, h', himage⟩
    · rw [h, h']
      rfl
    · simp only [h, h', himage]
      exact ih (number + 1) s.1 s.2 s'.2

end Derivation

/-- A derivation that goes in step with another one comes to the image of its word, or fails as it
    does. -/
theorem Drives.derive_inStep {σ τ : Type} {rewrite : Word → σ → Except Error (Word × σ)}
    {rewrite' : Word → τ → Except Error (Word × τ)} {rules rules' : RuleSet} {state : σ}
    {state' : τ} {f : Word → Word} {start : Word} {options : Derivation.Options}
    (h : Drives rules options.seed rewrite state)
    (h' : Drives rules' options.seed rewrite' state')
    (hsize : ∀ w, (f w).byteLength = w.byteLength)
    (hstep : Derivation.InStep f rewrite rewrite') (hne : start ≠ []) (hne' : f start ≠ [])
    (order : ℕ) :
    derive order (f start) rules' options = (derive order start rules options).map f := by
  have hgenerations := Derivation.generations_inStep hsize hstep options order 1 start state state'
  rw [h order start options hne rfl, h' order (f start) options hne' rfl, hgenerations]
  cases Derivation.generations rewrite options order 1 start state <;> rfl

/-! ## One replacement -/

/-- The literal rule that puts a word in the place of the symbol of weighted rules. -/
def soleRule (x : Word) : List (Word × Word) := [([weightedPredecessor], x)]

theorem image_soleRule (x : Word) (c : Char) :
    Literal.image (soleRule x) c = if c = weightedPredecessor then x else [c] := by
  by_cases hc : c = weightedPredecessor
  · subst hc
    rfl
  · have hnone : (soleRule x).find? (·.1 = [c]) = none := by simp [soleRule, Ne.symm hc]
    rw [Literal.image, hnone, if_neg hc]

variable {rules : List Word} {weights : List Int64} {active : List ℕ} {x : Word}

/-- Whatever the generator is, a sweep puts the only replacement in. -/
theorem run_rewrite_of_sole (hactive : RuleSet.activeWeights rules weights = .ok active)
    (hsole : ∀ y ∈ rules, y = x) (w : Word) (g : Generator) :
    ((Weighted.rewrite rules active w).run g).1 = Literal.sweep (soleRule x) w := by
  induction w generalizing g with
  | nil => rfl
  | cons c w ih =>
    have hcons : Literal.sweep (soleRule x) (c :: w) =
        (if c = weightedPredecessor then x else [c]) ++ Literal.sweep (soleRule x) w := by
      rw [Literal.sweep, List.flatMap_cons, image_soleRule]
      rfl
    rw [Weighted.run_rewrite_cons, ih, hcons]
    by_cases hc : c = weightedPredecessor
    · subst hc
      have hlt : (Choice.sample active g).1 < rules.length :=
        RuleSet.length_active hactive ▸ Choice.sample_lt_length (RuleSet.sum_active_pos hactive) g
      rw [Weighted.run_successor_predecessor, List.getElem?_eq_getElem hlt, if_pos rfl,
        Option.getD_some, hsole _ (List.getElem_mem hlt)]
    · rw [Weighted.run_successor_of_ne hc, if_neg hc]

theorem inStep_soleRule (hactive : RuleSet.activeWeights rules weights = .ok active)
    (hsole : ∀ y ∈ rules, y = x) :
    Derivation.InStep id (Derivation.weightedStep rules active)
      (Derivation.literalStep (soleRule x)) := by
  intro w g _
  have hkeys : ∀ rule ∈ soleRule x, rule.1.length = 1 := by simp [soleRule]
  exact congrArg Except.ok ((Literal.rewrite_eq_sweep hkeys w).trans
    (run_rewrite_of_sole hactive hsole w g).symm)

/-- **Weighted rules without a choice are a literal rule.** If weights can be read off weighted
    rules whose replacements are all the same, be there one or many of them, a derivation comes to
    what it comes to by the literal rule that puts this replacement in the place of `F`, be that a
    word or an error, whatever the weights, the seed, the limit and the deadline are. -/
theorem derive_soleReplacement (hactive : RuleSet.activeWeights rules weights = .ok active)
    (hsole : ∀ y ∈ rules, y = x) (order : ℕ) (start : Word) (options : Derivation.Options) :
    derive order start (.weighted rules weights) options =
      derive order start (.literal [(['F'], x)]) options := by
  by_cases hne : start = []
  · subst hne
    rfl
  have hvalid : RuleSet.validateLiteral (soleRule x) = .ok () := rfl
  have h := (drives_weighted hactive options.seed).derive_inStep
    (drives_literal hvalid options.seed) (fun _ => rfl) (inStep_soleRule hactive hsole) hne hne
    order
  exact (h.trans (congrFun Except.map_id _)).symm

/-- Two rules that do the same. The third weight has no rule, and the second generation outgrows a
    limit of five bytes. -/
theorem derive_soleReplacement_twins :
    RuleSet.activeWeights [['F', 'A', 'F'], ['F', 'A', 'F']] [1, 2, -5] = .ok [1, 2] ∧
      derive 2 ['F'] (.weighted [['F', 'A', 'F'], ['F', 'A', 'F']] [1, 2, -5]) ⟨7, some 5, false⟩ =
        .error (.aborted 2 (.growth 7 5)) ∧
      derive 2 ['F'] (.weighted [['F', 'A', 'F'], ['F', 'A', 'F']] [1, 2, -5]) ⟨7, none, false⟩ =
        .ok ['F', 'A', 'F', 'A', 'F', 'A', 'F'] := by
  have hactive : RuleSet.activeWeights [['F', 'A', 'F'], ['F', 'A', 'F']] [1, 2, -5] = .ok [1, 2] :=
    rfl
  have hsole : ∀ y ∈ [['F', 'A', 'F'], ['F', 'A', 'F']], y = ['F', 'A', 'F'] := by simp
  exact ⟨hactive, (derive_soleReplacement hactive hsole 2 ['F'] ⟨7, some 5, false⟩).trans rfl,
    (derive_soleReplacement hactive hsole 2 ['F'] ⟨7, none, false⟩).trans rfl⟩

end Lindenmayer

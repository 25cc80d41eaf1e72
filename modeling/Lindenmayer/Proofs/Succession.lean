import Lindenmayer.Proofs.Generations

/-!
# Choices in succession

One generator serves a whole derivation by weighted rules: it is seeded once and handed on from
symbol to symbol and from generation to generation. So there is one succession of choices
(`Choice.inTurn`), told by the weights and the seed alone, from which the symbols that are replaced
take theirs, in the order in which they are met. How many draws a choice takes does not matter.

* `Choice.inTurn_eq_acceptedDraw`: the choices are those of the accepted draws of a stream;
* `Weighted.run_rewrite`: a sweep takes a choice for each `F` of the word, and leaves the generator
  behind them;
* `Derivation.record_eq_ok`: the words that a derivation goes through are those that it comes to
  at the lower orders;
* `derive_inTurn`: a derivation by weighted rules, told by the succession of choices.
-/

namespace Lindenmayer

/-! ## Choices -/

namespace Choice

/-- The generator behind a number of choices. -/
def after (weights : List ℕ) (g : Generator) (n : ℕ) : Generator :=
  (fun g => (sample weights g).2)^[n] g

/-- The choices that one generator makes, one after the other. -/
def inTurn (weights : List ℕ) (g : Generator) (n : ℕ) : ℕ := (sample weights (after weights g n)).1

variable {weights : List ℕ} {g : Generator} {m n : ℕ}

theorem after_after : after weights (after weights g m) n = after weights g (m + n) := by
  rw [after, after, ← Function.iterate_add_apply, Nat.add_comm, after]

theorem inTurn_after : inTurn weights (after weights g m) = fun n => inTurn weights g (m + n) := by
  funext n
  rw [inTurn, after_after, inTurn]

/-! ### The draws of a stream -/

section

open Generator (position keyOf)

/-- Whether the draw with a number in the stream of a key is accepted. -/
def AcceptedAt (weights : List ℕ) (key : Key) (k : ℕ) : Prop :=
  Accepted weights.sum (position key k).word

instance (weights : List ℕ) (key : Key) : DecidablePred (AcceptedAt weights key) :=
  fun _ => inferInstanceAs (Decidable (_ ≤ _))

/-- The number of the draw that is accepted after `n` others. -/
noncomputable def acceptedDraw (weights : List ℕ) (key : Key) (n : ℕ) : ℕ :=
  Nat.nth (AcceptedAt weights key) n

variable {key : Key} (h : ∃ k, AcceptedAt weights key k)
include h

theorem infinite_acceptedAt : {k | AcceptedAt weights key k}.Infinite := by
  refine Set.infinite_of_forall_exists_gt fun n => ?_
  obtain ⟨k, hk, -⟩ := sample_position h (n + 1)
  exact ⟨k, hk.1.2, hk.1.1⟩

/-- A search ends at the next draw that is accepted. -/
theorem sample_position_of_count (hn : Nat.count (AcceptedAt weights key) m = n) :
    sample weights (position key m) =
      (pick weights (highHalf weights.sum (position key (acceptedDraw weights key n)).word),
        position key (acceptedDraw weights key n + 1)) := by
  obtain ⟨k, hk, hsample⟩ := sample_position h m
  have hnth : acceptedDraw weights key n = k := by
    rw [acceptedDraw, ← hn, Nat.nth_count_eq_sInf, ← hk.csInf_eq]
    simp only [AcceptedAt, and_comm]
  rw [hnth, hsample]

/-- Behind a number of choices, as many draws have been accepted. -/
theorem exists_after_eq_position (n : ℕ) :
    ∃ m, after weights (position key 0) n = position key m ∧
      Nat.count (AcceptedAt weights key) m = n := by
  induction n with
  | zero => exact ⟨0, rfl, Nat.count_zero _⟩
  | succ n ih =>
    obtain ⟨m, hm, hcount⟩ := ih
    refine ⟨acceptedDraw weights key n + 1, ?_,
      Nat.count_nth_succ_of_infinite (infinite_acceptedAt h) n⟩
    rw [after, Function.iterate_succ_apply', ← after, hm, sample_position_of_count h hcount]

omit h in
/-- **Choices are made by the accepted draws.** If any draw of the stream of a seed is accepted,
    then the choices of the succession are those of its accepted draws, in order. -/
theorem inTurn_eq_acceptedDraw {seed : Seed} (h : ∃ k, AcceptedAt weights (keyOf seed) k) (n : ℕ) :
    inTurn weights (.ofSeed seed) n = pick weights (highHalf weights.sum
      (position (keyOf seed) (acceptedDraw weights (keyOf seed) n)).word) := by
  obtain ⟨m, hm, hcount⟩ := exists_after_eq_position h n
  rw [inTurn, Generator.ofSeed_eq_position, hm, sample_position_of_count h hcount]

end

end Choice

/-! ## Sweeps -/

namespace Weighted

/-- A word in which every `F` has given way to the replacement that is chosen for it: to the first
    one of the word falls the choice with the number `first`, and so on. All else stays. -/
def chosen (rules : List Word) (choice : ℕ → ℕ) (first : ℕ) (w : Word) : Word :=
  w.zipIdx.flatMap fun s =>
    if s.1 = weightedPredecessor then
      rules[choice (first + (w.take s.2).count weightedPredecessor)]?.getD []
    else [s.1]

variable {rules : List Word} {choice : ℕ → ℕ} {first k : ℕ} {c : Char} {w : Word}

theorem chosen_cons : chosen rules choice first (c :: w) =
    (if c = weightedPredecessor then rules[choice first]?.getD [] else [c]) ++
      chosen rules choice (first + [c].count weightedPredecessor) w := by
  rw [chosen, List.zipIdx_cons, List.flatMap_cons, chosen, List.zipIdx_succ, List.flatMap_map]
  congr 1
  refine List.flatMap_congr fun s _ => ?_
  rw [List.take_succ_cons, ← List.singleton_append, List.count_append, Nat.add_assoc]

theorem chosen_shift :
    chosen rules (fun n => choice (k + n)) first w = chosen rules choice (k + first) w := by
  simp only [chosen, Nat.add_assoc]

/-- A sweep takes a choice for each `F` of the word, in the order in which they stand. -/
theorem run_rewrite (rules : List Word) (weights : List ℕ) (w : Word) (g : Generator) :
    (rewrite rules weights w).run g = (chosen rules (Choice.inTurn weights g) 0 w,
      Choice.after weights g (w.count weightedPredecessor)) := by
  induction w generalizing g with
  | nil => rfl
  | cons c w ih =>
    rw [run_rewrite_cons, ih, chosen_cons, Nat.zero_add]
    by_cases hc : c = weightedPredecessor
    · subst hc
      have hnext : (Choice.sample weights g).2 = Choice.after weights g 1 := rfl
      rw [run_successor_predecessor, if_pos rfl, hnext, Choice.inTurn_after, chosen_shift,
        Choice.after_after, List.count_singleton_self, List.count_cons_self,
        Nat.add_comm 1 (w.count weightedPredecessor)]
      rfl
    · rw [run_successor_of_ne hc, if_neg hc, List.count_singleton, if_neg (by simpa using hc),
        List.count_cons_of_ne hc]

end Weighted

/-! ## Generations -/

namespace Derivation

section

variable {σ : Type} {rewrite : Word → σ → Except Error (Word × σ)} {options : Options}

/-- The words that generations go through, from the one on that they start from. -/
def record (rewrite : Word → σ → Except Error (Word × σ)) (options : Options) :
    ℕ → ℕ → Word → σ → Except Error (List Word)
  | 0, _, w, _ => .ok [w]
  | count + 1, number, w, state =>
    match generation rewrite options number w state with
    | .error e => .error e
    | .ok (next, state) => (record rewrite options count (number + 1) next state).map (w :: ·)

/-- The last word of the record is the one that the generations come to. -/
theorem record_succ (count number : ℕ) (w : Word) (state : σ) :
    record rewrite options (count + 1) number w state =
      (record rewrite options count number w state).bind fun l =>
        (generations rewrite options (count + 1) number w state).map fun s => l ++ [s.1] := by
  induction count generalizing number w state with
  | zero =>
    rw [generations_one, record]
    cases h : generation rewrite options number w state <;>
      simp [record, h, Except.bind, Except.map]
  | succ count ih =>
    rw [record, record, generations]
    cases generation rewrite options number w state with
    | error e => rfl
    | ok s =>
      simp only [ih]
      cases record rewrite options count (number + 1) s.1 s.2 with
      | error e => rfl
      | ok l => cases generations rewrite options (count + 1) (number + 1) s.1 s.2 <;> rfl

theorem record_eq_ok {number : ℕ} {w : Word} {state : σ} {stage : ℕ → Word} {states : ℕ → σ}
    (h : ∀ n, generations rewrite options n number w state = .ok (stage n, states n)) (n : ℕ) :
    record rewrite options n number w state = .ok ((List.range (n + 1)).map stage) := by
  induction n with
  | zero =>
    obtain ⟨rfl, -⟩ := Prod.mk.inj (Except.ok.inj (h 0))
    rfl
  | succ n ih =>
    rw [record_succ, ih, h, List.range_succ (n := n + 1), List.map_append]
    rfl

end

/-- The generations of a start, each by the choices that those before it have left. -/
def stage (rules : List Word) (choice : ℕ → ℕ) (start : Word) : ℕ → Word × ℕ
  | 0 => (start, 0)
  | n + 1 =>
    let s := stage rules choice start n
    (Weighted.chosen rules choice s.2 s.1, s.2 + s.1.count weightedPredecessor)

theorem stage_snd (rules : List Word) (choice : ℕ → ℕ) (start : Word) (n : ℕ) :
    (stage rules choice start n).2 =
      ∑ i ∈ Finset.range n, (stage rules choice start i).1.count weightedPredecessor := by
  induction n with
  | zero => rfl
  | succ n ih => rw [Finset.sum_range_succ, ← ih, stage]

/-- A generation goes on with the choices where the one before has stopped. -/
theorem generations_weighted {options : Options} (hlimit : options.limit = none)
    (hexpired : options.expired = false) (rules : List Word) (active : List ℕ) (start : Word)
    (g : Generator) (number n : ℕ) :
    generations (weightedStep rules active) options n number start g =
      .ok ((stage rules (Choice.inTurn active g) start n).1,
        Choice.after active g (stage rules (Choice.inTurn active g) start n).2) := by
  induction n with
  | zero => rfl
  | succ n ih =>
    rw [generations_succ hlimit hexpired, ih]
    simp only [Except.bind, weightedStep, Weighted.run_rewrite, Choice.inTurn_after,
      Weighted.chosen_shift, Choice.after_after, stage, Nat.add_zero]

end Derivation

/-! ## Derivations -/

/-- **One generator serves a whole derivation.** By valid weighted rules and for every seed, there
    is one succession of choices among the rules, those that a generator seeded once makes one
    after the other. The first `F` that a derivation meets gives way to the first choice, the
    second one to the second, and so on from generation to generation; all else stays, and what is
    put in is not looked at in the same generation. A derivation of order `n` has made as many
    choices as there is an `F` in the generations before the last, and the generations that it has
    gone through are the first ones of any longer derivation. Only the empty start comes to
    nothing. -/
theorem derive_inTurn {rules : List Word} {weights : List Int64}
    (hvalid : RuleSet.validate (.weighted rules weights) = .ok ()) :
    ∃ active, RuleSet.activeWeights rules weights = .ok active ∧ ∀ (seed : Seed) (start : Word),
      (∀ j, Choice.inTurn active (.ofSeed seed) j < rules.length) ∧
      ∃ stage : ℕ → Word, stage 0 = start ∧
        (∀ n, stage (n + 1) = Weighted.chosen rules (Choice.inTurn active (.ofSeed seed))
          (∑ i ∈ Finset.range n, (stage i).count weightedPredecessor) (stage n)) ∧
        ∀ n,
          derive n start (.weighted rules weights) ⟨seed, none, false⟩ =
            (if start = [] then .error (.configuration .emptyStart) else .ok (stage n)) ∧
          Derivation.generations (Derivation.weightedStep rules active) ⟨seed, none, false⟩ n 1
              start (.ofSeed seed) =
            .ok (stage n, Choice.after active (.ofSeed seed)
              (∑ i ∈ Finset.range n, (stage i).count weightedPredecessor)) ∧
          Derivation.record (Derivation.weightedStep rules active) ⟨seed, none, false⟩ n 1
              start (.ofSeed seed) = .ok ((List.range (n + 1)).map stage) := by
  obtain ⟨active, hactive, -⟩ := map_eq_ok_iff.1 hvalid
  refine ⟨active, hactive, fun seed start => ⟨fun j => ?_, ?_⟩⟩
  · rw [← RuleSet.length_active hactive]
    exact Choice.sample_lt_length (RuleSet.sum_active_pos hactive) _
  have hoptions : (⟨seed, none, false⟩ : Derivation.Options).limit = none := rfl
  have hgenerations := Derivation.generations_weighted hoptions rfl rules active start
    (.ofSeed seed) 1
  refine ⟨fun n => (Derivation.stage rules (Choice.inTurn active (.ofSeed seed)) start n).1, rfl,
    fun n => ?_, fun n => ⟨?_, ?_, Derivation.record_eq_ok hgenerations n⟩⟩
  · rw [← Derivation.stage_snd]
    rfl
  · split_ifs with hstart
    · rw [hstart]
      rfl
    · rw [derive_weighted hstart hactive, hgenerations]
      rfl
  · rw [hgenerations, Derivation.stage_snd]

/-- Two symbols meet the first two choices, which both fork, and their successors meet the next
    four. The third weight has no rule. -/
theorem derive_inTurn_forking :
    RuleSet.validate (.weighted [['F', 'F'], ['F', 'A']] [1, 2, -5]) = .ok () ∧
      (List.range 6).map (Choice.inTurn [1, 2] (.ofSeed 7)) = [0, 0, 0, 1, 0, 1] ∧
      Derivation.generations (Derivation.weightedStep [['F', 'F'], ['F', 'A']] [1, 2])
          ⟨7, none, false⟩ 2 1 ['F', 'F'] (.ofSeed 7) =
        .ok (['F', 'F', 'F', 'A', 'F', 'F', 'F', 'A'], Choice.after [1, 2] (.ofSeed 7) 6) ∧
      derive 2 ['F', 'F'] (.weighted [['F', 'F'], ['F', 'A']] [1, 2, -5]) ⟨7, none, false⟩ =
        .ok ['F', 'F', 'F', 'A', 'F', 'F', 'F', 'A'] := by
  have hvalid : RuleSet.validate (.weighted [['F', 'F'], ['F', 'A']] [1, 2, -5]) = .ok () := rfl
  have hchoices : (List.range 6).map (Choice.inTurn [1, 2] (.ofSeed 7)) = [0, 0, 0, 1, 0, 1] := by
    decide +kernel
  obtain ⟨active, hactive, hderive⟩ := derive_inTurn hvalid
  obtain rfl : [1, 2] = active := Except.ok.inj hactive
  obtain ⟨-, stage, hstart, hstage, hruns⟩ := hderive 7 ['F', 'F']
  have hfirst : stage 1 = ['F', 'F', 'F', 'F'] := by
    rw [hstage, Finset.sum_range_zero, hstart]
    decide +kernel
  have hsecond : stage 2 = ['F', 'F', 'F', 'A', 'F', 'F', 'F', 'A'] := by
    rw [hstage, Finset.sum_range_one, hstart, hfirst]
    decide +kernel
  obtain ⟨hword, hgenerations, -⟩ := hruns 2
  rw [Finset.sum_range_succ, Finset.sum_range_one, hstart, hfirst, hsecond] at hgenerations
  rw [hsecond] at hword
  exact ⟨hvalid, hchoices, hgenerations, hword⟩

end Lindenmayer

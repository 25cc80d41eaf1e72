import Lindenmayer.Proofs.Interruption
import Lindenmayer.Proofs.Sweep

/-!
# Derivations in stages

Rules that choose nothing carry no state from one generation to the next, so a derivation can be
interrupted at any generation and taken up again from the word it has come to, while the clock goes
on (`Options.later`). Only two things tell a generation where it stands: an abort names its number
(`generations_later`), and the empty word, which the next generations leave as it is
(`generations_nil`), is not taken as a start.

* `derive_add`: the derivation of order `m + n` is the one of order `m`, and from its word on the
  one of order `n`.
-/

namespace Lindenmayer

/-- The error, with the number of the generation raised by `m` if it is an abort. -/
def Error.later (m : ℕ) : Error → Error
  | .aborted generation reason => .aborted (m + generation) reason
  | e => e

theorem mapError_map {α β ε : Type} (f : α → β) (g : ε → ε) (x : Except ε α) :
    (x.mapError g).map f = (x.map f).mapError g := by
  cases x <;> rfl

/-! ## Generations -/

namespace Derivation

/-- The options of a derivation that is taken up again behind `m` generations: its first generation
    finds the clock as the next one would have found it. -/
def Options.later (options : Options) (m : ℕ) : Options :=
  { options with expired := ⟨fun number => options.expired.before (m + number)⟩ }

variable {σ : Type} {rewrite : Word → σ → Except Error (Word × σ)} {options : Options} {m : ℕ}

@[simp]
theorem Options.seed_later : (options.later m).seed = options.seed := rfl

@[simp]
theorem Options.limit_later : (options.later m).limit = options.limit := rfl

@[simp]
theorem Options.before_later (number : ℕ) :
    (options.later m).expired.before number = options.expired.before (m + number) := rfl

/-- The clock makes no difference to a deadline that had passed at the start, nor if there is
    none. -/
theorem Options.later_eq {passed : Bool} (h : options.expired = passed) :
    options.later m = options := by
  obtain ⟨seed, limit, expired⟩ := options
  obtain rfl : expired = passed := h
  rfl

/-- A sweep whose errors are no aborts tells the number of a generation only by an abort. -/
theorem generation_later (hrewrite : ∀ w state e, rewrite w state = .error e → e.later m = e)
    (number : ℕ) (w : Word) (state : σ) :
    generation rewrite options (m + number) w state =
      (generation rewrite (options.later m) number w state).mapError (Error.later m) := by
  rw [generation, generation, Options.before_later]
  split_ifs
  · rfl
  cases hw : rewrite w state with
  | error e => exact congrArg Except.error (hrewrite w state e hw).symm
  | ok s =>
    simp only [checkGrowth, Options.limit_later]
    cases options.limit with
    | none => rfl
    | some limit =>
      dsimp only
      split_ifs <;> rfl

theorem generations_later (hrewrite : ∀ w state e, rewrite w state = .error e → e.later m = e)
    (count number : ℕ) (w : Word) (state : σ) :
    generations rewrite options count (m + number) w state =
      (generations rewrite (options.later m) count number w state).mapError (Error.later m) := by
  induction count generalizing number w state with
  | zero => rfl
  | succ count ih =>
    rw [generations, generations, generation_later hrewrite]
    cases generation rewrite (options.later m) number w state with
    | error e => rfl
    | ok s => exact ih (number + 1) s.1 s.2

/-- The empty word stays if a sweep leaves it as it is, since it outgrows no limit. -/
theorem generations_nil {state : σ} (hrewrite : rewrite [] state = .ok ([], state)) (count : ℕ)
    {number : ℕ} (hexpired : ∀ k < count, options.expired.before (number + k) = false) :
    generations rewrite options count number [] state = .ok ([], state) := by
  have hgrowth : ∀ number, checkGrowth options number [] = .ok () := by
    intro number
    rw [checkGrowth]
    cases options.limit <;> rfl
  induction count generalizing number with
  | zero => rfl
  | succ count ih =>
    have hfirst : ¬ options.expired.before number = true :=
      Bool.eq_false_iff.1 (hexpired 0 count.succ_pos)
    rw [generations, generation, if_neg hfirst]
    simp only [hrewrite, hgrowth]
    refine ih fun k hk => ?_
    rw [Nat.add_right_comm]
    exact hexpired (k + 1) (Nat.succ_lt_succ hk)

end Derivation

/-! ## Rules that choose nothing -/

/-- Rules whose sweeps choose nothing. -/
inductive Deterministic : RuleSet → Prop
  | literal (rules : List (Word × Word)) : Deterministic (.literal rules)
  | contextual (rules : ContextRules) : Deterministic (.contextual rules)

theorem Contextual.Blames.later {w : Word} {e : Error} (h : Blames w e) (m : ℕ) :
    e.later m = e := by
  cases h <;> rfl

theorem Contextual.blames_of_rewrite {table : ContextTable} {w : Word} {e : Error}
    (h : rewrite table w = .error e) : Blames w e := by
  obtain ⟨pos, c, hc, herror⟩ := exists_mem_of_rewrite_error h
  exact blames_of_successorAt hc herror

variable {rules : RuleSet} {start w : Word} {options : Derivation.Options} {m : ℕ}

/-- A sweep without a state that drives the derivations by the rules. It leaves the empty word as
    it is, and its errors are no aborts. -/
structure Sweeps (rules : RuleSet) (seed : Seed)
    (rewrite : Word → Unit → Except Error (Word × Unit)) : Prop where
  drives : Drives rules seed rewrite ()
  nil : rewrite [] () = .ok ([], ())
  later : ∀ m w state e, rewrite w state = .error e → e.later m = e

theorem Deterministic.exists_sweeps (h : Deterministic rules) (hvalid : rules.validate = .ok ())
    (seed : Seed) : ∃ rewrite, Sweeps rules seed rewrite := by
  cases h with
  | literal rules =>
    refine ⟨Derivation.literalStep rules, drives_literal hvalid seed, rfl, ?_⟩
    rintro m w state e ⟨⟩
  | contextual rules =>
    obtain ⟨table, hcompile, -⟩ := map_eq_ok_iff.1 hvalid
    refine ⟨Derivation.contextualStep table, drives_contextual hcompile seed, rfl,
      fun m w state e he => ?_⟩
    exact (Contextual.blames_of_rewrite (map_eq_error_iff.1 he)).later m

/-- A word that is derived has been come to by sweeps, from a start that is not empty. -/
theorem Deterministic.exists_generations (h : Deterministic rules)
    (hw : derive m start rules options = .ok w) :
    start ≠ [] ∧ ∃ rewrite, Sweeps rules options.seed rewrite ∧
      Derivation.generations rewrite options m 1 start () = .ok (w, ()) := by
  rcases derive_error_or_valid start rules with ⟨e, hfails⟩ | ⟨hne, hvalid⟩
  · rw [hfails] at hw
    cases hw
  obtain ⟨rewrite, hsweeps⟩ := h.exists_sweeps hvalid options.seed
  rw [hsweeps.drives m start options hne rfl, map_eq_ok_iff] at hw
  obtain ⟨s, hs, rfl⟩ := hw
  exact ⟨hne, rewrite, hsweeps, hs⟩

/-! ## Derivations -/

theorem derive_add_of_error (h : Deterministic rules) {e : Error}
    (herror : derive m start rules options = .error e) (n : ℕ) :
    derive (m + n) start rules options = .error e := by
  rcases derive_error_or_valid start rules with ⟨e', hfails⟩ | ⟨hne, hvalid⟩
  · rw [hfails] at herror ⊢
    exact herror
  obtain ⟨rewrite, hsweeps⟩ := h.exists_sweeps hvalid options.seed
  rw [hsweeps.drives m start options hne rfl, map_eq_error_iff] at herror
  rw [hsweeps.drives (m + n) start options hne rfl, Derivation.generations_add, herror]
  rfl

theorem derive_add_of_ok (h : Deterministic rules)
    (hw : derive m start rules options = .ok w) (hne : w ≠ []) (n : ℕ) :
    derive (m + n) start rules options =
      (derive n w rules (options.later m)).mapError (Error.later m) := by
  obtain ⟨hstart, rewrite, hsweeps, hs⟩ := h.exists_generations hw
  rw [hsweeps.drives (m + n) start options hstart rfl,
    hsweeps.drives n w (options.later m) hne Derivation.Options.seed_later,
    Derivation.generations_add, hs, ← mapError_map,
    ← Derivation.generations_later (hsweeps.later m), Nat.add_comm 1]
  rfl

theorem derive_add_of_nil (h : Deterministic rules)
    (hw : derive m start rules options = .ok []) {n : ℕ}
    (hexpired : ∀ k, m < k → k ≤ m + n → options.expired.before k = false) :
    derive (m + n) start rules options = .ok [] := by
  obtain ⟨hstart, rewrite, hsweeps, hs⟩ := h.exists_generations hw
  have hlater : ∀ k < n, options.expired.before (1 + m + k) = false :=
    fun k hk => hexpired _ (by omega) (by omega)
  rw [hsweeps.drives (m + n) start options hstart rfl, Derivation.generations_add, hs]
  simp only [Except.bind, Derivation.generations_nil hsweeps.nil n hlater]
  rfl

/-- **Derivations compose.** For rules that choose nothing, and whatever the options are, a
    derivation of order `m + n` fails as the one of order `m` does. If that comes to a word, the
    derivation goes on as one of order `n` from the word does, but for the number of the
    generation in an abort, which is `m` more; its options are the same, but that the clock has
    gone on, which makes no difference unless a deadline passes on the way. The empty word is no
    start, but it stays as long as no deadline passes. -/
theorem derive_add (h : Deterministic rules) (m n : ℕ) (start : Word)
    (options : Derivation.Options) :
    (∀ e, derive m start rules options = .error e →
      derive (m + n) start rules options = .error e) ∧
    (∀ w, derive m start rules options = .ok w → w ≠ [] →
      derive (m + n) start rules options =
        (derive n w rules (options.later m)).mapError (Error.later m)) ∧
    (∀ passed : Bool, options.expired = passed → options.later m = options) ∧
    (derive m start rules options = .ok [] →
      ((∀ k, m < k → k ≤ m + n → options.expired.before k = false) →
        derive (m + n) start rules options = .ok []) ∧
      derive n [] rules options = .error (.configuration .emptyStart)) :=
  ⟨fun _ herror => derive_add_of_error h herror n, fun _ hw hne => derive_add_of_ok h hw hne n,
    fun _ => Derivation.Options.later_eq, fun hw => ⟨derive_add_of_nil h hw, rfl⟩⟩

/-- Rules by which a word becomes twice as long, or vanishes. -/
def doubling : RuleSet := .literal [(['A'], ['A', 'A']), (['B'], [])]

/-- The third generation from the start is the first one from the word of the second, and both
    outgrow the limit. A word that has vanished stays away. -/
theorem derive_add_doubling :
    derive 2 ['A'] doubling ⟨0, some 4, false⟩ = .ok ['A', 'A', 'A', 'A'] ∧
      derive 1 ['A', 'A', 'A', 'A'] doubling ⟨0, some 4, false⟩ =
        .error (.aborted 1 (.growth 8 4)) ∧
      derive (2 + 1) ['A'] doubling ⟨0, some 4, false⟩ = .error (.aborted 3 (.growth 8 4)) ∧
      derive (1 + 2) ['B'] doubling = .ok [] := by
  have hrules : Deterministic doubling := .literal _
  have hsecond : derive 2 ['A'] doubling ⟨0, some 4, false⟩ = .ok ['A', 'A', 'A', 'A'] := rfl
  have hnext : derive 1 ['A', 'A', 'A', 'A'] doubling ⟨0, some 4, false⟩ =
    .error (.aborted 1 (.growth 8 4)) := rfl
  obtain ⟨-, hgoesOn, hlater, -⟩ := derive_add hrules 2 1 ['A'] ⟨0, some 4, false⟩
  obtain ⟨-, -, -, hstays⟩ := derive_add hrules 1 2 ['B'] {}
  refine ⟨hsecond, hnext, ?_, (hstays rfl).1 fun _ _ _ => rfl⟩
  rw [hgoesOn _ hsecond (by decide), hlater false rfl, hnext]
  rfl

end Lindenmayer

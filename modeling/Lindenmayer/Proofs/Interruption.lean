import Lindenmayer.Proofs.Generations

/-!
# Derivations that are cut short

A derivation is stopped in front of a generation if its deadline has passed, and behind one that
takes more bytes than its limit. Nothing else comes of a limit: as long as no generation outgrows
it, the derivation goes on as if there were none, with the same state of its rules
(`generations_of_within`), and the first generation that does ends it (`generations_outgrown`),
whatever would have come later.

* `derive_limited`: what a derivation comes to under a limit, told by the same derivation without
  one.
-/

namespace Lindenmayer

/-- The bytes that a word takes are those of its string. -/
theorem Word.byteLength_eq_utf8ByteSize (w : Word) :
    w.byteLength = (String.ofList w).utf8ByteSize := by
  induction w with
  | nil => rfl
  | cons c w ih =>
    rw [String.ofList_cons, String.utf8ByteSize_append, String.utf8ByteSize_singleton, ← ih]
    rfl

/-- Whether an outcome is a word that takes more bytes in UTF-8 than a limit. -/
def Outgrows (limit : ℕ) (x : Except Error Word) : Prop :=
  ∃ w, x = .ok w ∧ limit < (String.ofList w).utf8ByteSize

/-! ## Generations -/

namespace Derivation

variable {σ : Type} {rewrite : Word → σ → Except Error (Word × σ)} {options : Options}

/-- Behind a deadline there is no generation. -/
theorem generations_expired {number : ℕ} (hexpired : options.expired.before number = true)
    (count : ℕ) (w : Word) (state : σ) :
    generations rewrite options (count + 1) number w state =
      .error (.aborted number .deadline) := by
  rw [generations, generation, if_pos hexpired]

variable {seed : Seed} {limit count number g : ℕ} {w : Word} {state : σ}

/-- Under a limit, one sweep, and then the limit. -/
theorem generation_limited (seed : Seed) (limit number : ℕ) (w : Word) (state : σ) :
    generation rewrite ⟨seed, some limit, false⟩ number w state = (rewrite w state).bind fun s =>
      if limit < s.1.byteLength then .error (.aborted number (.growth s.1.byteLength limit))
      else .ok s := by
  rw [generation, if_neg (by simp)]
  cases rewrite w state with
  | error e => rfl
  | ok s =>
    simp only [checkGrowth, Except.bind]
    split_ifs <;> rfl

/-- As long as no generation outgrows a limit, there might as well be none. -/
theorem generations_of_within
    (hwithin : ∀ g, 0 < g → g ≤ count →
      ¬ Outgrows limit ((generations rewrite ⟨seed, none, false⟩ g number w state).map Prod.fst)) :
    generations rewrite ⟨seed, some limit, false⟩ count number w state =
      generations rewrite ⟨seed, none, false⟩ count number w state := by
  induction count with
  | zero => rfl
  | succ count ih =>
    have hsucc : generations rewrite ⟨seed, none, false⟩ (count + 1) number w state =
        (generations rewrite ⟨seed, none, false⟩ count number w state).bind
          fun s => rewrite s.1 s.2 := generations_succ rfl rfl count number w state
    have hlast := hwithin (count + 1) count.succ_pos le_rfl
    rw [hsucc] at hlast ⊢
    rw [generations_add, ih fun g hpos hle => hwithin g hpos (Nat.le_succ_of_le hle)]
    cases hs : generations rewrite ⟨seed, none, false⟩ count number w state with
    | error e => rfl
    | ok s =>
      simp only [hs, Except.bind, generations_one, generation_limited] at hlast ⊢
      cases hnext : rewrite s.1 s.2 with
      | error e => rfl
      | ok next =>
        have hsmall : ¬ limit < next.1.byteLength := by
          rw [Word.byteLength_eq_utf8ByteSize]
          exact fun hlt => hlast ⟨next.1, by rw [hnext]; rfl, hlt⟩
        exact if_neg hsmall

/-- The first generation that outgrows a limit is the last one. -/
theorem generations_outgrown
    (hwithin : ∀ k, 0 < k → k ≤ g →
      ¬ Outgrows limit ((generations rewrite ⟨seed, none, false⟩ k number w state).map Prod.fst))
    {s : Word × σ} (hs : generations rewrite ⟨seed, none, false⟩ (g + 1) number w state = .ok s)
    (houtgrows : limit < s.1.byteLength) (rest : ℕ) :
    generations rewrite ⟨seed, some limit, false⟩ (g + 1 + rest) number w state =
      .error (.aborted (number + g) (.growth s.1.byteLength limit)) := by
  rw [generations_add, generations_add, generations_of_within hwithin]
  rw [generations_succ rfl rfl] at hs
  cases hlast : generations rewrite ⟨seed, none, false⟩ g number w state with
  | error e => simp [hlast, Except.bind] at hs
  | ok last =>
    have hnext : rewrite last.1 last.2 = .ok s := by rwa [hlast] at hs
    simp only [Except.bind, generations_one, generation_limited, hnext, if_pos houtgrows]

end Derivation

/-! ## Derivations -/

/-- The generations up to an order that outgrow a limit, in the derivation without a limit. -/
def outgrown (start : Word) (rules : RuleSet) (seed : Seed) (limit order : ℕ) : Set ℕ :=
  {g | 0 < g ∧ g ≤ order ∧ Outgrows limit (derive g start rules ⟨seed, none, false⟩)}

variable {start : Word} {rules : RuleSet} {seed : Seed} {limit order g : ℕ}

theorem derive_of_outgrown_eq_empty (h : outgrown start rules seed limit order = ∅) :
    derive order start rules ⟨seed, some limit, false⟩ =
      derive order start rules ⟨seed, none, false⟩ := by
  rcases derive_error_or_valid start rules with ⟨e, herror⟩ | ⟨hne, hvalid⟩
  · rw [herror, herror]
  obtain ⟨σ, rewrite, state, hdrives⟩ := exists_drives hvalid seed
  rw [hdrives order start _ hne rfl, hdrives order start _ hne rfl,
    Derivation.generations_of_within fun g hpos hle houtgrows => ?_]
  rw [← hdrives g start _ hne rfl] at houtgrows
  exact Set.notMem_empty g (h ▸ ⟨hpos, hle, houtgrows⟩)

theorem derive_of_isLeast_outgrown (h : IsLeast (outgrown start rules seed limit order) g) :
    ∃ w, derive g start rules ⟨seed, none, false⟩ = .ok w ∧
      derive order start rules ⟨seed, some limit, false⟩ =
        .error (.aborted g (.growth (String.ofList w).utf8ByteSize limit)) := by
  obtain ⟨⟨hpos, hle, w, hw, houtgrows⟩, hleast⟩ := h
  rcases derive_error_or_valid start rules with ⟨e, herror⟩ | ⟨hne, hvalid⟩
  · rw [herror] at hw
    cases hw
  obtain ⟨σ, rewrite, state, hdrives⟩ := exists_drives hvalid seed
  obtain ⟨k, rfl⟩ := Nat.exists_eq_succ_of_ne_zero hpos.ne'
  obtain ⟨rest, rfl⟩ := Nat.exists_eq_add_of_le hle
  refine ⟨w, hw, ?_⟩
  rw [hdrives _ start _ hne rfl, map_eq_ok_iff] at hw
  obtain ⟨s, hs, rfl⟩ := hw
  rw [← Word.byteLength_eq_utf8ByteSize] at houtgrows ⊢
  -- No generation in front of the first one outgrows the limit.
  have hwithin : ∀ j, 0 < j → j ≤ k → ¬ Outgrows limit
      ((Derivation.generations rewrite ⟨seed, none, false⟩ j 1 start state).map Prod.fst) := by
    intro j hj hjk hoverflow
    rw [← hdrives j start _ hne rfl] at hoverflow
    exact absurd (hleast ⟨hj, by omega, hoverflow⟩) (by omega)
  rw [hdrives _ start _ hne rfl, Derivation.generations_outgrown hwithin hs houtgrows rest,
    Nat.add_comm 1]
  rfl

/-- **A limit and a deadline only stop a derivation.** Under a limit, a derivation of any rules is
    aborted at the first generation that outgrows it without the limit, and tells the bytes of
    that generation and the limit; if there is no such generation, it comes to what it comes to
    without the limit, be that a word or an error. If the deadline has passed before the first
    generation, whatever the limit and whatever the clock shows later, the start is the only
    generation. -/
theorem derive_limited (start : Word) (rules : RuleSet) (seed : Seed) (limit order : ℕ) :
    (∀ g, IsLeast (outgrown start rules seed limit order) g →
      ∃ w, derive g start rules ⟨seed, none, false⟩ = .ok w ∧
        derive order start rules ⟨seed, some limit, false⟩ =
          .error (.aborted g (.growth (String.ofList w).utf8ByteSize limit))) ∧
    (outgrown start rules seed limit order = ∅ →
      derive order start rules ⟨seed, some limit, false⟩ =
        derive order start rules ⟨seed, none, false⟩) ∧
    (start ≠ [] → rules.validate = .ok () → ∀ cap (expired : Derivation.Expiry),
      expired.before 1 = true →
      derive 0 start rules ⟨seed, cap, expired⟩ = .ok start ∧
      ∀ n, derive (n + 1) start rules ⟨seed, cap, expired⟩ = .error (.aborted 1 .deadline)) := by
  refine ⟨fun g => derive_of_isLeast_outgrown, derive_of_outgrown_eq_empty,
    fun hne hvalid cap expired hexpired => ?_⟩
  obtain ⟨σ, rewrite, state, hdrives⟩ := exists_drives hvalid seed
  refine ⟨?_, fun n => ?_⟩
  · rw [hdrives 0 start _ hne rfl]
    rfl
  · rw [hdrives (n + 1) start _ hne rfl, Derivation.generations_expired hexpired]
    rfl

/-- Rules by which a word grows in one generation and vanishes in the next. -/
def swelling : RuleSet := .literal [(['A'], ['B', 'é', 'B']), (['B'], []), (['é'], [])]

/-- The first generation takes four bytes, and the second one is empty. Under a limit of three
    bytes it is not reached. -/
theorem derive_limited_swelling :
    derive 2 ['A'] swelling = .ok [] ∧ IsLeast (outgrown ['A'] swelling 0 3 2) 1 ∧
      derive 2 ['A'] swelling ⟨0, some 3, false⟩ = .error (.aborted 1 (.growth 4 3)) ∧
      derive 2 ['A'] swelling ⟨0, some 4, false⟩ = .ok [] ∧
      derive 2 ['A'] swelling ⟨0, none, true⟩ = .error (.aborted 1 .deadline) := by
  have hfirst : derive 1 ['A'] swelling = .ok ['B', 'é', 'B'] := rfl
  have hsecond : derive 2 ['A'] swelling = .ok [] := rfl
  have hleast : IsLeast (outgrown ['A'] swelling 0 3 2) 1 :=
    ⟨⟨one_pos, by decide, _, hfirst, by decide⟩, fun _ h => h.1⟩
  have hnone : outgrown ['A'] swelling 0 4 2 = ∅ := by
    refine Set.eq_empty_iff_forall_notMem.2 ?_
    rintro g ⟨hpos, hle, w, hw, hlt⟩
    interval_cases g
    · obtain rfl := Except.ok.inj (hfirst.symm.trans hw)
      exact absurd hlt (by decide)
    · obtain rfl := Except.ok.inj (hsecond.symm.trans hw)
      exact absurd hlt (by decide)
  obtain ⟨hstops, -, hdeadline⟩ := derive_limited ['A'] swelling 0 3 2
  obtain ⟨-, hpasses, -⟩ := derive_limited ['A'] swelling 0 4 2
  obtain ⟨w, hw, hstop⟩ := hstops 1 hleast
  obtain rfl := Except.ok.inj (hfirst.symm.trans hw)
  exact ⟨hsecond, hleast, hstop, (hpasses hnone).trans hsecond,
    (hdeadline (by decide) rfl none true rfl).2 1⟩

end Lindenmayer

import Lindenmayer.Proofs.Stages

/-!
# How derivations fail

Rules are checked in front of a derivation, and what the check reports is what the derivation
reports, whatever its order and its options are (`derive_of_invalid`). Behind the check nothing
else of the rules is found wrong, also when weights are made a choice of.

By valid rules a derivation fails in one of its generations: the earlier ones have come to a word
(`generations_error`), and that word, with the options, tells what may be reported (`Stops`). A
limit that is set aborts the derivation, and so does a deadline, in front of the first generation
before which the clock shows it as passed; and contextual rules report what stands in the word.

* `validate_error`: what is found wrong with rules is a fault of the configuration;
* `derive_validated`: the check and the derivation agree, and what each of them reports.
-/

namespace Lindenmayer

variable {e : Error}

/-! ## Faults of rules -/

namespace ContextRules

theorem compileEntry_error {entry : Word × Word} (h : compileEntry entry = .error e) :
    ∃ fault, e = .configuration fault := by
  unfold compileEntry at h
  split at h
  · split_ifs at h
    exact ⟨_, (Except.error.inj h).symm⟩
  · exact ⟨_, (Except.error.inj h).symm⟩

theorem compile_error {rules : ContextRules} (h : rules.compile = .error e) :
    ∃ fault, e = .configuration fault := by
  obtain ⟨entry, -, hentry⟩ := exists_mem_of_mapM_error (map_eq_error_iff.1 h)
  exact compileEntry_error hentry

end ContextRules

namespace RuleSet

theorem takeWeights_error {ws : List Int64} {total : ℕ} (h : takeWeights total ws = .error e) :
    ∃ fault, e = .configuration fault := by
  induction ws generalizing total with
  | nil => cases h
  | cons w ws ih =>
    simp only [takeWeights] at h
    split_ifs at h
    · exact ⟨_, (Except.error.inj h).symm⟩
    · exact ⟨_, (Except.error.inj h).symm⟩
    · exact ih (map_eq_error_iff.1 h)

theorem activeWeights_error {rules : List Word} {weights : List Int64}
    (h : activeWeights rules weights = .error e) : ∃ fault, e = .configuration fault := by
  rw [activeWeights] at h
  split_ifs at h
  · exact ⟨_, (Except.error.inj h).symm⟩
  · exact ⟨_, (Except.error.inj h).symm⟩
  · exact ⟨_, (Except.error.inj h).symm⟩
  · exact takeWeights_error h

/-- What is found wrong with rules is a fault of the configuration. -/
theorem validate_error {rules : RuleSet} (h : rules.validate = .error e) :
    ∃ fault, e = .configuration fault := by
  cases rules with
  | literal rules =>
    rw [validate, validateLiteral] at h
    split_ifs at h
    exact ⟨_, (Except.error.inj h).symm⟩
  | weighted rules weights => exact activeWeights_error (map_eq_error_iff.1 h)
  | contextual rules => exact ContextRules.compile_error (map_eq_error_iff.1 h)

end RuleSet

/-! ## Generations -/

namespace Derivation

variable {σ : Type} {rewrite : Word → σ → Except Error (Word × σ)} {options : Options}
  {number count : ℕ} {w : Word} {state : σ}

/-- The aborts that options call for in the generation of a number. -/
inductive Aborts (options : Options) (number : ℕ) : Error → Prop
  | deadline : options.expired.before number = true →
    Aborts options number (.aborted number .deadline)
  | growth {bytes limit : ℕ} : options.limit = some limit → limit < bytes →
    Aborts options number (.aborted number (.growth bytes limit))

/-- A generation fails as its sweep does, or it is aborted. -/
theorem generation_error (h : generation rewrite options number w state = .error e) :
    rewrite w state = .error e ∨ Aborts options number e := by
  rw [generation] at h
  split_ifs at h with hexpired
  · obtain rfl := Except.error.inj h
    exact .inr (.deadline hexpired)
  cases hsweep : rewrite w state with
  | error e' =>
    rw [hsweep] at h
    exact .inl h
  | ok next =>
    simp only [hsweep, checkGrowth] at h
    cases hlimit : options.limit with
    | none =>
      rw [hlimit] at h
      cases h
    | some limit =>
      simp only [hlimit] at h
      split_ifs at h with hgrowth
      obtain rfl := Except.error.inj h
      exact .inr (.growth hlimit hgrowth)

/-- Generations fail in one of them, and those before it have gone through. -/
theorem generations_error (h : generations rewrite options count number w state = .error e) :
    ∃ k < count, ∃ s, generations rewrite options k number w state = .ok s ∧
      generation rewrite options (number + k) s.1 s.2 = .error e := by
  induction count with
  | zero => cases h
  | succ count ih =>
    rw [generations_add] at h
    cases hs : generations rewrite options count number w state with
    | error e' =>
      rw [hs] at h
      obtain rfl : e' = e := Except.error.inj h
      obtain ⟨k, hk, s, hgenerations, hlast⟩ := ih hs
      exact ⟨k, Nat.lt_succ_of_lt hk, s, hgenerations, hlast⟩
    | ok s =>
      rw [hs] at h
      exact ⟨count, count.lt_succ_self, s, hs, (generations_one ..).symm.trans h⟩

end Derivation

/-! ## Derivations -/

/-- How a derivation by valid rules may fail in the generation of a number, from the word that it
    has come to before: it is aborted, or contextual rules blame the word. -/
inductive Stops (options : Derivation.Options) (number : ℕ) : RuleSet → Word → Error → Prop
  | aborted {rules : RuleSet} {w : Word} {e : Error} : Derivation.Aborts options number e →
    Stops options number rules w e
  | blamed {rules : ContextRules} {w : Word} {e : Error} : Contextual.Blames w e →
    Stops options number (.contextual rules) w e

variable {rules : RuleSet} {start : Word} {options : Derivation.Options} {order number : ℕ}

/-- What is reported behind the check of the rules is no fault of the configuration. -/
theorem Stops.ne_configuration {w : Word} (h : Stops options number rules w e)
    (fault : ConfigurationFault) : e ≠ .configuration fault := by
  rintro rfl
  cases h with
  | aborted h => cases h
  | blamed h => cases h

/-- Sweeps that drive a derivation, and only fail as generations may. -/
theorem exists_drives_stops (hvalid : rules.validate = .ok ()) (seed : Seed) :
    ∃ (σ : Type) (rewrite : Word → σ → Except Error (Word × σ)) (state : σ),
      Drives rules seed rewrite state ∧ ∀ (options : Derivation.Options) number w state e,
        rewrite w state = .error e → Stops options number rules w e := by
  cases rules with
  | literal rules =>
    refine ⟨_, _, _, drives_literal hvalid seed, ?_⟩
    rintro _ _ _ _ _ ⟨⟩
  | weighted rules weights =>
    obtain ⟨active, hactive, -⟩ := map_eq_ok_iff.1 hvalid
    refine ⟨_, _, _, drives_weighted hactive seed, ?_⟩
    rintro _ _ _ _ _ ⟨⟩
  | contextual rules =>
    obtain ⟨table, hcompile, -⟩ := map_eq_ok_iff.1 hvalid
    refine ⟨_, _, _, drives_contextual hcompile seed, fun _ _ w _ e h => ?_⟩
    exact .blamed (Contextual.blames_of_rewrite (map_eq_error_iff.1 h))

/-- A derivation by valid rules fails in a generation, from the word of the one before. -/
theorem exists_stops_of_derive (hne : start ≠ []) (hvalid : rules.validate = .ok ())
    (h : derive order start rules options = .error e) :
    ∃ k < order, ∃ w, derive k start rules options = .ok w ∧ Stops options (k + 1) rules w e := by
  obtain ⟨σ, rewrite, state, hdrives, hstops⟩ := exists_drives_stops hvalid options.seed
  rw [hdrives order start options hne rfl, map_eq_error_iff] at h
  obtain ⟨k, hk, s, hs, hfails⟩ := Derivation.generations_error h
  refine ⟨k, hk, s.1, ?_, ?_⟩
  · rw [hdrives k start options hne rfl, hs]
    rfl
  · rw [Nat.add_comm 1] at hfails
    rcases Derivation.generation_error hfails with hsweep | haborts
    · exact hstops _ _ _ _ _ hsweep
    · exact .aborted haborts

/-- **The check of the rules and the derivation agree.** From a start that is not empty, by rules
    with a fault, a derivation fails with the fault that the check reports, which is one of the
    configuration, whatever the order and the options are. By valid rules it never fails with a
    fault of the configuration, nor does the making of a choice by weight; order zero yields the
    start; and if a derivation fails, then in a generation, before which its deadline has passed,
    in which it is aborted by a limit that is set, or in which contextual rules blame a symbol of
    the word before. -/
theorem derive_validated (start : Word) (rules : RuleSet) (hne : start ≠ []) :
    (∀ e, rules.validate = .error e → (∃ fault, e = .configuration fault) ∧
      ∀ order options, derive order start rules options = .error e) ∧
    (rules.validate = .ok () → ∀ options,
      derive 0 start rules options = .ok start ∧
      (∀ order fault, derive order start rules options ≠ .error (.configuration fault)) ∧
      (∀ candidates weights, rules = .weighted candidates weights →
        ∃ chooser, Weighted.chooser candidates weights options.seed = .ok chooser) ∧
      ∀ order e, derive order start rules options = .error e →
        ∃ k < order, ∃ w, derive k start rules options = .ok w ∧
          Stops options (k + 1) rules w e) := by
  refine ⟨fun e h => ⟨RuleSet.validate_error h, derive_of_invalid hne h⟩,
    fun hvalid options => ⟨?_, fun order fault h => ?_, ?_, fun order e h => ?_⟩⟩
  · obtain ⟨σ, rewrite, state, hdrives⟩ := exists_drives hvalid options.seed
    rw [hdrives 0 start options hne rfl]
    rfl
  · obtain ⟨k, -, w, -, hstops⟩ := exists_stops_of_derive hne hvalid h
    exact hstops.ne_configuration fault rfl
  · rintro candidates weights rfl
    obtain ⟨active, hactive, -⟩ := map_eq_ok_iff.1 hvalid
    exact ⟨_, Weighted.chooser_of_activeWeights hactive options.seed⟩
  · exact exists_stops_of_derive hne hvalid h

/-- A rule by which a `1` between two `0` turns into a symbol that no contextual rule knows. -/
def blighted : RuleSet := .contextual (.ofList [(Context.key ⟨'0', '1', '0'⟩, ['X'])])

/-- A deadline that passes while the second generation is made. -/
def late : Derivation.Options := { expired := ⟨fun number => 3 ≤ number⟩ }

/-- The second generation blames the symbol that the first one has put in. A weight of zero is
    reported behind a deadline as well. A deadline that passes on the way aborts the generation
    that comes next. -/
theorem derive_validated_blighted :
    derive 0 ['0', '1', '0'] blighted = .ok ['0', '1', '0'] ∧
      derive 3 ['0', '1', '0'] blighted = .error (.unsupportedSymbol 'X' 1) ∧
      (∃ k < 3, ∃ w, derive k ['0', '1', '0'] blighted = .ok w ∧
        Stops {} (k + 1) blighted w (.unsupportedSymbol 'X' 1)) ∧
      derive 3 ['F'] (.weighted [['F']] [0]) ⟨0, none, true⟩ =
        .error (.configuration .weightNotPositive) ∧
      derive 9 ['A'] doubling late = .error (.aborted 3 .deadline) ∧
      ∃ k < 9, ∃ w, derive k ['A'] doubling late = .ok w ∧
        Stops late (k + 1) doubling w (.aborted 3 .deadline) := by
  have hblames : derive 3 ['0', '1', '0'] blighted = .error (.unsupportedSymbol 'X' 1) := rfl
  have haborts : derive 9 ['A'] doubling late = .error (.aborted 3 .deadline) := rfl
  obtain ⟨-, hvalid⟩ := derive_validated ['0', '1', '0'] blighted (by decide)
  obtain ⟨hzero, -, -, hstops⟩ := hvalid rfl {}
  obtain ⟨hfaulty, -⟩ := derive_validated ['F'] (.weighted [['F']] [0]) (by decide)
  obtain ⟨-, hgrowing⟩ := derive_validated ['A'] doubling (by decide)
  obtain ⟨-, -, -, hstopsLate⟩ := hgrowing rfl late
  exact ⟨hzero, hblames, hstops 3 _ hblames, (hfaulty _ rfl).2 3 _, haborts,
    hstopsLate 9 _ haborts⟩

end Lindenmayer

import Lindenmayer.Derivation
import Lindenmayer.Proofs.Brackets
import Lindenmayer.Proofs.Choices
import Lindenmayer.Proofs.Composition

/-!
# Generations

What a derivation keeps. In one generation some symbols of a word give way to words, and the
others stay (`Substituted`), whatever rules it is by (`substituted_literal`,
`substituted_weighted`). If brackets stay and the words put in are balanced, a balanced word
stays balanced (`Substituted.balanced`), and so it is with headings (`Substituted.composed`).

A derivation that nothing cuts short is one sweep after the other (`generations_succ`). A
property that lets a sweep go through and that the sweep keeps is one of every generation
(`exists_generations`).
-/

namespace Lindenmayer

open Word

/-! ## Substitution -/

/-- Some symbols of a word give way to words that they are related to, and the others stay. -/
inductive Substituted (R : Char → Word → Prop) : Word → Word → Prop
  | nil : Substituted R [] []
  | keep {c : Char} {w y : Word} : Substituted R w y → Substituted R (c :: w) (c :: y)
  | replace {c : Char} {w x y : Word} : R c x → Substituted R w y →
    Substituted R (c :: w) (x ++ y)

namespace Substituted

variable {R : Char → Word → Prop} {P : Char → Prop} {u v w y : Word}

theorem of_append (h : Substituted R (u ++ v) y) :
    ∃ y₁ y₂, y = y₁ ++ y₂ ∧ Substituted R u y₁ ∧ Substituted R v y₂ := by
  induction u generalizing y with
  | nil => exact ⟨[], y, rfl, .nil, h⟩
  | cons c u ih =>
    cases h with
    | keep h =>
      obtain ⟨y₁, y₂, rfl, h₁, h₂⟩ := ih h
      exact ⟨c :: y₁, y₂, rfl, .keep h₁, h₂⟩
    | @replace _ _ x _ hx h =>
      obtain ⟨y₁, y₂, rfl, h₁, h₂⟩ := ih h
      exact ⟨x ++ y₁, y₂, (List.append_assoc ..).symm, .replace hx h₁, h₂⟩

theorem of_cons {c : Char} (h : Substituted R (c :: w) y) (hc : ∀ x, ¬ R c x) :
    ∃ y', y = c :: y' ∧ Substituted R w y' := by
  cases h with
  | keep h => exact ⟨_, rfl, h⟩
  | replace hx => exact absurd hx (hc _)

theorem of_kept (h : Substituted R (u ++ v) y) (hu : ∀ c ∈ u, ∀ x, ¬ R c x) :
    ∃ y', y = u ++ y' ∧ Substituted R v y' := by
  induction u generalizing y with
  | nil => exact ⟨y, rfl, h⟩
  | cons c u ih =>
    obtain ⟨y, rfl, hrest⟩ := h.of_cons (hu c List.mem_cons_self)
    obtain ⟨y', rfl, hv⟩ := ih hrest fun e he => hu e (List.mem_cons_of_mem _ he)
    exact ⟨y', rfl, hv⟩

theorem forall_mem (h : Substituted R w y) (hw : ∀ c ∈ w, P c)
    (hR : ∀ c x, R c x → P c → ∀ d ∈ x, P d) : ∀ c ∈ y, P c := by
  induction h with
  | nil => exact hw
  | keep _ ih =>
    obtain ⟨hc, hw⟩ := List.forall_mem_cons.1 hw
    exact List.forall_mem_cons.2 ⟨hc, ih hw⟩
  | replace hx _ ih =>
    obtain ⟨hc, hw⟩ := List.forall_mem_cons.1 hw
    exact List.forall_mem_append.2 ⟨hR _ _ hx hc, ih hw⟩

theorem exists_mem (h : Substituted R w y) (hw : ∃ c ∈ w, P c)
    (hR : ∀ c x, R c x → P c → ∃ d ∈ x, P d) : ∃ c ∈ y, P c := by
  induction h with
  | nil => exact hw
  | keep _ ih =>
    rw [List.exists_mem_cons_iff] at hw ⊢
    exact hw.imp_right ih
  | replace hx _ ih =>
    rw [List.exists_mem_cons_iff] at hw
    rcases hw with hc | hw
    · obtain ⟨d, hd, hP⟩ := hR _ _ hx hc
      exact ⟨d, List.mem_append_left _ hd, hP⟩
    · obtain ⟨d, hd, hP⟩ := ih hw
      exact ⟨d, List.mem_append_right _ hd, hP⟩

theorem length_le (h : Substituted R w y) (hR : ∀ c x, R c x → x ≠ []) :
    w.length ≤ y.length := by
  induction h with
  | nil => exact le_rfl
  | keep _ ih => exact Nat.succ_le_succ ih
  | replace hx _ ih =>
    have := List.length_pos_of_ne_nil (hR _ _ hx)
    rw [List.length_cons, List.length_append]
    omega

/-- Balanced words put in the place of symbols that are no brackets leave the pairs of a word
    as they are. -/
theorem balanced (h : Substituted R w y) (hw : Balanced w)
    (hR : ∀ c x, R c x → c ≠ '[' ∧ c ≠ ']' ∧ Balanced x) : Balanced y := by
  induction hw generalizing y with
  | nil =>
    cases h
    exact .nil
  | symbol ho hc _ ih =>
    cases h with
    | keep h => exact .symbol ho hc (ih h)
    | replace hx h => exact (hR _ _ hx).2.2.append (ih h)
  | branch _ _ ihu ihw =>
    obtain ⟨y, rfl, hinside⟩ := h.of_cons fun x hx => (hR _ x hx).1 rfl
    obtain ⟨y₁, y₂, rfl, hu, hbehind⟩ := hinside.of_append
    obtain ⟨y₂, rfl, hw⟩ := hbehind.of_cons fun x hx => (hR _ x hx).2.1 rfl
    exact .branch (ihu hu) (ihw hw)

/-- Composed words put in the place of symbols that are no part of headings leave the headings
    of a word as they are. -/
theorem composed (h : Substituted R w y) (hw : Composed P w)
    (hR : ∀ c x, R c x → c ≠ '(' ∧ c ≠ ')' ∧ ¬ isHeadingSymbol c ∧ Composed P x) :
    Composed P y := by
  induction hw generalizing y with
  | nil =>
    cases h
    exact .nil
  | symbol ho hc _ ih =>
    cases h with
    | keep h => exact .symbol ho hc (ih h)
    | replace hx h => exact (hR _ _ hx).2.2.2.append (ih h)
  | heading hliteral hread _ ih =>
    obtain ⟨y, rfl, hinside⟩ := h.of_cons fun x hx => (hR _ x hx).1 rfl
    obtain ⟨y, rfl, hbehind⟩ := hinside.of_kept fun c hc x hx =>
      (hR _ x hx).2.2.1 (hliteral c hc)
    obtain ⟨y, rfl, hw⟩ := hbehind.of_cons fun x hx => (hR _ x hx).2.1 rfl
    exact .heading hliteral hread (ih hw)

/-- Symbol by symbol, told by a function of the symbols and of where they stand. -/
theorem of_flatMap {α : Type} {f : Char × α → Word} {l : List (Char × α)}
    (h : ∀ s ∈ l, f s = [s.1] ∨ R s.1 (f s)) :
    Substituted R (l.map Prod.fst) (l.flatMap f) := by
  induction l with
  | nil => exact .nil
  | cons s l ih =>
    obtain ⟨hs, hl⟩ := List.forall_mem_cons.1 h
    rw [List.map_cons, List.flatMap_cons]
    rcases hs with hs | hx
    · rw [hs]
      exact .keep (ih hl)
    · exact .replace hx (ih hl)

end Substituted

/-! ## Symbols of a word

What holds of the symbols of a word is decided symbol by symbol, not character by character. -/

instance (priority := 1100) Word.decidableForallMem (P : Char → Prop) [DecidablePred P] (w : Word) :
    Decidable (∀ c ∈ w, P c) :=
  List.decidableBAll P w

instance (priority := 1100) Word.decidableExistsMem (P : Char → Prop) [DecidablePred P] (w : Word) :
    Decidable (∃ c ∈ w, P c) :=
  List.decidableBEx P w

section

variable {R : Char → Word → Prop}

/-! ## Literal sweeps -/

/-- A rule whose replacement is related to the first symbol of its key. The other symbols of the
    key, which give way to nothing, are related to the empty word. -/
def Relates (R : Char → Word → Prop) : Word × Word → Prop
  | ([], _) => False
  | (c :: key, x) => R c x ∧ ∀ d ∈ key, R d []

instance [∀ c x, Decidable (R c x)] : DecidablePred (Relates R)
  | ([], _) => inferInstanceAs (Decidable False)
  | (c :: key, x) => inferInstanceAs (Decidable (R c x ∧ ∀ d ∈ key, R d []))

/-- A sweep that still skips symbols of a key puts nothing in their place. -/
theorem substituted_rewriteInto {rules : List (Word × Word)}
    (hrules : ∀ rule ∈ rules, Relates R rule) (w : Word) :
    ∀ (done : Word) (skip : ℕ), (∀ c ∈ w.take skip, R c []) →
      ∃ y, Literal.rewriteInto rules done skip w = done.reverse ++ y ∧ Substituted R w y := by
  induction w with
  | nil => exact fun done skip _ => ⟨[], by simp [Literal.rewriteInto], .nil⟩
  | cons c w ih =>
    intro done skip hskip
    cases skip with
    | succ skip =>
      rw [List.take_succ_cons] at hskip
      obtain ⟨hc, hskip⟩ := List.forall_mem_cons.1 hskip
      obtain ⟨y, hy, h⟩ := ih done skip hskip
      exact ⟨y, hy, .replace hc h⟩
    | zero =>
      cases hmatch : Literal.firstMatch rules (c :: w) with
      | none =>
        obtain ⟨y, hy, h⟩ := ih (c :: done) 0 (by simp)
        exact ⟨c :: y, by simp [Literal.rewriteInto, hmatch, hy], .keep h⟩
      | some rule =>
        have hrelates := hrules rule (List.mem_of_find?_eq_some hmatch)
        have hprefix : rule.1 <+: c :: w := by simpa using List.find?_some hmatch
        -- The key is the symbol and those that are skipped next.
        obtain ⟨_ | ⟨e, key⟩, x⟩ := rule
        · exact hrelates.elim
        obtain ⟨rfl, hkey⟩ := List.cons_prefix_cons.1 hprefix
        have htake : w.take key.length = key := (List.prefix_iff_eq_take.1 hkey).symm
        obtain ⟨y, hy, h⟩ := ih (x.reverse ++ done) key.length (htake.symm ▸ hrelates.2)
        exact ⟨x ++ y, by simp [Literal.rewriteInto, hmatch, hy], .replace hrelates.1 h⟩

theorem substituted_literal {rules : List (Word × Word)}
    (hrules : ∀ rule ∈ rules, Relates R rule) (w : Word) :
    Substituted R w (Literal.rewrite rules w) := by
  obtain ⟨y, hy, h⟩ := substituted_rewriteInto hrules w [] 0 (by simp)
  obtain rfl : Literal.rewrite rules w = y := hy
  exact h

/-! ## Weighted sweeps -/

namespace Weighted

variable {rules : List Word} {weights : List ℕ} {c : Char} {w : Word} {g : Generator}

theorem run_successor_predecessor : (successor rules weights weightedPredecessor).run g =
    (rules[(Choice.sample weights g).1]?.getD [], (Choice.sample weights g).2) := by
  rw [successor, if_pos rfl]
  rfl

theorem run_successor_of_ne (hc : c ≠ weightedPredecessor) :
    (successor rules weights c).run g = ([c], g) := by
  rw [successor, if_neg hc]
  rfl

/-- The generator is handed on from symbol to symbol. -/
theorem run_rewrite_cons : (rewrite rules weights (c :: w)).run g =
    (((successor rules weights c).run g).1 ++
        ((rewrite rules weights w).run ((successor rules weights c).run g).2).1,
      ((rewrite rules weights w).run ((successor rules weights c).run g).2).2) := by
  simp only [rewrite, List.mapM_cons]
  rfl

end Weighted

theorem substituted_weighted {rules : List Word} {weights : List Int64} {active : List ℕ}
    (hactive : RuleSet.activeWeights rules weights = .ok active)
    (hrules : ∀ x ∈ rules, R weightedPredecessor x) (w : Word) (g : Generator) :
    Substituted R w ((Weighted.rewrite rules active w).run g).1 := by
  induction w generalizing g with
  | nil => exact .nil
  | cons c w ih =>
    rw [Weighted.run_rewrite_cons]
    by_cases hc : c = weightedPredecessor
    · subst hc
      refine .replace ?_ (ih _)
      -- What is chosen is a rule, since there is one for every weight.
      have hlt : (Choice.sample active g).1 < rules.length :=
        RuleSet.length_active hactive ▸ Choice.sample_lt_length (RuleSet.sum_active_pos hactive) g
      rw [Weighted.run_successor_predecessor, List.getElem?_eq_getElem hlt]
      exact hrules _ (List.getElem_mem hlt)
    · rw [Weighted.run_successor_of_ne hc]
      exact .keep (ih g)

end

/-! ## Derivations -/

namespace Derivation

variable {σ : Type} {rewrite : Word → σ → Except Error (Word × σ)} {options : Options}

theorem before_of_expired {passed : Bool} (hexpired : options.expired = passed) (number : ℕ) :
    options.expired.before number = passed := by
  rw [hexpired]

theorem generation_eq_rewrite (hlimit : options.limit = none) (hexpired : options.expired = false)
    (number : ℕ) (w : Word) (state : σ) :
    generation rewrite options number w state = rewrite w state := by
  rw [generation, if_neg (by simp [before_of_expired hexpired])]
  simp only [checkGrowth, hlimit]
  cases rewrite w state <;> rfl

/-- A generation goes through if its deadline has not passed, its sweep goes through, and what this
    comes to is within the limit. -/
theorem generation_eq_ok_iff {number : ℕ} {w : Word} {state : σ} {s : Word × σ} :
    generation rewrite options number w state = .ok s ↔
      options.expired.before number = false ∧ rewrite w state = .ok s ∧
        ∀ limit, options.limit = some limit → s.1.byteLength ≤ limit := by
  rw [generation]
  cases options.expired.before number with
  | true => simp
  | false =>
    cases rewrite w state with
    | error e => simp
    | ok next =>
      cases hlimit : options.limit with
      | none => simp [checkGrowth, hlimit]
      | some limit =>
        by_cases hgrowth : limit < next.1.byteLength
        · have hsame : next = s → limit < s.1.byteLength := fun h => h ▸ hgrowth
          simpa [checkGrowth, hlimit, hgrowth] using hsame
        · have hsame : next = s → s.1.byteLength ≤ limit := fun h => h ▸ not_lt.1 hgrowth
          simpa [checkGrowth, hlimit, hgrowth] using hsame

/-- Generations after generations: the later ones start from the last one of the earlier. -/
theorem generations_add (m n number : ℕ) (w : Word) (state : σ) :
    generations rewrite options (m + n) number w state =
      (generations rewrite options m number w state).bind fun s =>
        generations rewrite options n (number + m) s.1 s.2 := by
  induction m generalizing number w state with
  | zero => rw [Nat.zero_add]; rfl
  | succ m ih =>
    rw [Nat.add_right_comm, generations, generations]
    cases generation rewrite options number w state with
    | error e => rfl
    | ok s =>
      rw [Nat.add_comm m 1, ← Nat.add_assoc]
      exact ih (number + 1) s.1 s.2

theorem generations_one (number : ℕ) (w : Word) (state : σ) :
    generations rewrite options 1 number w state = generation rewrite options number w state := by
  rw [generations]
  cases generation rewrite options number w state <;> rfl

/-- One more generation is a sweep over the last one. -/
theorem generations_succ (hlimit : options.limit = none) (hexpired : options.expired = false)
    (count number : ℕ) (w : Word) (state : σ) :
    generations rewrite options (count + 1) number w state =
      (generations rewrite options count number w state).bind fun s => rewrite s.1 s.2 := by
  simp only [generations_add, generations_one, generation_eq_rewrite hlimit hexpired]

/-- A property that lets a sweep go through, and that the sweep keeps, is one of every
    generation. -/
theorem exists_generations {P : Word → Prop} (hlimit : options.limit = none)
    (hexpired : options.expired = false)
    (hstep : ∀ w state, P w → ∃ s, rewrite w state = .ok s ∧ P s.1) (count number : ℕ) {w : Word}
    (hw : P w) (state : σ) :
    ∃ s, generations rewrite options count number w state = .ok s ∧ P s.1 := by
  induction count with
  | zero => exact ⟨(w, state), rfl, hw⟩
  | succ count ih =>
    obtain ⟨s, hs, hP⟩ := ih
    obtain ⟨next, hnext, hP⟩ := hstep s.1 s.2 hP
    exact ⟨next, by rw [generations_succ hlimit hexpired, hs]; exact hnext, hP⟩

end Derivation

section

variable {order : ℕ} {start : Word} {options : Derivation.Options}

theorem bind_pure_fst {σ : Type} (x : Except Error (Word × σ)) :
    (x >>= fun s => pure s.1) = x.map Prod.fst := by
  cases x <;> rfl

theorem derive_literal {rules : List (Word × Word)} (hne : start ≠ [])
    (hrules : RuleSet.validateLiteral rules = .ok ()) :
    derive order start (.literal rules) options =
      (Derivation.generations (Derivation.literalStep rules) options order 1 start ()).map
        Prod.fst := by
  rw [derive, if_neg (by simpa using hne)]
  simp only [hrules]
  exact bind_pure_fst _

theorem derive_weighted {rules : List Word} {weights : List Int64} {active : List ℕ}
    (hne : start ≠ []) (hactive : RuleSet.activeWeights rules weights = .ok active) :
    derive order start (.weighted rules weights) options =
      (Derivation.generations (Derivation.weightedStep rules active) options order 1 start
        (Generator.ofSeed options.seed)).map Prod.fst := by
  rw [derive, if_neg (by simpa using hne)]
  simp only [Weighted.chooser_of_activeWeights hactive options.seed]
  exact bind_pure_fst _

theorem derive_contextual {rules : ContextRules} {table : ContextTable} (hne : start ≠ [])
    (hcompile : rules.compile = .ok table) :
    derive order start (.contextual rules) options =
      (Derivation.generations (Derivation.contextualStep table) options order 1 start ()).map
        Prod.fst := by
  rw [derive, if_neg (by simpa using hne)]
  simp only [hcompile]
  exact bind_pure_fst _

end

/-! ## Rules and sweeps -/

/-- Derivations by the rules, with the seed, are generations by one sweep from one state. -/
def Drives {σ : Type} (rules : RuleSet) (seed : Seed)
    (rewrite : Word → σ → Except Error (Word × σ)) (state : σ) : Prop :=
  ∀ order start (options : Derivation.Options), start ≠ [] → options.seed = seed →
    derive order start rules options =
      (Derivation.generations rewrite options order 1 start state).map Prod.fst

section

variable {rules : RuleSet} {start : Word} {e : Error}

theorem drives_literal {rules : List (Word × Word)}
    (hvalid : RuleSet.validateLiteral rules = .ok ()) (seed : Seed) :
    Drives (.literal rules) seed (Derivation.literalStep rules) () :=
  fun _ _ _ hne _ => derive_literal hne hvalid

theorem drives_weighted {rules : List Word} {weights : List Int64} {active : List ℕ}
    (hactive : RuleSet.activeWeights rules weights = .ok active) (seed : Seed) :
    Drives (.weighted rules weights) seed (Derivation.weightedStep rules active)
      (.ofSeed seed) := by
  rintro order start options hne rfl
  exact derive_weighted hne hactive

theorem drives_contextual {rules : ContextRules} {table : ContextTable}
    (hcompile : rules.compile = .ok table) (seed : Seed) :
    Drives (.contextual rules) seed (Derivation.contextualStep table) () :=
  fun _ _ _ hne _ => derive_contextual hne hcompile

theorem exists_drives (hvalid : rules.validate = .ok ()) (seed : Seed) :
    ∃ (σ : Type) (rewrite : Word → σ → Except Error (Word × σ)) (state : σ),
      Drives rules seed rewrite state := by
  cases rules with
  | literal rules => exact ⟨_, _, _, drives_literal hvalid seed⟩
  | weighted rules weights =>
    obtain ⟨active, hactive, -⟩ := map_eq_ok_iff.1 hvalid
    exact ⟨_, _, _, drives_weighted hactive seed⟩
  | contextual rules =>
    obtain ⟨table, hcompile, -⟩ := map_eq_ok_iff.1 hvalid
    exact ⟨_, _, _, drives_contextual hcompile seed⟩

theorem derive_of_invalid (hne : start ≠ []) (h : rules.validate = .error e) (order : ℕ)
    (options : Derivation.Options) : derive order start rules options = .error e := by
  have hempty : ¬ start.isEmpty := by simpa using hne
  cases rules with
  | literal rules =>
    have hrules : RuleSet.validateLiteral rules = .error e := h
    rw [derive, if_neg hempty, hrules]
    rfl
  | weighted rules weights =>
    rw [RuleSet.validate, map_eq_error_iff] at h
    rw [derive, if_neg hempty, Weighted.chooser, h]
    rfl
  | contextual rules =>
    rw [RuleSet.validate, map_eq_error_iff] at h
    rw [derive, if_neg hempty, h]
    rfl

/-- A derivation fails in the same way whatever its order and options are, or it starts from a
    word that is not empty, by rules that are valid. -/
theorem derive_error_or_valid (start : Word) (rules : RuleSet) :
    (∃ e, ∀ order options, derive order start rules options = .error e) ∨
      (start ≠ [] ∧ rules.validate = .ok ()) := by
  by_cases hne : start = []
  · subst hne
    exact .inl ⟨_, fun _ _ => rfl⟩
  · cases hvalid : rules.validate with
    | error e => exact .inl ⟨e, derive_of_invalid hne hvalid⟩
    | ok => exact .inr ⟨hne, rfl⟩

end

/-! ## What derivations keep -/

section

variable {rules : RuleSet} {start : Word} {options : Derivation.Options} {P : Word → Prop}

/-- A property that lets a sweep go through, and that the sweep keeps, is one of the word that
    is derived. -/
theorem Drives.exists_derive {σ : Type} {rewrite : Word → σ → Except Error (Word × σ)} {state : σ}
    (hdrives : Drives rules options.seed rewrite state) (hne : start ≠ []) (hstart : P start)
    (hstep : ∀ w state, P w → ∃ s, rewrite w state = .ok s ∧ P s.1)
    (hlimit : options.limit = none) (hexpired : options.expired = false) (order : ℕ) :
    ∃ w, derive order start rules options = .ok w ∧ P w := by
  obtain ⟨s, hs, hw⟩ := Derivation.exists_generations hlimit hexpired hstep order 1 hstart state
  exact ⟨s.1, by rw [hdrives order start options hne rfl, hs]; rfl, hw⟩

variable {R : Char → Word → Prop} (hne : start ≠ []) (hstart : P start)
  (hkeep : ∀ w y, P w → Substituted R w y → P y)
  (hlimit : options.limit = none) (hexpired : options.expired = false) (order : ℕ)
include hne hstart hkeep hlimit hexpired

theorem exists_derive_of_relates {rules : List (Word × Word)}
    (hrules : ∀ rule ∈ rules, Relates R rule) :
    ∃ w, derive order start (.literal rules) options = .ok w ∧ P w := by
  have hvalid : RuleSet.validateLiteral rules = .ok () := by
    have hkeys : rules.any (·.1.isEmpty) = false := by
      rw [List.any_eq_false]
      rintro ⟨_ | ⟨c, key⟩, x⟩ hrule
      · exact (hrules _ hrule).elim
      · simp
    rw [RuleSet.validateLiteral, hkeys]
    rfl
  refine (drives_literal hvalid _).exists_derive hne hstart (fun w _ hw => ?_) hlimit hexpired order
  exact ⟨_, rfl, hkeep _ _ hw (substituted_literal hrules w)⟩

theorem exists_derive_of_weighable {rules : List Word} {weights : List Int64}
    (hvalid : RuleSet.validate (.weighted rules weights) = .ok ())
    (hrules : ∀ x ∈ rules, R weightedPredecessor x) :
    ∃ w, derive order start (.weighted rules weights) options = .ok w ∧ P w := by
  obtain ⟨active, hactive, -⟩ := map_eq_ok_iff.1 hvalid
  refine (drives_weighted hactive _).exists_derive hne hstart (fun w g hw => ?_) hlimit hexpired
    order
  exact ⟨_, rfl, hkeep _ _ hw (substituted_weighted hactive hrules w g)⟩

end

end Lindenmayer

import Lindenmayer.Proofs.Acceptance
import Lindenmayer.Proofs.Generations
import Lindenmayer.Proofs.Sweep

/-!
# Plants

Contextual systems grow plants: balanced words over their alphabet (`Plant`). In a plant every
`]` has a partner, so a sweep goes through (`Plant.rewritable`), and if the rules put in plants,
it leaves a plant, since only variables and turns are replaced (`substituted_images`). So every
generation is a plant, no shorter than the one before, and can be drawn (`derive_plant`).
-/

namespace Lindenmayer.Contextual

open Word

/-- A balanced word over the alphabet of contextual systems. -/
@[mk_iff]
structure Plant (w : Word) : Prop where
  alphabet : ∀ c ∈ w, c ∈ alphabet
  balanced : Balanced w

instance : DecidablePred Plant := fun w => decidable_of_iff' _ (plant_iff w)

variable {rules : ContextRules} {table : ContextTable} {w x : Word}

/-! ## Sweeps -/

theorem Plant.rewritable (h : Plant w) : Rewritable w where
  alphabet := h.alphabet
  unmatched _ hb hno := absurd (h.balanced.exists_matched hb) (not_exists.2 hno)

theorem plant_singleton {c : Char} (hc : c ∈ alphabet) (hopen : c ≠ '[') (hclose : c ≠ ']') :
    Plant [c] :=
  ⟨List.forall_mem_singleton.2 hc, balanced_of_forall (List.forall_mem_singleton.2 ⟨hopen, hclose⟩)⟩

/-- What rules put in is a plant, and it is not empty. -/
theorem plant_of_get? (hcompile : rules.compile = .ok table)
    (hrules : ∀ rule ∈ rules.entries, Plant rule.2) {key : Word} (h : rules.get? key = some x) :
    Plant x ∧ x ≠ [] := by
  obtain ⟨rule, hfind, rfl⟩ := Option.map_eq_some_iff.1 h
  have hmem := List.mem_of_find?_eq_some hfind
  refine ⟨hrules rule hmem, ?_⟩
  obtain ⟨hentries, hne⟩ := ContextRules.entries_of_compile hcompile
  rw [hentries] at hmem
  obtain ⟨entry, hentry, rfl⟩ := List.mem_map.1 hmem
  exact hne entry hentry

theorem image_eq_or_plant (hcompile : rules.compile = .ok table)
    (hrules : ∀ rule ∈ rules.entries, Plant rule.2) (w : Word) (s : Char × ℕ) :
    image rules w s.2 s.1 = [s.1] ∨
      (s.1 ∉ ['[', ']'] ∧ Plant (image rules w s.2 s.1) ∧ image rules w s.2 s.1 ≠ []) := by
  obtain ⟨c, pos⟩ := s
  dsimp only
  by_cases hplus : c = '+'
  · subst hplus
    exact .inr ⟨by decide, plant_singleton (by decide) (by decide) (by decide),
      List.cons_ne_nil _ _⟩
  by_cases hminus : c = '-'
  · subst hminus
    exact .inr ⟨by decide, plant_singleton (by decide) (by decide) (by decide),
      List.cons_ne_nil _ _⟩
  by_cases hvariable : isBinary c
  · rw [image, if_neg hplus, if_neg hminus, if_pos hvariable]
    split
    · next l r _ _ =>
      cases hget : rules.get? (Context.key ⟨l, c, r⟩) with
      | none => exact .inl rfl
      | some x =>
        refine .inr ⟨?_, plant_of_get? hcompile hrules hget⟩
        intro hbracket
        have hmem := isBinary_iff.1 hvariable
        simp only [List.mem_cons, List.not_mem_nil, or_false] at hbracket hmem
        rcases hbracket with rfl | rfl <;> simp at hmem
    · exact .inl rfl
  · exact .inl (by rw [image, if_neg hplus, if_neg hminus, if_neg hvariable])

/-- A sweep replaces no brackets, and puts in plants that are not empty. -/
theorem substituted_images (hcompile : rules.compile = .ok table)
    (hrules : ∀ rule ∈ rules.entries, Plant rule.2) (w : Word) :
    Substituted (fun c x => c ∉ ['[', ']'] ∧ Plant x ∧ x ≠ []) w
      (w.zipIdx.flatMap fun s => image rules w s.2 s.1) := by
  have hsymbols : Substituted (fun c x => c ∉ ['[', ']'] ∧ Plant x ∧ x ≠ [])
      (w.zipIdx.map Prod.fst) (w.zipIdx.flatMap fun s => image rules w s.2 s.1) :=
    .of_flatMap fun s _ => image_eq_or_plant hcompile hrules w s
  rwa [List.zipIdx_map_fst] at hsymbols

theorem Plant.exists_rewrite (h : Plant w) (hcompile : rules.compile = .ok table)
    (hrules : ∀ rule ∈ rules.entries, Plant rule.2) :
    ∃ next, rewrite table w = .ok next ∧ Plant next ∧ w.length ≤ next.length := by
  obtain ⟨next, hnext⟩ := h.rewritable.exists_rewrite table
  have hsubstituted := substituted_images hcompile hrules w
  rw [← rewrite_eq_flatMap hcompile hnext] at hsubstituted
  refine ⟨next, hnext, ⟨?_, ?_⟩, hsubstituted.length_le fun _ _ hx => hx.2.2⟩
  · exact hsubstituted.forall_mem h.alphabet fun _ _ hx _ => hx.2.1.alphabet
  · refine hsubstituted.balanced h.balanced fun c x ⟨hc, hx, _⟩ => ?_
    rw [List.mem_pair, not_or] at hc
    exact ⟨hc.1, hc.2, hx.balanced⟩

/-- A sweep leaves a plant that is not empty, if there was one. -/
theorem Plant.exists_step (hcompile : rules.compile = .ok table)
    (hrules : ∀ rule ∈ rules.entries, Plant rule.2) (w : Word) (state : Unit)
    (h : Plant w ∧ w ≠ []) :
    ∃ s, Derivation.contextualStep table w state = .ok s ∧ Plant s.1 ∧ s.1 ≠ [] := by
  obtain ⟨next, hnext, hplant, hlength⟩ := h.1.exists_rewrite hcompile hrules
  refine ⟨(next, ()), by rw [Derivation.contextualStep, hnext]; rfl, hplant, ?_⟩
  exact List.ne_nil_of_length_pos ((List.length_pos_of_ne_nil h.2).trans_le hlength)

/-! ## Drawings -/

variable {η κ : Type} [Heading η] [Coordinate κ]

theorem lasting_opening : Lasting (Option.guard fun c => c = '(') := by
  refine lasting_guard (by decide) (by decide) fun c hc => ?_
  obtain rfl : c = '(' := by simpa using hc
  decide

theorem Plant.exists_drawing (h : Plant w) (hne : w ≠ []) (unit : η → Point κ) (originX : κ)
    {angle : η} (hangle : Heading.isZero angle = false) :
    ∃ d, compile unit w originX angle = .ok d := by
  have hopening : '(' ∉ w := fun hmem => absurd (h.alphabet _ hmem) (by decide)
  refine Lindenmayer.exists_drawing unit hne h.balanced (fun c hc => ?_) (fun p hp => ?_) originX
    hangle
  · have hmem := h.alphabet c hc
    simp only [isBrace, decide_eq_true_eq]
    rintro (rfl | rfl) <;> exact absurd hmem (by decide)
  · have hmem : '(' ∈ (stream w).filter fun c => c = '(' :=
      List.mem_filter.2 ⟨List.mem_of_getElem? hp, by decide⟩
    rw [filter_stream lasting_opening] at hmem
    exact absurd (List.mem_of_mem_filter hmem) hopening

/-! ## Generations -/

/-- **Plants grow.** If the rules are valid and put in plants, and the start is a plant that is
    not empty, there is a generation of every order, and it is a plant. The next one has as many
    symbols at least, and every one is drawn, at any origin and for any angle but zero. -/
theorem derive_plant (hvalid : RuleSet.validate (.contextual rules) = .ok ())
    (hrules : ∀ rule ∈ rules.entries, Plant rule.2) {start : Word} (hne : start ≠ [])
    (hstart : Plant start) {options : Derivation.Options} (hlimit : options.limit = none)
    (hexpired : options.expired = false) (order : ℕ) (unit : η → Point κ) :
    ∃ w next, derive order start (.contextual rules) options = .ok w ∧
      derive (order + 1) start (.contextual rules) options = .ok next ∧
      Plant w ∧ w.length ≤ next.length ∧
      ∀ originX angle, Heading.isZero angle = false →
        ∃ d, compile unit w originX angle = .ok d := by
  obtain ⟨table, hcompile⟩ : ∃ table, rules.compile = .ok table := by
    cases hcompile : rules.compile with
    | error e => simp [RuleSet.validate, hcompile, Except.map] at hvalid
    | ok table => exact ⟨table, rfl⟩
  obtain ⟨⟨w, state⟩, hs, hw, hwne⟩ := Derivation.exists_generations hlimit hexpired
    (Plant.exists_step hcompile hrules) order 1 ⟨hstart, hne⟩ ()
  obtain ⟨next, hnext, -, hlength⟩ := hw.exists_rewrite hcompile hrules
  refine ⟨w, next, ?_, ?_, hw, hlength, fun originX angle hangle => ?_⟩
  · rw [derive_contextual hne hcompile, hs]
    rfl
  · rw [derive_contextual hne hcompile, Derivation.generations_succ hlimit hexpired, hs]
    simp only [Except.bind, Derivation.contextualStep, hnext]
    rfl
  · exact hw.exists_drawing hwne unit originX hangle

/-- The `1` between the `0` buds again and again; its buds have no `0` to their right. -/
theorem derive_plant_budding :
    (∀ rule ∈ budding.entries, Plant rule.2) ∧ Plant ['0', '1', '0'] ∧
      derive 2 ['0', '1', '0'] (.contextual budding) =
        .ok ['0', '1', '[', '1', ']', '[', '1', ']', '0'] ∧
      ∃ d, compile floatStep ['0', '1', '[', '1', ']', '[', '1', ']', '0'] 0 90 = .ok d := by
  have hbud : Plant ['1', '[', '1', ']'] :=
    ⟨by simp [alphabet], .append (u := ['1']) (balanced_of_forall (by simp))
      (.branch (balanced_of_forall (w := ['1']) (by simp)) .nil)⟩
  have hrules : ∀ rule ∈ budding.entries, Plant rule.2 := List.forall_mem_singleton.2 hbud
  have hstart : Plant ['0', '1', '0'] := ⟨by simp [alphabet], balanced_of_forall (by simp)⟩
  have hderive : derive 2 ['0', '1', '0'] (.contextual budding) =
      .ok ['0', '1', '[', '1', ']', '[', '1', ']', '0'] := rfl
  have hangle : Heading.isZero (90 : Float) = false := by
    decide +kernel
  have hlimit : ({} : Derivation.Options).limit = none := rfl
  obtain ⟨w, -, hw, -, -, -, hdrawn⟩ :=
    derive_plant rfl hrules (by decide) hstart hlimit rfl 2 floatStep
  obtain rfl := Except.ok.inj (hderive.symm.trans hw)
  exact ⟨hrules, hstart, hderive, hdrawn 0 90 hangle⟩

end Lindenmayer.Contextual

import Lindenmayer.Catalogue
import Lindenmayer.Proofs.Plants
import Lindenmayer.Proofs.Polygons

/-!
# The catalogue draws

A system is *evergreen* if it can be told from its start and its rules that every generation is
drawn (`Evergreen`). For literal and weighted rules the start is vital and each replacement may
be put in the place of its symbol; for contextual rules start and replacements are plants. Then
the system is drawn at every order that is one (`Evergreen.exists_draw`).

To be evergreen is decidable, so for a given system it takes a look at its rules, and the systems
of the catalogue are all evergreen (`draw_catalogue`).
-/

namespace Lindenmayer

open Word Contextual

/-! ## Evergreen systems -/

/-- What lasts in every generation is there at the start, and the rules keep it. -/
def Evergreen (sides alive : List Char) (start : Word) : RuleSet → Prop
  | .literal rules =>
    Vital sides alive start ∧ ∀ rule ∈ rules, Relates (Replaceable sides alive) rule
  | .weighted rules weights =>
    Vital sides alive start ∧ RuleSet.validate (.weighted rules weights) = .ok () ∧
      ∀ x ∈ rules, Replaceable sides alive weightedPredecessor x
  | .contextual rules =>
    (Plant start ∧ start ≠ []) ∧ RuleSet.validate (.contextual rules) = .ok () ∧
      ∀ rule ∈ rules.entries, Plant rule.2

instance (sides alive : List Char) (start : Word) :
    DecidablePred (Evergreen sides alive start)
  | .literal _ => inferInstanceAs (Decidable (_ ∧ _))
  | .weighted _ _ => inferInstanceAs (Decidable (_ ∧ _))
  | .contextual _ => inferInstanceAs (Decidable (_ ∧ _))

variable {sides alive : List Char} {start : Word} {rules : RuleSet} {options : Derivation.Options}

/-- Every generation is drawn, at any origin and for any angle but zero. -/
theorem Evergreen.exists_derive {η κ : Type} [Heading η] [Coordinate κ]
    (h : Evergreen sides alive start rules) (hlimit : options.limit = none)
    (hexpired : options.expired = false) (order : ℕ) (unit : η → Point κ) :
    ∃ w, derive order start rules options = .ok w ∧
      ∀ originX angle, Heading.isZero angle = false →
        ∃ d, compile unit w originX angle = .ok d := by
  have hdrawn : ∀ w, Vital sides alive w → ∀ originX angle, Heading.isZero angle = false →
      ∃ d, compile unit w originX angle = .ok d :=
    fun w hw originX angle => hw.drawable.exists_drawing hw.ne_nil unit originX
  cases rules with
  | literal rules =>
    obtain ⟨hstart, hrules⟩ := h
    obtain ⟨w, hderive, hw⟩ := exists_derive_of_relates hstart.ne_nil hstart
      (fun _ _ hw h => h.vital hw) hlimit hexpired order hrules
    exact ⟨w, hderive, hdrawn w hw⟩
  | weighted rules weights =>
    obtain ⟨hstart, hvalid, hrules⟩ := h
    obtain ⟨w, hderive, hw⟩ := exists_derive_of_weighable hstart.ne_nil hstart
      (fun _ _ hw h => h.vital hw) hlimit hexpired order hvalid hrules
    exact ⟨w, hderive, hdrawn w hw⟩
  | contextual rules =>
    obtain ⟨hstart, hvalid, hrules⟩ := h
    obtain ⟨table, hcompile, -⟩ := map_eq_ok_iff.1 hvalid
    obtain ⟨w, hderive, hw, hne⟩ := (drives_contextual hcompile _).exists_derive hstart.2 hstart
      (Plant.exists_step hcompile hrules) hlimit hexpired order
    exact ⟨w, hderive, fun originX angle => hw.exists_drawing hne unit originX⟩

/-! ## Configurations -/

theorem isZero_of_unusableAngle? {angle : Float} (h : unusableAngle? angle = none) :
    Heading.isZero angle = false := by
  by_contra hzero
  have hrat : (Binary64.ofFloat angle).toRat? = some 0 :=
    eq_of_beq ((Bool.not_eq_false _).mp hzero)
  rw [unusableAngle?] at h
  cases hx : Binary64.ofFloat angle with
  | finite negative significand exponent =>
    rw [hx] at hrat
    simp [hx, significand_eq_zero hrat] at h
  | _ => simp [hx] at h

namespace Configuration

variable {c : Configuration}

theorem generations_ofNat (c : Configuration) (order : UInt32) :
    ({ c with order := .ofNat order.toNat } : Configuration).generations = .ok order.toNat := by
  have hlt := order.toNat_lt
  have horder : (Int64.ofNat order.toNat).toInt = order.toNat :=
    Int64.toInt_ofNat_of_lt (by omega)
  rw [generations]
  simp only [horder, greatestOrder]
  rw [if_neg (by omega), if_neg (by omega), Int.toNat_natCast]

theorem exists_draw {order : ℕ} {w : Word} (horder : c.generations = .ok order)
    (hangle : unusableAngle? c.angle = none)
    (hderive : Lindenmayer.derive order c.start c.rules options = .ok w)
    (hdrawn : ∃ d, compile floatStep w 0 c.angle = .ok d) : ∃ d, c.draw options = .ok d := by
  obtain ⟨hne, hrules⟩ : c.start ≠ [] ∧ c.rules.validate = .ok () := by
    refine (derive_error_or_valid c.start c.rules).resolve_left fun ⟨e, he⟩ => ?_
    rw [he] at hderive
    cases hderive
  have hvalid : c.validate = .ok () := by
    rw [validate, horder]
    simp only [bind, Except.bind, List.isEmpty_iff, if_neg hne, hangle, hrules]
  have hword : c.derive options = .ok w := by
    rw [derive, hvalid, horder]
    exact hderive
  rw [draw, hword]
  exact hdrawn

end Configuration

/-- An evergreen system is drawn at every order, for every seed. -/
theorem Evergreen.exists_draw {c : Configuration} (h : Evergreen sides alive c.start c.rules)
    (hangle : unusableAngle? c.angle = none) (order : UInt32) (hlimit : options.limit = none)
    (hexpired : options.expired = false) :
    ∃ d, Configuration.draw { c with order := .ofNat order.toNat } options = .ok d := by
  obtain ⟨w, hderive, hdrawn⟩ := h.exists_derive hlimit hexpired order.toNat floatStep
  exact Configuration.exists_draw (c.generations_ofNat order) hangle hderive
    (hdrawn 0 c.angle (isZero_of_unusableAngle? hangle))

/-! ## The catalogue -/

namespace Catalogue

theorem unusableAngle?_catalogue :
    ∀ c ∈ deterministic ++ hogewegHesperPlants, unusableAngle? c.angle = none := by
  decide +kernel

/-- Two systems have polygons, and one of the others has no turn, no heading and no `A` at its
    start, but an `F` that is never replaced. -/
theorem evergreen_deterministic :
    ∀ c ∈ deterministic, ∃ sides ∈ [[], ['F', 'X', '+', '-', '|']],
      ∃ alive ∈ [['$', '(', '+', 'A', 'B'], ['F']], Evergreen sides alive c.start c.rules := by
  decide +kernel

theorem evergreen_hogewegHesperPlants :
    ∀ c ∈ hogewegHesperPlants, Evergreen [] [] c.start c.rules := by
  decide +kernel

/-- Three weights of 32 bits do not exhaust 64. -/
theorem activeWeights_ofNat {rules : List Word} (hrules : rules.length = 3) {a b c : UInt32}
    (ha : a ≠ 0) (hb : b ≠ 0) (hc : c ≠ 0) :
    RuleSet.activeWeights rules [.ofNat a.toNat, .ofNat b.toNat, .ofNat c.toNat] =
      .ok [a.toNat, b.toNat, c.toNat] := by
  have hlt : ∀ w : UInt32, w.toNat < 2 ^ 32 := UInt32.toNat_lt
  have hpos : ∀ w : UInt32, w ≠ 0 → 0 < w.toNat := fun w hw =>
    Nat.pos_of_ne_zero fun h => hw (UInt32.toNat_inj.1 h)
  have hweight : ∀ w : UInt32, (Int64.ofNat w.toNat).toInt = w.toNat := fun w =>
    Int64.toInt_ofNat_of_lt ((hlt w).trans (by norm_num))
  refine RuleSet.activeWeights_eq_ok_iff.2 ⟨⟨?_, ?_, ?_, ?_⟩, ?_⟩
  · exact List.ne_nil_of_length_pos (hrules ▸ Nat.succ_pos 2)
  · exact hrules.le
  · simpa [hrules, hweight] using ⟨hpos a ha, hpos b hb, hpos c hc⟩
  · have := hlt a
    have := hlt b
    have := hlt c
    simp only [hrules, List.take, List.map, List.sum_cons, List.sum_nil, hweight]
    omega
  · simp only [hrules, List.take, List.map, hweight, Int.toNat_natCast]

theorem evergreen_stochasticBush {a b c : UInt32} (ha : a ≠ 0) (hb : b ≠ 0) (hc : c ≠ 0) :
    Evergreen [] ['$'] (stochasticBush a b c).start (stochasticBush a b c).rules := by
  have hstart : Vital [] ['$'] "$F".toList := by
    decide +kernel
  have hrules : ∀ x ∈ ["F[+F]F[-F]F".toList, "F[+F]F".toList, "F[-F]F".toList],
      Replaceable [] ['$'] weightedPredecessor x := by
    decide +kernel
  refine ⟨hstart, ?_, hrules⟩
  rw [RuleSet.validate, activeWeights_ofNat rfl ha hb hc]
  rfl

/-- **The catalogue draws at every order.** Every system of the catalogue, and the bush with any
    weights but zero, is drawn at every order of 32 bits, for every seed: no generation has a
    symbol that its rules cannot take, brackets or braces that do not fit or a heading that
    cannot be read, and none is empty. -/
theorem draw_catalogue (order : UInt32) (seed : Seed) :
    (∀ c ∈ deterministic ++ hogewegHesperPlants,
      ∃ d, Configuration.draw { c with order := .ofNat order.toNat } { seed } = .ok d) ∧
    ∀ w₁ w₂ w₃ : UInt32, w₁ ≠ 0 → w₂ ≠ 0 → w₃ ≠ 0 →
      ∃ d, Configuration.draw { stochasticBush w₁ w₂ w₃ with order := .ofNat order.toNat }
        { seed } = .ok d := by
  refine ⟨fun c hc => ?_, fun w₁ w₂ w₃ h₁ h₂ h₃ => ?_⟩
  · have hangle := unusableAngle?_catalogue c hc
    rcases List.mem_append.1 hc with hc | hc
    · obtain ⟨sides, -, alive, -, hgreen⟩ := evergreen_deterministic c hc
      exact hgreen.exists_draw hangle order rfl rfl
    · exact (evergreen_hogewegHesperPlants c hc).exists_draw hangle order rfl rfl
  · have hangle : unusableAngle? 25.7 = none := by
      decide +kernel
    exact (evergreen_stochasticBush h₁ h₂ h₃).exists_draw hangle order rfl rfl

/-- Nobody will see the last generation of the leaves or of a bush, but they can be drawn. -/
theorem draw_catalogue_leaves :
    galsFig4 ∈ deterministic ++ hogewegHesperPlants ∧
      (∃ d, Configuration.draw { galsFig4 with order := 4294967295 } = .ok d) ∧
      ∃ d, Configuration.draw { stochasticBush 5 4294967295 1 with order := 4294967295 } = .ok d := by
  have hmem : galsFig4 ∈ deterministic ++ hogewegHesperPlants := by
    decide +kernel
  obtain ⟨hcatalogue, hbush⟩ := draw_catalogue 4294967295 default
  exact ⟨hmem, hcatalogue galsFig4 hmem, hbush 5 4294967295 1 (by decide) (by decide) (by decide)⟩

end Catalogue

end Lindenmayer

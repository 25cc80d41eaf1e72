import Lindenmayer.Proofs.Acceptance
import Lindenmayer.Proofs.Generations
import Lindenmayer.Proofs.Normalisation

/-!
# Context-free systems

Literal and weighted rules replace symbols whatever stands around them. If what they put in is
well formed (`WellFormed`), and keys have no symbols of brackets, braces and headings
(`ContextFree`), no replacement begins or ends inside a heading and none splits a pair of
brackets, so every generation from a well-formed word is well formed
(`Substituted.wellFormed`). Neither does the turtle damage a heading: the stream of a
well-formed word is well written, and so the word is drawn (`WellFormed.exists_drawing`).
-/

namespace Lindenmayer

open Word

/-- A balanced word without braces, in which every `(` opens a heading and the symbols of
    headings, signs excepted, stand in headings only. -/
structure WellFormed (w : Word) : Prop where
  balanced : Balanced w
  noBraces : ∀ c ∈ w, c ≠ '{' ∧ c ≠ '}'
  written : WellWritten w

/-- Neither a bracket nor a brace, and no symbol that headings are written with. -/
def IsPlain (c : Char) : Prop :=
  c ∉ ['[', ']', '(', ')', '{', '}', '+', '-', '.'] ∧ ¬ c.isDigit

instance : DecidablePred IsPlain := fun _ => inferInstanceAs (Decidable (_ ∧ _))

/-- Rules whose replacements are well formed: literal ones with keys that are not empty and
    have plain symbols only, and weighted ones that are valid. -/
inductive ContextFree : RuleSet → Prop
  | literal {rules : List (Word × Word)} :
    (∀ rule ∈ rules, rule.1 ≠ [] ∧ (∀ c ∈ rule.1, IsPlain c) ∧ WellFormed rule.2) →
    ContextFree (.literal rules)
  | weighted {rules : List Word} {weights : List Int64} :
    RuleSet.validate (.weighted rules weights) = .ok () → (∀ x ∈ rules, WellFormed x) →
    ContextFree (.weighted rules weights)

variable {c : Char} {w y : Word}

/-! ## Sweeps -/

theorem wellFormed_nil : WellFormed [] :=
  ⟨.nil, by simp, wellWritten_of_tidy .nil⟩

theorem IsPlain.not_isHeadingSymbol (h : IsPlain c) : ¬ isHeadingSymbol c := by
  have hc := h.1
  simp only [isHeadingSymbol, decide_eq_true_eq]
  rintro (rfl | rfl | rfl | hdigit)
  · simp at hc
  · simp at hc
  · simp at hc
  · exact h.2 hdigit

theorem IsPlain.ne (h : IsPlain c) {d : Char}
    (hd : d ∈ ['[', ']', '(', ')', '{', '}', '+', '-', '.']) : c ≠ d := by
  rintro rfl
  exact h.1 hd

/-- What is put in the place of plain symbols leaves a word well formed. -/
theorem Substituted.wellFormed (h : Substituted (fun c x => IsPlain c ∧ WellFormed x) w y)
    (hw : WellFormed w) : WellFormed y where
  balanced := h.balanced hw.balanced fun _ _ ⟨hc, hx⟩ =>
    ⟨hc.ne (by decide), hc.ne (by decide), hx.balanced⟩
  noBraces := h.forall_mem hw.noBraces fun _ _ hx _ => hx.2.noBraces
  written := wellWritten_of_tidy <| h.composed hw.written.tidy fun _ _ ⟨hc, hx⟩ =>
    ⟨hc.ne (by decide), hc.ne (by decide), hc.not_isHeadingSymbol, hx.written.tidy⟩

/-! ## Drawings -/

variable {η κ : Type} [Heading η] [Coordinate κ]

/-- A well-formed word is drawn: in its stream the headings are as they were. -/
theorem WellFormed.exists_drawing (h : WellFormed w) (hne : w ≠ []) (unit : η → Point κ)
    (originX : κ) {angle : η} (hangle : Heading.isZero angle = false) :
    ∃ d, compile unit w originX angle = .ok d := by
  have hstream : WellWritten (stream w) := wellWritten_of_tidy (tidy_stream h.written.tidy)
  refine Lindenmayer.exists_drawing unit hne h.balanced (fun c hc => ?_) hstream.opens originX
    hangle
  simpa [isBrace] using h.noBraces c hc

/-! ## Generations -/

variable {rules : RuleSet} {start : Word} {options : Derivation.Options}

theorem exists_derive_literal {rules : List (Word × Word)} (hne : start ≠ [])
    (hstart : WellFormed start)
    (hrules : ∀ rule ∈ rules, rule.1 ≠ [] ∧ (∀ c ∈ rule.1, IsPlain c) ∧ WellFormed rule.2)
    (hlimit : options.limit = none) (hexpired : options.expired = false) (order : ℕ) :
    ∃ w, derive order start (.literal rules) options = .ok w ∧ WellFormed w := by
  refine exists_derive_of_relates hne hstart (fun _ _ hw h => h.wellFormed hw) hlimit hexpired
    order ?_
  rintro ⟨_ | ⟨c, key⟩, x⟩ hrule
  · exact absurd rfl (hrules _ hrule).1
  · obtain ⟨-, hplain, hx⟩ := hrules _ hrule
    obtain ⟨hc, hkey⟩ := List.forall_mem_cons.1 hplain
    exact ⟨⟨hc, hx⟩, fun d hd => ⟨hkey d hd, wellFormed_nil⟩⟩

theorem exists_derive_weighted {rules : List Word} {weights : List Int64} (hne : start ≠ [])
    (hstart : WellFormed start) (hvalid : RuleSet.validate (.weighted rules weights) = .ok ())
    (hrules : ∀ x ∈ rules, WellFormed x)
    (hlimit : options.limit = none) (hexpired : options.expired = false) (order : ℕ) :
    ∃ w, derive order start (.weighted rules weights) options = .ok w ∧ WellFormed w := by
  have hpredecessor : IsPlain weightedPredecessor := ⟨by decide, by decide⟩
  exact exists_derive_of_weighable hne hstart (fun _ _ hw h => h.wellFormed hw) hlimit hexpired
    order hvalid fun x hx => ⟨hpredecessor, hrules x hx⟩

/-- **Context-free systems draw.** If the rules are context-free and the start is well formed and
    not empty, there is a generation of every order, for every seed, and it is well formed. Unless
    it is empty, it is drawn, at any origin and for any angle but zero. -/
theorem derive_wellFormed (hrules : ContextFree rules) (hne : start ≠ [])
    (hstart : WellFormed start) (hlimit : options.limit = none) (hexpired : options.expired = false)
    (order : ℕ) (unit : η → Point κ) :
    ∃ w, derive order start rules options = .ok w ∧ WellFormed w ∧
      (w ≠ [] → ∀ originX angle, Heading.isZero angle = false →
        ∃ d, compile unit w originX angle = .ok d) := by
  obtain ⟨w, hderive, hw⟩ : ∃ w, derive order start rules options = .ok w ∧ WellFormed w := by
    cases hrules with
    | literal hrules => exact exists_derive_literal hne hstart hrules hlimit hexpired order
    | weighted hvalid hrules =>
      exact exists_derive_weighted hne hstart hvalid hrules hlimit hexpired order
  exact ⟨w, hderive, hw, fun hne originX angle => hw.exists_drawing hne unit originX⟩

/-- A literal rule that puts a branch and a heading in the place of two symbols. -/
def grafting : RuleSet :=
  .literal [(['X', 'F'], ['[', '+', 'X', 'F', ']', '(', '9', ')'])]

/-- The key matches inside the branch only, so the headings stay. The weighted rule chooses what
    it puts in, for any seed. -/
theorem derive_wellFormed_grafting :
    ContextFree grafting ∧ WellFormed ['X', 'F'] ∧
      derive 2 ['X', 'F'] grafting = .ok ['[', '+', '[', '+', 'X', 'F', ']', '(', '9', ')', ']',
        '(', '9', ')'] ∧
      (∃ d, compile floatStep ['[', '+', '[', '+', 'X', 'F', ']', '(', '9', ')', ']',
        '(', '9', ')'] 0 90 = .ok d) ∧
      ∀ seed, ∃ w, derive 2 ['X', 'F'] (.weighted [['X', 'F'], []] [2, 1]) ⟨seed, none, false⟩ =
        .ok w ∧ WellFormed w := by
  have hread : Decimal.read? ['9'] = some ⟨false, 9, 0⟩ := rfl
  have hword : WellFormed ['X', 'F'] :=
    ⟨balanced_of_forall (by simp), by simp,
      wellWritten_of_tidy (.of_forall (by simp [isLiteralSymbol]))⟩
  have htidy : Tidy ['[', '+', 'X', 'F', ']', '(', '9', ')'] :=
    .append (u := ['[', '+', 'X', 'F', ']']) (.of_forall (by simp [isLiteralSymbol]))
      (.heading (by simp [isHeadingSymbol]) hread .nil)
  have hbalanced : Balanced ['[', '+', 'X', 'F', ']', '(', '9', ')'] :=
    .branch (u := ['+', 'X', 'F']) (balanced_of_forall (by simp)) (balanced_of_forall (by simp))
  have hgraft : WellFormed ['[', '+', 'X', 'F', ']', '(', '9', ')'] :=
    ⟨hbalanced, by simp, wellWritten_of_tidy htidy⟩
  have hrules : ContextFree grafting :=
    .literal (List.forall_mem_singleton.2 ⟨by decide, by simp [IsPlain], hgraft⟩)
  have hweighted : ContextFree (.weighted [['X', 'F'], []] [2, 1]) :=
    .weighted rfl (by simpa using ⟨hword, wellFormed_nil⟩)
  have hderive : derive 2 ['X', 'F'] grafting = .ok ['[', '+', '[', '+', 'X', 'F', ']', '(', '9',
      ')', ']', '(', '9', ')'] := rfl
  have hlimit : ∀ seed, (Derivation.Options.mk seed none false).limit = none := fun _ => rfl
  have hangle : Heading.isZero (90 : Float) = false := by
    decide +kernel
  obtain ⟨w, hw, -, hdrawn⟩ :=
    derive_wellFormed hrules (by decide) hword (hlimit 0) rfl 2 floatStep
  obtain rfl := Except.ok.inj (hderive.symm.trans hw)
  refine ⟨hrules, hword, hderive, hdrawn (by decide) 0 90 hangle, fun seed => ?_⟩
  obtain ⟨w, hw, hformed, -⟩ :=
    derive_wellFormed hweighted (by decide) hword (hlimit seed) rfl 2 floatStep
  exact ⟨w, hw, hformed⟩

end Lindenmayer

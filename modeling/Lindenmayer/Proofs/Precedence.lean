import Lindenmayer.Proofs.Generations

/-!
# The order of literal rules

Literal rules are tried in the order of their declaration. Where two rules match one word, the key
of one of them is a prefix of the key of the other (`Comparable`), since both keys are prefixes of
the word. So the order of the rules matters only among rules with such keys: rules that are
declared in another order, in which these keep theirs, match alike (`Reordered.firstMatch_eq`).

A rule that is declared behind one whose key is a prefix of its own is *shadowed*: wherever it
matches, a rule before it does (`exists_firstMatch_of_shadowed`). So it is never applied, and it
can be left out.

Rules that match alike are valid alike and derive alike (`derive_of_matchAlike`).

* `derive_precedence`: what the declaration of the rules does not matter for in a derivation.
-/

namespace Lindenmayer

/-- Whether one of two keys is a prefix of the other. -/
def Comparable (k l : Word) : Prop := k <+: l ∨ l <+: k

instance (k l : Word) : Decidable (Comparable k l) :=
  inferInstanceAs (Decidable (k <+: l ∨ l <+: k))

/-- Rules that are those of another list, each in a place of its own, and of which those with
    comparable keys stand in the same order as there. -/
def Reordered (rules rules' : List (Word × Word)) : Prop :=
  ∃ place : Fin rules'.length ≃ Fin rules.length, (∀ i, rules'[i] = rules[place i]) ∧
    ∀ i j, i < j → Comparable rules'[i].1 rules'[j].1 → place i < place j

namespace Literal

/-! ## Matches -/

section

variable {rules : List (Word × Word)} {rule : Word × Word} {w : Word}

/-- What is matched first stands in the rules and begins the word, and no rule before it does. -/
theorem firstMatch_eq_some_iff : firstMatch rules w = some rule ↔ ∃ i : Fin rules.length,
    rules[i] = rule ∧ rule.1 <+: w ∧ ∀ j < i, ¬ rules[j].1 <+: w := by
  rw [firstMatch, List.find?_eq_some_iff_getElem]
  simp only [Bool.not_eq_true', ← Bool.not_eq_true, List.isPrefixOf_iff_prefix]
  constructor
  · rintro ⟨hw, i, hi, hrule, hfirst⟩
    exact ⟨⟨i, hi⟩, hrule, hw, fun j hj => hfirst j hj⟩
  · rintro ⟨i, hrule, hw, hfirst⟩
    exact ⟨hw, i, i.isLt, hrule, fun j hj => hfirst ⟨j, hj.trans i.isLt⟩ hj⟩

theorem firstMatch_eq_none_iff :
    firstMatch rules w = none ↔ ∀ i : Fin rules.length, ¬ rules[i].1 <+: w := by
  rw [firstMatch, List.find?_eq_none]
  constructor
  · intro h i
    simpa using h rules[i] (List.getElem_mem i.isLt)
  · intro h rule hrule
    obtain ⟨i, hi, rfl⟩ := List.mem_iff_getElem.1 hrule
    simpa using h ⟨i, hi⟩

end

section

variable {before after : List (Word × Word)} {key w : Word}
  (hshadowed : ∃ earlier ∈ before, earlier.1 <+: key)
include hshadowed

/-- Wherever a shadowed rule matches, one before it does. -/
theorem exists_firstMatch_of_shadowed (hw : key <+: w) :
    ∃ first, firstMatch before w = some first := by
  obtain ⟨earlier, hmem, hearlier⟩ := hshadowed
  rw [← Option.isSome_iff_exists, firstMatch, List.find?_isSome]
  exact ⟨earlier, hmem, List.isPrefixOf_iff_prefix.2 (hearlier.trans hw)⟩

theorem firstMatch_shadowed (x w : Word) :
    firstMatch (before ++ (key, x) :: after) w = firstMatch (before ++ after) w := by
  rw [firstMatch, firstMatch, List.find?_append, List.find?_append]
  by_cases hw : key <+: w
  · obtain ⟨first, hfirst⟩ := exists_firstMatch_of_shadowed hshadowed hw
    rw [firstMatch] at hfirst
    rw [hfirst, Option.some_or, Option.some_or]
  · rw [List.find?_cons_of_neg (by simpa using hw)]

end

/-! ## Rules that match alike -/

variable {rules rules' : List (Word × Word)}

theorem rewriteInto_of_matchAlike (h : ∀ w, firstMatch rules' w = firstMatch rules w)
    (done : Word) (skip : ℕ) (w : Word) :
    rewriteInto rules' done skip w = rewriteInto rules done skip w := by
  induction w generalizing done skip with
  | nil => cases skip <;> rfl
  | cons c w ih =>
    cases skip with
    | succ skip => exact ih done skip
    | zero =>
      rw [rewriteInto, rewriteInto, h]
      cases firstMatch rules (c :: w) with
      | none => exact ih _ _
      | some rule => exact ih _ _

/-- Rules are valid if none of them matches the empty word. -/
theorem validateLiteral_eq (rules : List (Word × Word)) : RuleSet.validateLiteral rules =
    if (firstMatch rules []).isSome then .error (.configuration .emptyKey) else .ok () := by
  have hempty : (fun rule : Word × Word => rule.1.isEmpty) = fun rule => rule.1.isPrefixOf [] := by
    funext rule
    cases rule.1 <;> rfl
  rw [RuleSet.validateLiteral, firstMatch, hempty, List.isSome_find?]

end Literal

open Literal

section

variable {rules rules' : List (Word × Word)}

/-- Of two rules that match one word, one has a key that is a prefix of the key of the other, and
    so they stand in the same order in both lists. -/
theorem Reordered.firstMatch_eq (h : Reordered rules rules') (w : Word) :
    firstMatch rules' w = firstMatch rules w := by
  obtain ⟨place, hrules, hplace⟩ := h
  cases hmatch : firstMatch rules' w with
  | none =>
    refine (firstMatch_eq_none_iff.2 fun k hk => ?_).symm
    obtain ⟨i, rfl⟩ := place.surjective k
    exact firstMatch_eq_none_iff.1 hmatch i (hrules i ▸ hk)
  | some rule =>
    obtain ⟨i, hi, hw, hfirst⟩ := firstMatch_eq_some_iff.1 hmatch
    refine (firstMatch_eq_some_iff.2 ⟨place i, (hrules i).symm.trans hi, hw, ?_⟩).symm
    intro k hk hkw
    obtain ⟨j, rfl⟩ := place.surjective k
    rw [← hrules j] at hkw
    rcases lt_trichotomy j i with hlt | rfl | hgt
    · exact hfirst j hlt hkw
    · exact lt_irrefl _ hk
    · have hcomparable := List.prefix_or_prefix_of_prefix (hi ▸ hw) hkw
      exact lt_asymm hk (hplace i j hgt hcomparable)

/-- Rules that match alike derive alike. -/
theorem derive_of_matchAlike (h : ∀ w, firstMatch rules' w = firstMatch rules w) (order : ℕ)
    (start : Word) (options : Derivation.Options) :
    derive order start (.literal rules') options = derive order start (.literal rules) options := by
  have hvalid : RuleSet.validateLiteral rules' = RuleSet.validateLiteral rules := by
    rw [validateLiteral_eq, validateLiteral_eq, h]
  have hstep : Derivation.literalStep rules' = Derivation.literalStep rules := by
    funext w _
    rw [Derivation.literalStep, Derivation.literalStep, rewrite, rewriteInto_of_matchAlike h]
    rfl
  simp only [derive, hvalid, hstep]

end

/-- **The order of literal rules matters only between comparable keys.** Whatever the rules, the
    start, the order and the options are: rules that are declared in another order, in which of any
    two rules one of whose keys is a prefix of the other the first one stays the first, derive the
    same word or fail in the same way. And so do the rules without a rule whose key has an earlier
    key as a prefix. Such a rule is never applied: wherever it matches, a rule before it is, and
    what it would put in does not matter. -/
theorem derive_precedence (rules : List (Word × Word)) (order : ℕ) (start : Word)
    (options : Derivation.Options) :
    (∀ rules', Reordered rules rules' →
      derive order start (.literal rules') options =
        derive order start (.literal rules) options) ∧
    ∀ before rule after, rules = before ++ rule :: after →
      (∃ earlier ∈ before, earlier.1 <+: rule.1) →
        derive order start (.literal (before ++ after)) options =
          derive order start (.literal rules) options ∧
        (∀ w, rule.1 <+: w →
          ∃ first, firstMatch before w = some first ∧ firstMatch rules w = some first) ∧
        ∀ x, derive order start (.literal (before ++ (rule.1, x) :: after)) options =
          derive order start (.literal rules) options := by
  refine ⟨fun rules' h => derive_of_matchAlike h.firstMatch_eq order start options, ?_⟩
  rintro before ⟨key, x⟩ after rfl hshadowed
  have hleftOut (y w : Word) :
      firstMatch (before ++ (key, y) :: after) w = firstMatch (before ++ after) w :=
    firstMatch_shadowed hshadowed y w
  refine ⟨derive_of_matchAlike (fun w => (hleftOut x w).symm) order start options,
    fun w hw => ?_, fun y => ?_⟩
  · obtain ⟨first, hfirst⟩ := exists_firstMatch_of_shadowed hshadowed hw
    refine ⟨first, hfirst, ?_⟩
    rw [firstMatch] at hfirst
    rw [firstMatch, List.find?_append, hfirst, Option.some_or]
  · exact derive_of_matchAlike (fun w => (hleftOut y w).trans (hleftOut x w).symm) order start
      options

/-- Rules for `A`, for `AB`, which the rule for `A` shadows, for `B`, and for `BA`, which comes too
    late. -/
def crowding : List (Word × Word) :=
  [(['A'], ['B', 'A']), (['A', 'B'], ['X']), (['B'], ['A']), (['B', 'A'], ['Y'])]

/-- The rules for `B` and for `BA` may stand in front of those for `A` and for `AB`. The rule for
    `AB` may be left out or put in something else, and the next word that it matches is rewritten by
    the rule for `A`. -/
theorem derive_precedence_crowding :
    Reordered crowding [(['B'], ['A']), (['A'], ['B', 'A']), (['B', 'A'], ['Y']),
      (['A', 'B'], ['X'])] ∧
    derive 2 ['A', 'B'] (.literal crowding) = .ok ['A', 'B', 'A', 'B', 'A'] ∧
    derive 2 ['A', 'B'] (.literal [(['B'], ['A']), (['A'], ['B', 'A']), (['B', 'A'], ['Y']),
      (['A', 'B'], ['X'])]) = .ok ['A', 'B', 'A', 'B', 'A'] ∧
    derive 2 ['A', 'B'] (.literal [(['A'], ['B', 'A']), (['B'], ['A']), (['B', 'A'], ['Y'])]) =
      .ok ['A', 'B', 'A', 'B', 'A'] ∧
    derive 2 ['A', 'B'] (.literal [(['A'], ['B', 'A']), (['A', 'B'], ['Z']), (['B'], ['A']),
      (['B', 'A'], ['Y'])]) = .ok ['A', 'B', 'A', 'B', 'A'] := by
  have hderive : derive 2 ['A', 'B'] (.literal crowding) = .ok ['A', 'B', 'A', 'B', 'A'] := rfl
  have hreordered : Reordered crowding [(['B'], ['A']), (['A'], ['B', 'A']), (['B', 'A'], ['Y']),
      (['A', 'B'], ['X'])] := by
    let place : Equiv.Perm (Fin 4) := ⟨![2, 0, 3, 1], ![1, 3, 0, 2], by decide, by decide⟩
    exact ⟨place, by decide, by decide⟩
  obtain ⟨horder, hshadowed⟩ := derive_precedence crowding 2 ['A', 'B'] {}
  obtain ⟨hleftOut, -, hother⟩ := hshadowed [(['A'], ['B', 'A'])] (['A', 'B'], ['X'])
    [(['B'], ['A']), (['B', 'A'], ['Y'])] rfl ⟨_, List.mem_singleton_self _, by decide⟩
  exact ⟨hreordered, hderive, (horder _ hreordered).trans hderive, hleftOut.trans hderive,
    (hother ['Z']).trans hderive⟩

end Lindenmayer

import Lindenmayer.Document.RuleSet
import Lindenmayer.Proofs.Printing
import Lindenmayer.Proofs.Scaling

/-!
# Rule sets in documents

A rule set that is written to a document is read back from it, whether it is well-formed or
not (`RuleSet.ofDocument_toDocument`).

* Nothing in it is refused: its numbers are integers of 64 bits, and its values are nested
  three deep at most (`RuleSet.isReadable_toJson`).
* Contextual rules are written in the order of their keys, so that putting them under their
  keys one by one only ever adds a rule at the end (`ContextRules.ofList_entries`).
-/

namespace Lindenmayer

/-! ## Simple values -/

namespace Json

theorem isWritten_ofMembers {members : List (String × Json)}
    (h : ∀ m ∈ members, m.2.IsWritten) : (ofMembers members).IsWritten := by
  refine .object fun m hm => ?_
  obtain ⟨m, hmem, rfl⟩ := List.mem_map.1 hm
  exact h m hmem

theorem isWritten_array_map {α : Type} {f : α → Json} (h : ∀ a, (f a).IsWritten) (l : List α) :
    (array (l.map f)).IsWritten := by
  refine .array fun j hj => ?_
  obtain ⟨a, -, rfl⟩ := List.mem_map.1 hj
  exact h a

theorem isWritten_ofInt (n : ℤ) : (ofInt n).IsWritten := .number ⟨isWhole_digitsOfNat _⟩

/-- A list is decoded item by item. -/
theorem mapM_map_of_mem {α β γ : Type} {decode : β → Option γ} {encode : α → β} {f : α → γ}
    {l : List α} (h : ∀ a ∈ l, decode (encode a) = some (f a)) :
    (l.map encode).mapM decode = some (l.map f) := by
  induction l with
  | nil => rfl
  | cons a l ih =>
    obtain ⟨ha, hl⟩ := List.forall_mem_cons.1 h
    rw [List.map_cons, List.mapM_cons, ha, ih hl]
    rfl

/-- A list is decoded if each of its items is. -/
theorem mapM_map_eq_some {α β : Type} {decode : β → Option α} {encode : α → β}
    (h : ∀ a, decode (encode a) = some a) (l : List α) :
    (l.map encode).mapM decode = some l :=
  (mapM_map_of_mem fun a _ => h a).trans (congrArg some l.map_id)

theorem asList?_map {α : Type} {decode : Json → Option α} {encode : α → Json}
    (h : ∀ a, decode (encode a) = some a) (l : List α) :
    asList? decode (array (l.map encode)) = some l :=
  mapM_map_eq_some h l

theorem asChars?_ofChars (w : Word) : asChars? (ofChars w) = some w := by
  simp [asChars?, asString?, ofChars, ofString]

/-- An integer of 64 bits is decoded. -/
theorem asInt64?_ofInt (w : Int64) : asInt64? (ofInt w.toInt) = some w := by
  have hmagnitude : natOfDigits (digitsOfNat w.toInt.natAbs) = w.toInt.natAbs :=
    natOfDigits_digitsOfNat _
  have hle : -2 ^ 63 ≤ w.toInt := w.le_toInt
  have hlt : w.toInt < 2 ^ 63 := w.toInt_lt
  change (Number.ofInt w.toInt).toInt64? = some w
  rw [Number.toInt64?, if_pos ⟨rfl, rfl⟩]
  simp only [Number.ofInt, hmagnitude, decide_eq_true_eq]
  split_ifs with hnegative hrange hrange
  · simp only [Number.int64Half] at hrange
    omega
  · have hvalue : -(w.toInt.natAbs : ℤ) = w.toInt := by omega
    rw [hvalue, Int64.ofInt_toInt]
  · simp only [Number.int64Half] at hrange
    omega
  · have hvalue : (w.toInt.natAbs : ℤ) = w.toInt := by omega
    rw [hvalue, Int64.ofInt_toInt]

/-! ## Readable values -/

theorem isReadable_ofString (depth : ℕ) (t : String) : (ofString t).isReadable depth = true := by
  cases depth <;> rfl

theorem isReadable_ofInt (depth : ℕ) {n : ℤ} (h : n.natAbs < 2 ^ 64) :
    (ofInt n).isReadable depth = true := by
  have hread := Number.isSome_toFloat?_ofInt h
  cases depth <;> exact hread

theorem isReadable_ofMembers {members : List (String × Json)} {depth : ℕ}
    (h : ∀ m ∈ members, m.2.isReadable depth = true) :
    (ofMembers members).isReadable (depth + 1) = true := by
  refine List.all_eq_true.2 fun m hm => ?_
  obtain ⟨m, hmem, rfl⟩ := List.mem_map.1 hm
  exact h m hmem

theorem isReadable_array_map {α : Type} {f : α → Json} {depth : ℕ}
    (h : ∀ a, (f a).isReadable depth = true) (l : List α) :
    (array (l.map f)).isReadable (depth + 1) = true := by
  simp [isReadable, h]

end Json

/-! ## Contextual rules -/

theorem Word.not_precedes_self (w : Word) : ¬ precedes w w := by
  induction w with
  | nil => simp [precedes]
  | cons c w ih => simpa [precedes] using ih

/-- A key behind all others is put at the end. -/
theorem ContextRules.insertInto_eq_append {key replacement : Word} {l : List (Word × Word)}
    (h : ∀ e ∈ l, Word.precedes e.1 key) :
    insertInto key replacement l = l ++ [(key, replacement)] := by
  induction l with
  | nil => rfl
  | cons e l ih =>
    have hbefore : Word.precedes e.1 key := h e List.mem_cons_self
    have hnot : ¬ Word.precedes key e.1 := fun hafter =>
      Word.not_precedes_self key (Word.precedes_trans hafter hbefore)
    have hne : key ≠ e.1 := fun heq => Word.not_precedes_self key (heq ▸ hbefore)
    rw [insertInto, if_neg hnot, if_neg hne, ih fun e he => h e (List.mem_cons_of_mem _ he),
      List.cons_append]

theorem ContextRules.entries_foldl_insert (l : List (Word × Word)) (rules : ContextRules)
    (h : (rules.entries ++ l).Pairwise fun a b => Word.precedes a.1 b.1) :
    (l.foldl (fun acc rule => acc.insert rule.1 rule.2) rules).entries = rules.entries ++ l := by
  induction l generalizing rules with
  | nil => rw [List.foldl_nil, List.append_nil]
  | cons e l ih =>
    have hbefore : ∀ e' ∈ rules.entries, Word.precedes e'.1 e.1 := fun e' he' =>
      (List.pairwise_append.1 h).2.2 e' he' e List.mem_cons_self
    have hentries : (rules.insert e.1 e.2).entries = rules.entries ++ [e] :=
      insertInto_eq_append hbefore
    rw [List.foldl_cons, ih _ (by rwa [hentries, List.append_assoc]), hentries, List.append_assoc]
    rfl

theorem ContextRules.eq_of_entries {r r' : ContextRules} (h : r.entries = r'.entries) : r = r' := by
  obtain ⟨l, hl⟩ := r
  obtain ⟨l', hl'⟩ := r'
  obtain rfl : l = l' := h
  rfl

/-- Rules in the order of their keys are put under their keys one after the other. -/
theorem ContextRules.ofList_entries (rules : ContextRules) : ofList rules.entries = rules :=
  eq_of_entries (entries_foldl_insert rules.entries empty rules.sorted)

namespace RuleSet

open Json

/-! ## Rule sets -/

theorem isWritten_ofChars (w : Word) : (ofChars w).IsWritten := .string _

theorem isWritten_toJson (r : RuleSet) : r.toJson.IsWritten := by
  have hpair : ∀ rule, (pairToJson rule).IsWritten := fun rule =>
    .array (by simp [isWritten_ofChars])
  have hentries : ∀ l : List (Word × Word), (object (l.map entryToJson)).IsWritten := by
    refine fun l => .object fun m hm => ?_
    obtain ⟨entry, -, rfl⟩ := List.mem_map.1 hm
    exact isWritten_ofChars entry.2
  cases r with
  | literal rules =>
    refine isWritten_ofMembers ?_
    simpa [ofString] using ⟨.string _, isWritten_array_map hpair rules⟩
  | weighted rules weights =>
    refine isWritten_ofMembers ?_
    simpa [ofString] using ⟨.string _, isWritten_array_map isWritten_ofChars rules,
      isWritten_array_map (fun w : Int64 => isWritten_ofInt w.toInt) weights⟩
  | contextual rules =>
    refine isWritten_ofMembers ?_
    simpa [ofString] using ⟨.string _, hentries rules.entries⟩

/-- A rule set can be made sense of, three levels deep. -/
theorem isReadable_toJson (r : RuleSet) (depth : ℕ) : r.toJson.isReadable (depth + 3) = true := by
  have hchars : ∀ (depth : ℕ) (w : Word), (ofChars w).isReadable depth = true :=
    fun depth w => isReadable_ofString depth _
  have hpair : ∀ rule, (pairToJson rule).isReadable (depth + 1) = true := fun rule => by
    simp [pairToJson, isReadable, hchars]
  have hweight : ∀ w : Int64, (ofInt w.toInt).isReadable (depth + 1) = true := fun w => by
    have hle : -2 ^ 63 ≤ w.toInt := w.le_toInt
    have hlt : w.toInt < 2 ^ 63 := w.toInt_lt
    exact isReadable_ofInt _ (by omega)
  have hentries : ∀ l : List (Word × Word),
      (object (l.map entryToJson)).isReadable (depth + 2) = true := by
    refine fun l => List.all_eq_true.2 fun m hm => ?_
    obtain ⟨entry, -, rfl⟩ := List.mem_map.1 hm
    exact hchars (depth + 1) entry.2
  cases r with
  | literal rules =>
    refine isReadable_ofMembers ?_
    simpa using ⟨isReadable_ofString _ _, isReadable_array_map hpair rules⟩
  | weighted rules weights =>
    refine isReadable_ofMembers ?_
    simpa using ⟨isReadable_ofString _ _, isReadable_array_map (hchars (depth + 1)) rules,
      isReadable_array_map hweight weights⟩
  | contextual rules =>
    refine isReadable_ofMembers ?_
    simpa using ⟨isReadable_ofString _ _, hentries rules.entries⟩

theorem asContextRules?_entries (rules : ContextRules) :
    asContextRules? (.object (rules.entries.map entryToJson)) = some rules := by
  rw [asContextRules?, mapM_map_eq_some fun entry => by simp [entryToJson, asChars?_ofChars]]
  exact congrArg some rules.ofList_entries

/-- The value of a rule set is decoded to it. -/
theorem ofJsonWithin?_toJson (r : RuleSet) {depth : ℕ} (h : 3 ≤ depth) :
    ofJsonWithin? depth r.toJson = some r := by
  obtain ⟨rest, rfl⟩ := Nat.exists_eq_add_of_le' h
  rw [ofJsonWithin?, isReadable_toJson]
  cases r with
  | literal rules =>
    have hpair : ∀ rule, asPair? asChars? asChars? (pairToJson rule) = some rule := fun rule => by
      simp [asPair?, pairToJson, asChars?_ofChars]
    have hlist := asList?_map hpair rules
    simp [toJson, ofMembers, kindAndFields?, field?, ofFields?, record?, fields?, asString?,
      ofString, hlist]
  | weighted rules weights =>
    have hrules := asList?_map asChars?_ofChars rules
    have hweights := asList?_map asInt64?_ofInt weights
    simp [toJson, ofMembers, kindAndFields?, field?, ofFields?, record?, fields?, asString?,
      ofString, hrules, hweights]
  | contextual rules =>
    simp [toJson, ofMembers, kindAndFields?, field?, ofFields?, record?, fields?, asString?,
      ofString, asContextRules?_entries]

/-- A rule set that is written is read back: its kind, its rules in their order, its weights.
    It need not be well-formed. -/
theorem ofDocument_toDocument (r : RuleSet) : ofDocument r.toDocument = .ok r := by
  have hparse : Json.parse? r.toDocument = some r.toJson := parse?_render r.isWritten_toJson
  have hdecode : ofJsonWithin? nestingLimit r.toJson = some r :=
    ofJsonWithin?_toJson r (by decide)
  rw [ofDocument, hparse, Option.bind_some, hdecode]

end RuleSet

end Lindenmayer

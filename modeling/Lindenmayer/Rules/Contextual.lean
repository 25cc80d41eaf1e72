import Lindenmayer.Error
import Lindenmayer.Word

/-!
# Contextual rules

A contextual rule rewrites one of the variables `0` and `1` between two given
neighbours. It is declared under a key such as `0 < 1 > 0`: the left neighbour,
the variable itself, the right neighbour. Rules are kept in the order of their
keys, one rule for a key (`ContextRules`); a table with the keys read is what a
derivation looks rules up in (`ContextTable`).
-/

namespace Lindenmayer

/-- The variables of contextual rules. -/
def isBinary (c : Char) : Bool := c = '0' ∨ c = '1'

/-- A variable with its two neighbours. -/
structure Context where
  left : Char
  strict : Char
  right : Char
  deriving DecidableEq, Repr

namespace Context

/-- The key of a context. -/
def key (c : Context) : Word :=
  [c.left, ' ', '<', ' ', c.strict, ' ', '>', ' ', c.right]

/-- The context that a key names: three variables, with ` < ` and ` > ` between
    them and nothing else. -/
def ofKey? : Word → Option Context
  | [l, ' ', '<', ' ', s, ' ', '>', ' ', r] =>
    if isBinary l ∧ isBinary s ∧ isBinary r then some ⟨l, s, r⟩ else none
  | _ => none

end Context

/-- Replacements by key, in ascending order of the keys. -/
structure ContextRules where
  entries : List (Word × Word)
  sorted : entries.Pairwise fun a b => Word.precedes a.1 b.1
  deriving DecidableEq

namespace ContextRules

/-- Puts a replacement under a key; one that stood there gives way to it. -/
def insertInto (key replacement : Word) : List (Word × Word) → List (Word × Word)
  | [] => [(key, replacement)]
  | entry :: rest =>
    if Word.precedes key entry.1 then (key, replacement) :: entry :: rest
    else if key = entry.1 then (key, replacement) :: rest
    else entry :: insertInto key replacement rest

theorem mem_insertInto {key replacement : Word} {entries : List (Word × Word)}
    {e : Word × Word} (h : e ∈ insertInto key replacement entries) :
    e = (key, replacement) ∨ e ∈ entries := by
  induction entries with
  | nil => simpa [insertInto] using h
  | cons entry rest ih =>
    simp only [insertInto] at h
    split at h
    · simpa using h
    · split at h
      · rcases List.mem_cons.1 h with h | h
        · exact .inl h
        · exact .inr (List.mem_cons_of_mem _ h)
      · rcases List.mem_cons.1 h with h | h
        · exact .inr (h ▸ List.mem_cons_self)
        · exact (ih h).imp_right (List.mem_cons_of_mem _)

theorem pairwise_insertInto {key replacement : Word} {entries : List (Word × Word)}
    (h : entries.Pairwise fun a b => Word.precedes a.1 b.1) :
    (insertInto key replacement entries).Pairwise fun a b => Word.precedes a.1 b.1 := by
  induction entries with
  | nil => simp [insertInto]
  | cons entry rest ih =>
    obtain ⟨hentry, hrest⟩ := List.pairwise_cons.1 h
    simp only [insertInto]
    split
    · -- The new key comes before the first one, hence before all of them.
      next hlt =>
      refine List.pairwise_cons.2 ⟨fun e he => ?_, h⟩
      rcases List.mem_cons.1 he with rfl | he
      · exact hlt
      · exact Word.precedes_trans hlt (hentry e he)
    · next hnlt =>
      split
      · next heq => exact List.pairwise_cons.2 ⟨fun e he => heq ▸ hentry e he, hrest⟩
      · -- The first key stays first.
        next hne =>
        refine List.pairwise_cons.2 ⟨fun e he => ?_, ih hrest⟩
        rcases mem_insertInto he with rfl | he
        · exact Word.precedes_of_ne hne hnlt
        · exact hentry e he

/-- No rules. -/
def empty : ContextRules := ⟨[], .nil⟩

/-- The rules with a replacement under a key. -/
def insert (rules : ContextRules) (key replacement : Word) : ContextRules :=
  ⟨insertInto key replacement rules.entries, pairwise_insertInto rules.sorted⟩

/-- The rules of a list; the last replacement under a key counts. -/
def ofList (rules : List (Word × Word)) : ContextRules :=
  rules.foldl (fun acc rule => acc.insert rule.1 rule.2) empty

/-- The replacement under a key. -/
def get? (rules : ContextRules) (key : Word) : Option Word :=
  (rules.entries.find? fun entry => entry.1 = key).map (·.2)

end ContextRules

/-- Replacements by context. -/
structure ContextTable where
  entries : List (Context × Word)
  deriving DecidableEq, Repr

namespace ContextTable

/-- The replacement of a variable between two neighbours. A variable that lacks a
    neighbour has none. -/
def get? (table : ContextTable) (left : Option Char) (strict : Char) (right : Option Char) :
    Option Word :=
  match left, right with
  | some l, some r =>
    (table.entries.find? fun entry => entry.1 = ⟨l, strict, r⟩).map (·.2)
  | _, _ => none

def size (table : ContextTable) : Nat := table.entries.length

end ContextTable

/-- Reads the key of a rule, whose replacement must not be empty. -/
def ContextRules.compileEntry (entry : Word × Word) : Except Error (Context × Word) :=
  match Context.ofKey? entry.1 with
  | some context =>
    if entry.2.isEmpty then .error (.configuration (.malformedRule entry.1))
    else .ok (context, entry.2)
  | none => .error (.configuration (.malformedRule entry.1))

/-- The table of the rules; the first malformed rule is reported. -/
def ContextRules.compile (rules : ContextRules) : Except Error ContextTable :=
  (rules.entries.mapM compileEntry).map ContextTable.mk

end Lindenmayer

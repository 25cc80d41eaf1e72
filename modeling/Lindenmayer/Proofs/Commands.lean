import Lindenmayer.Turtle.Command
import Mathlib

/-!
# The commands of a word

How a word is read into commands, symbol by symbol, without the list of what has been
read before (`commandsFrom`): one equation for each kind of symbol, and one induction
that follows them (`reading_induction`).

What is told by symbols that are neither turns nor variables is told by the commands as
well, one for one and in order, up to the first `(` that opens no heading
(`TellsSame.filterMap_commandsFrom`): neither the cancelling of turns, nor a heading, nor a
variable that is taken out touches the other symbols. So the braces of a word are read as
the marks of polygons (`braces_eq_marks`).
-/

namespace Lindenmayer

open Word

/-- The commands of a word whose first symbol has the given position. -/
def commandsFrom (position : ℕ) (w : Word) : List Instruction := commandsInto [] position w

theorem commandsInto_eq (done : List Instruction) (position : ℕ) (w : Word) :
    commandsInto done position w = done.reverse ++ commandsFrom position w := by
  -- A heading and a variable take more than one symbol away, so the induction is on the
  -- length of what is left to be read.
  induction hn : w.length using Nat.strong_induction_on generalizing done position w with
  | _ n ih =>
    cases w with
    | nil => simp [commandsFrom, commandsInto]
    | cons c rest =>
      subst hn
      rw [commandsFrom, commandsInto, commandsInto]
      split
      · rw [ih _ (by simp) _ _ rest rfl, ih _ (by simp) [_] _ rest rfl]
        simp
      · split_ifs with hheading
        · split
          · next d length _ =>
            have hlt : (rest.drop (length + 1)).length < (c :: rest).length := by
              rw [List.length_drop, List.length_cons]
              omega
            rw [ih _ hlt _ _ _ rfl, ih _ hlt [_] _ _ rfl]
            simp
          · simp
        · have hlt : (without c rest).length < (c :: rest).length :=
            Nat.lt_succ_of_le (length_without_le c rest)
          rw [ih _ hlt _ _ _ rfl, ih _ hlt [_] _ _ rfl]
          simp

theorem commands_eq (w : Word) : commands w = commandsFrom 0 w.cancelTurns := rfl

@[simp] theorem commandsFrom_nil (position : ℕ) : commandsFrom position [] = [] := by
  simp [commandsFrom, commandsInto]

variable {position length : ℕ} {c : Char} {rest literal tail : Word} {d : Decimal}

/-! ## Headings -/

/-- A heading is written with its symbols up to the first `)`. -/
theorem headingLiteral?_eq_some (h : headingLiteral? rest = some (d, length)) :
    ∃ literal tail, rest = literal ++ ')' :: tail ∧ literal.length = length ∧
      (∀ c ∈ literal, isHeadingSymbol c) ∧ Decimal.read? literal = some d := by
  unfold headingLiteral? at h
  simp only at h
  split at h
  · next tail htail =>
    obtain ⟨d', hd, heq⟩ := Option.map_eq_some_iff.1 h
    obtain ⟨rfl, rfl⟩ := Prod.mk.inj heq
    refine ⟨rest.takeWhile isHeadingSymbol, tail, ?_, rfl, ?_, hd⟩
    · rw [← htail, List.takeWhile_append_dropWhile]
    · exact fun c hc => List.mem_takeWhile_imp hc
  · cases h

/-- What is taken from a list ends at the first element that does not go with it. -/
theorem takeWhile_append_cons {α : Type} {p : α → Bool} {l : List α} {a : α}
    (hl : ∀ b ∈ l, p b) (ha : ¬ p a) (tail : List α) : (l ++ a :: tail).takeWhile p = l := by
  rw [List.takeWhile_append_of_pos hl, List.takeWhile_cons_of_neg ha, List.append_nil]

theorem dropWhile_append_cons {α : Type} {p : α → Bool} {l : List α} {a : α}
    (hl : ∀ b ∈ l, p b) (ha : ¬ p a) (tail : List α) :
    (l ++ a :: tail).dropWhile p = a :: tail := by
  rw [List.dropWhile_append_of_pos hl, List.dropWhile_cons_of_neg ha]

theorem headingLiteral?_closed (hliteral : ∀ c ∈ literal, isHeadingSymbol c) (tail : Word) :
    headingLiteral? (literal ++ ')' :: tail) =
      (Decimal.read? literal).map fun d => (d, literal.length) := by
  rw [headingLiteral?, takeWhile_append_cons hliteral (by decide),
    dropWhile_append_cons hliteral (by decide)]
  rfl

theorem headingLiteral?_append (hliteral : ∀ c ∈ literal, isHeadingSymbol c)
    (hread : Decimal.read? literal = some d) (tail : Word) :
    headingLiteral? (literal ++ ')' :: tail) = some (d, literal.length) := by
  rw [headingLiteral?_closed hliteral, hread]
  rfl

/-- Where the symbols of a heading end without a `)`, there is no heading. -/
theorem headingLiteral?_eq_none (hliteral : ∀ c ∈ literal, isHeadingSymbol c) (tail : Word)
    (htail : ∀ c ∈ tail.head?, c ≠ ')' ∧ ¬ isHeadingSymbol c) :
    headingLiteral? (literal ++ tail) = none := by
  have hdrop : (literal ++ tail).dropWhile isHeadingSymbol = tail := by
    rw [List.dropWhile_append_of_pos hliteral]
    cases tail with
    | nil => rfl
    | cons c tail => rw [List.dropWhile_cons_of_neg (htail c rfl).2]
  rw [headingLiteral?, hdrop]
  cases tail with
  | nil => rfl
  | cons c tail => simp [(htail c rfl).1]

theorem mem_of_unsigned? {negative : Bool} {w : Word} (h : Decimal.unsigned? negative w = some d) :
    ∀ c ∈ w, c.isDigit ∨ c = '.' := by
  intro c hc
  rw [← w.takeWhile_append_dropWhile (p := Char.isDigit), List.mem_append] at hc
  rcases hc with hc | hc
  · exact .inl (List.mem_takeWhile_imp hc)
  · -- What follows the whole digits is a point and the digits behind it.
    simp only [Decimal.unsigned?] at h
    split at h
    · next hdrop =>
      rw [hdrop] at hc
      cases hc
    · next e fraction hdrop =>
      split_ifs at h with hpoint
      rw [hdrop] at hc
      rcases List.mem_cons.1 hc with rfl | hc
      · exact .inr hpoint.1
      · exact .inl (List.all_eq_true.1 hpoint.2.1 c hc)

/-- A heading has a sign in front at most. -/
theorem mem_tail_of_read? (h : Decimal.read? literal = some d) :
    ∀ c ∈ literal.tail, c.isDigit ∨ c = '.' := by
  unfold Decimal.read? at h
  split at h
  · exact mem_of_unsigned? h
  · exact mem_of_unsigned? h
  · exact fun c hc => mem_of_unsigned? h c (List.mem_of_mem_tail hc)

/-! ## Symbol by symbol -/

theorem commandsFrom_command {command : Command}
    (h : (Op.ofSymbol c).command? = some command) :
    commandsFrom position (c :: rest) =
      ⟨position, command⟩ :: commandsFrom (position + 1) rest := by
  rw [commandsFrom, commandsInto, h]
  exact commandsInto_eq _ _ _

theorem commandsFrom_heading (hliteral : ∀ c ∈ literal, isHeadingSymbol c)
    (hread : Decimal.read? literal = some d) :
    commandsFrom position ('(' :: (literal ++ ')' :: tail)) =
      ⟨position, .face d⟩ :: commandsFrom (position + literal.length + 2) tail := by
  have hdrop : (literal ++ ')' :: tail).drop (literal.length + 1) = tail := by simp
  rw [commandsFrom, commandsInto]
  simp only [Op.ofSymbol, Op.command?, if_true, headingLiteral?_append hliteral hread, hdrop]
  exact commandsInto_eq _ _ _

theorem commandsFrom_malformed (h : headingLiteral? rest = none) :
    commandsFrom position ('(' :: rest) = [⟨position, .malformed⟩] := by
  rw [commandsFrom, commandsInto]
  simp [Op.ofSymbol, Op.command?, h]

theorem commandsFrom_variable (h : Op.ofSymbol c = .variable) :
    commandsFrom position (c :: rest) =
      ⟨position, .idle c⟩ :: commandsFrom position (without c rest) := by
  rw [commandsFrom, commandsInto]
  simp only [h, Op.command?, reduceCtorEq, if_false]
  exact commandsInto_eq _ _ _

/-- The symbols that have a command of their own. -/
def commandTable : List (Char × Command) :=
  [('F', .forward true), ('f', .forward false), ('+', .turn .left), ('-', .turn .right),
    ('|', .turn .around), ('$', .face (.ofNat 90)), ('[', .push), (']', .pop),
    ('{', .beginPolygon), ('}', .endPolygon)]

theorem mem_commandTable {command : Command} (h : (Op.ofSymbol c).command? = some command) :
    (c, command) ∈ commandTable := by
  unfold Op.ofSymbol at h
  split at h <;> simp only [Op.command?, Option.some.injEq, reduceCtorEq] at h
  all_goals subst h; decide

/-- What holds of all symbols with a command of their own. -/
theorem of_command? {P : Char → Command → Prop} (hP : ∀ e ∈ commandTable, P e.1 e.2)
    {command : Command} (h : (Op.ofSymbol c).command? = some command) : P c command :=
  hP _ (mem_commandTable h)

theorem ofSymbol_eq_setHeading : Op.ofSymbol c = .setHeading ↔ c = '(' := by
  constructor
  · intro h
    unfold Op.ofSymbol at h
    split at h <;> first | rfl | cases h
  · rintro rfl
    rfl

/-- Induction along the reading of a word. -/
theorem reading_induction {P : ℕ → Word → Prop} (nil : ∀ position, P position [])
    (command : ∀ position c rest command, (Op.ofSymbol c).command? = some command →
      P (position + 1) rest → P position (c :: rest))
    (heading : ∀ position literal tail d, (∀ c ∈ literal, isHeadingSymbol c) →
      Decimal.read? literal = some d → P (position + literal.length + 2) tail →
      P position ('(' :: (literal ++ ')' :: tail)))
    (malformed : ∀ position rest, headingLiteral? rest = none → P position ('(' :: rest))
    (idle : ∀ position c rest, Op.ofSymbol c = .variable → P position (without c rest) →
      P position (c :: rest))
    (position : ℕ) (w : Word) : P position w := by
  -- Each case leaves a shorter word.
  induction hn : w.length using Nat.strong_induction_on generalizing position w with
  | _ n ih =>
    subst hn
    cases w with
    | nil => exact nil position
    | cons c rest =>
      cases hc : (Op.ofSymbol c).command? with
      | some cmd => exact command _ _ _ cmd hc (ih _ (by simp) _ rest rfl)
      | none =>
        cases hop : Op.ofSymbol c <;> simp only [hop, Op.command?, reduceCtorEq] at hc
        case setHeading =>
          obtain rfl := ofSymbol_eq_setHeading.1 hop
          cases hlit : headingLiteral? rest with
          | none => exact malformed _ _ hlit
          | some lit =>
            obtain ⟨literal, tail, rfl, -, hliteral, hread⟩ := headingLiteral?_eq_some hlit
            refine heading _ _ _ _ hliteral hread (ih _ ?_ _ _ rfl)
            simp only [List.length_cons, List.length_append]
            omega
        case «variable» =>
          exact idle _ _ _ hop (ih _ (Nat.lt_succ_of_le (length_without_le c rest)) _ _ rfl)

/-! ## What lasts -/

section

variable {β : Type} {f : Char → Option β} {g : Command → Option β}

theorem opposite_iff {a b : Char} :
    opposite a b ↔ (a = '+' ∧ b = '-') ∨ (a = '-' ∧ b = '+') := by
  constructor
  · intro h
    unfold opposite at h
    split at h
    · exact .inl ⟨rfl, rfl⟩
    · exact .inr ⟨rfl, rfl⟩
    · cases h
  · rintro (⟨rfl, rfl⟩ | ⟨rfl, rfl⟩) <;> rfl

theorem variable_of_isDigit (h : c.isDigit) : Op.ofSymbol c = .variable := by
  cases hc : (Op.ofSymbol c).command? with
  | some command => exact absurd h (of_command? (P := fun c _ => ¬ c.isDigit) (by decide) hc)
  | none =>
    cases hop : Op.ofSymbol c <;> simp only [hop, Op.command?, reduceCtorEq] at hc
    case setHeading =>
      obtain rfl := ofSymbol_eq_setHeading.1 hop
      cases h
    case «variable» => rfl

/-- What symbols tell lasts if turns, which may be cancelled, and variables, which are taken
    out, tell nothing. -/
structure Lasting (f : Char → Option β) : Prop where
  left : f '+' = none
  right : f '-' = none
  idle : ∀ c, Op.ofSymbol c = .variable → f c = none

theorem lasting_guard {p : Char → Bool} (hleft : ¬ p '+') (hright : ¬ p '-')
    (hidle : ∀ c, p c → Op.ofSymbol c ≠ .variable) : Lasting (Option.guard p) where
  left := by simpa using hleft
  right := by simpa using hright
  idle c hc := by simpa using mt (hidle c) (not_not.2 hc)

theorem Lasting.heading (h : Lasting f) (hc : isHeadingSymbol c) : f c = none := by
  simp only [isHeadingSymbol, decide_eq_true_eq] at hc
  rcases hc with rfl | rfl | rfl | hc
  · exact h.left
  · exact h.right
  · exact h.idle _ rfl
  · exact h.idle _ (variable_of_isDigit hc)

theorem Lasting.filterMap_literal (h : Lasting f) {literal : Word}
    (hliteral : ∀ c ∈ literal, isHeadingSymbol c) : literal.filterMap f = [] :=
  List.filterMap_eq_nil_iff.2 fun c hc => h.heading (hliteral c hc)

theorem filterMap_without (h : f c = none) (w : Word) :
    (without c w).filterMap f = w.filterMap f := by
  rw [without, List.filterMap_filter]
  refine List.filterMap_congr fun e _ => ?_
  by_cases he : e = c
  · simp [he, h]
  · simp [he]

theorem Lasting.filterMap_cancelStep (h : Lasting f) (done : Word) (c : Char) :
    (cancelStep done c).reverse.filterMap f = (done.reverse ++ [c]).filterMap f := by
  unfold cancelStep
  split
  · simp
  · next d rest =>
    split_ifs with hopposite
    · have hnone : f d = none ∧ f c = none := by
        rcases opposite_iff.1 hopposite with ⟨rfl, rfl⟩ | ⟨rfl, rfl⟩
        · exact ⟨h.left, h.right⟩
        · exact ⟨h.right, h.left⟩
      simp [hnone.1, hnone.2]
    · simp

theorem Lasting.filterMap_cancelTurns (h : Lasting f) (w : Word) :
    w.cancelTurns.filterMap f = w.filterMap f := by
  have hfold : ∀ done, (w.foldl cancelStep done).reverse.filterMap f =
      (done.reverse ++ w).filterMap f := by
    induction w with
    | nil => simp
    | cons c w ih =>
      intro done
      rw [List.foldl_cons, ih, List.filterMap_append, h.filterMap_cancelStep,
        ← List.filterMap_append, List.append_assoc, List.singleton_append]
  simpa [cancelTurns] using hfold []

/-- Symbols and commands tell the same, and it lasts. -/
structure TellsSame (f : Char → Option β) (g : Command → Option β) : Prop extends Lasting f where
  command : ∀ e ∈ commandTable, g e.2 = f e.1
  opening : f '(' = none
  face : ∀ d, g (.face d) = none
  passed : ∀ c, g (.idle c) = none
  malformed : g .malformed = none

/-- The commands of a word tell what its symbols tell, up to a `(` that opens no heading. -/
theorem TellsSame.filterMap_commandsFrom (h : TellsSame f g) (position : ℕ) (w : Word) :
    ∃ lost, w.filterMap f = (commandsFrom position w).filterMap (g ·.command) ++ lost ∧
      ((∀ i ∈ commandsFrom position w, i.command ≠ .malformed) → lost = []) := by
  induction position, w using reading_induction with
  | nil => exact ⟨[], by simp, fun _ => rfl⟩
  | command position c rest command hc ih =>
    obtain ⟨lost, heq, hlost⟩ := ih
    have hsame : g command = f c := of_command? (P := fun c command => g command = f c) h.command hc
    refine ⟨lost, ?_, fun hok => hlost fun i hi => ?_⟩
    · rw [commandsFrom_command hc]
      cases hf : f c <;> simp [hsame, hf, heq]
    · rw [commandsFrom_command hc] at hok
      exact hok i (List.mem_cons_of_mem _ hi)
  | heading position literal tail d hliteral hread ih =>
    -- The text of a heading is skipped, and tells nothing.
    obtain ⟨lost, heq, hlost⟩ := ih
    have hclose : f ')' = none := h.idle _ rfl
    refine ⟨lost, ?_, fun hok => hlost fun i hi => ?_⟩
    · rw [commandsFrom_heading hliteral hread, List.filterMap_cons_none h.opening,
        List.filterMap_append, h.filterMap_literal hliteral, List.filterMap_cons_none hclose, heq]
      simp [h.face d]
    · rw [commandsFrom_heading hliteral hread] at hok
      exact hok i (List.mem_cons_of_mem _ hi)
  | malformed position rest hlit =>
    -- What is not read is lost.
    refine ⟨('(' :: rest).filterMap f, ?_, fun hok => ?_⟩
    · rw [commandsFrom_malformed hlit]
      simp [h.malformed]
    · rw [commandsFrom_malformed hlit] at hok
      exact absurd rfl (hok _ List.mem_cons_self)
  | idle position c rest hc ih =>
    -- A variable is taken out of the rest of the word, which tells the same without it.
    obtain ⟨lost, heq, hlost⟩ := ih
    refine ⟨lost, ?_, fun hok => hlost fun i hi => ?_⟩
    · rw [List.filterMap_cons_none (h.idle c hc), ← filterMap_without (h.idle c hc), heq,
        commandsFrom_variable hc]
      simp [h.passed c]
    · rw [commandsFrom_variable hc] at hok
      exact hok i (List.mem_cons_of_mem _ hi)

end

/-! ## Braces -/

/-- Whether a symbol is a mark of polygons. -/
def isBrace (c : Char) : Bool := c = '{' ∨ c = '}'

/-- The braces of a word, in order. -/
def braces (w : Word) : Word := w.filter isBrace

/-- The brace that a command stands for. -/
def Command.brace? : Command → Option Char
  | .beginPolygon => some '{'
  | .endPolygon => some '}'
  | _ => none

/-- The braces that commands stand for, in order. -/
def marks (l : List Instruction) : Word := l.filterMap (·.command.brace?)

@[simp] theorem braces_append (u v : Word) : braces (u ++ v) = braces u ++ braces v :=
  List.filter_append ..

theorem braces_cons (c : Char) (w : Word) :
    braces (c :: w) = (if isBrace c then [c] else []) ++ braces w := by
  by_cases h : isBrace c <;> simp [braces, h]

theorem braces_eq_nil {w : Word} (h : ∀ c ∈ w, ¬ isBrace c) : braces w = [] :=
  List.filter_eq_nil_iff.2 h

theorem braces_eq_filterMap (w : Word) : braces w = w.filterMap (Option.guard isBrace) := by
  rw [braces, ← List.filterMap_eq_filter]

theorem lasting_brace : Lasting (Option.guard isBrace) := by
  refine lasting_guard (by decide) (by decide) fun c hc => ?_
  simp only [isBrace, decide_eq_true_eq] at hc
  rcases hc with rfl | rfl <;> decide

theorem tellsSame_brace : TellsSame (Option.guard isBrace) Command.brace? where
  toLasting := lasting_brace
  command := by decide
  opening := rfl
  face _ := rfl
  passed _ := rfl
  malformed := rfl

theorem braces_cancelTurns (w : Word) : braces w.cancelTurns = braces w := by
  rw [braces_eq_filterMap, braces_eq_filterMap, lasting_brace.filterMap_cancelTurns]

/-- The commands of a word stand for its braces, up to a `(` that opens no heading. -/
theorem braces_eq_marks (position : ℕ) (w : Word) :
    ∃ lost, braces w = marks (commandsFrom position w) ++ lost ∧
      ((∀ i ∈ commandsFrom position w, i.command ≠ .malformed) → lost = []) := by
  rw [braces_eq_filterMap]
  exact tellsSame_brace.filterMap_commandsFrom position w

end Lindenmayer

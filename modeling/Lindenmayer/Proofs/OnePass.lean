import Lindenmayer.Canvas.Layout
import Lindenmayer.Proofs.Composition

/-!
# Words walked in one pass

A turtle may edit the word it walks over. When it meets a variable, it takes the variable out
of what is left of the word, stays where it is, and looks again at what stands there now
(`Editing.loop`). Or it may leave the word as it is, keep in mind which variables it has met,
and not see them any more (`onePassFrom`): neither where they stand on their own, nor in a
heading, nor a `)` that has been met outside of one. Then each symbol is looked at once, and
positions count the symbols that are seen.

Both ways carry out the commands of the word, and so they come to the same
(`compile_eq_onePass`):

* `onePassFrom_eq`: what is seen of the rest of a word is what is left of it after the
  variables met so far are taken out;
* `Editing.loop_eq_foldlM`: the buffer is what has been walked over, as long as the cursor, and
  what is left of the word. An iteration takes at least one symbol off that, also where the
  cursor stays, so there are no more iterations than symbols.
-/

namespace Lindenmayer

open Word

variable {σ : Type}

/-! ## One pass over a word that stays as it is -/

/-- Carries out the commands of a word whose first symbol in sight has the given position.
    The variables `met` so far are not seen. Inside a heading, `literal` is what has been seen
    of it. -/
def onePassFrom (step : σ → Instruction → Except Error σ) (met : List Char) (position : ℕ)
    (literal : Option Word) (s : σ) : Word → Except Error σ
  | [] => if literal.isSome then .error (.configuration .malformedHeading) else .ok s
  | c :: rest =>
    if met.contains c then
      onePassFrom step met position literal s rest
    else
      match literal with
      | some symbols =>
        if c = ')' then
          match Decimal.read? symbols with
          | some d => do
            let s ← step s ⟨position, .face d⟩
            onePassFrom step met (position + symbols.length + 2) none s rest
          | none => .error (.configuration .malformedHeading)
        else if isHeadingSymbol c then
          onePassFrom step met position (some (symbols ++ [c])) s rest
        else
          .error (.configuration .malformedHeading)
      | none =>
        match (Op.ofSymbol c).command? with
        | some command => do
          let s ← step s ⟨position, command⟩
          onePassFrom step met (position + 1) none s rest
        | none =>
          if c = '(' then onePassFrom step met position (some []) s rest
          else onePassFrom step (c :: met) position none s rest

/-- Carries out the commands of a word in one pass over it, after opposite turns are
    cancelled. -/
def onePass (step : σ → Instruction → Except Error σ) (s : σ) (w : Word) : Except Error σ :=
  onePassFrom step [] 0 none s w.cancelTurns

/-! ## The loop over a word that is edited -/

/-- A walk over a word that is edited on the way. -/
structure Editing (σ : Type) where
  buffer : Word
  cursor : ℕ
  state : σ

/-- An iteration, on the symbol under the cursor. A variable is taken out of the buffer from
    there on, and the cursor stays. -/
def Editing.iterate (step : σ → Instruction → Except Error σ) (e : Editing σ) (c : Char) :
    Except Error (Editing σ) :=
  match (Op.ofSymbol c).command? with
  | some command => do
    let s ← step e.state ⟨e.cursor, command⟩
    return ⟨e.buffer, e.cursor + 1, s⟩
  | none =>
    if c = '(' then do
      let (d, close) ← headingAt e.buffer e.cursor
      let s ← step e.state ⟨e.cursor, .face d⟩
      return ⟨e.buffer, close + 1, s⟩
    else
      return ⟨e.buffer.withoutFrom e.cursor c, e.cursor, e.state⟩

/-- Iterates until the cursor is behind the buffer, or until there is an error; `none` if
    this takes more than `budget` iterations. -/
def Editing.loop (step : σ → Instruction → Except Error σ) (budget : ℕ) (e : Editing σ) :
    Option (Except Error σ) :=
  match e.buffer[e.cursor]? with
  | none => some (.ok e.state)
  | some c =>
    match budget with
    | 0 => none
    | budget + 1 =>
      match e.iterate step c with
      | .error err => some (.error err)
      | .ok e => loop step budget e

/-! ## Both carry out the commands of the word -/

/-- A step that passes variables by and cannot carry out a `(` that opens no heading. -/
structure Attends (step : σ → Instruction → Except Error σ) : Prop where
  idle : ∀ s position c, step s ⟨position, .idle c⟩ = .ok s
  malformed : ∀ s position,
    step s ⟨position, .malformed⟩ = .error (.configuration .malformedHeading)

/-- What is seen of a word when some symbols are not seen. -/
def visible (met : List Char) (w : Word) : Word := w.filter (!met.contains ·)

variable {step : σ → Instruction → Except Error σ} {met : List Char} {c : Char} {w : Word}

theorem visible_cons_of_mem (h : met.contains c = true) (w : Word) :
    visible met (c :: w) = visible met w := by
  rw [visible, List.filter_cons_of_neg (by simpa using h), visible]

theorem visible_cons_of_not_mem (h : ¬ met.contains c = true) (w : Word) :
    visible met (c :: w) = c :: visible met w := by
  rw [visible, List.filter_cons_of_pos (by simpa using h), visible]

/-- To have met one more symbol is to take it out of what is seen. -/
theorem visible_cons (c : Char) (met : List Char) (w : Word) :
    visible (c :: met) w = without c (visible met w) := by
  rw [visible, visible, without, List.filter_filter]
  refine List.filter_congr fun e _ => ?_
  rw [List.contains_cons, Bool.not_or]
  rfl

theorem foldlM_commandsFrom_malformed (h : Attends step) (position : ℕ) (s : σ) {rest : Word}
    (hrest : headingLiteral? rest = none) :
    (commandsFrom position ('(' :: rest)).foldlM step s =
      .error (.configuration .malformedHeading) := by
  rw [commandsFrom_malformed hrest, foldlM_cons_error (h.malformed s position)]

/-- What is seen of the rest of a word is read as the commands of what is left of it, and as
    part of a heading inside one. -/
theorem onePassFrom_eq (h : Attends step) (met : List Char) (position : ℕ) (s : σ) (w : Word) :
    onePassFrom step met position none s w =
        (commandsFrom position (visible met w)).foldlM step s ∧
      ∀ literal : Word, (∀ c ∈ literal, isHeadingSymbol c) →
        onePassFrom step met position (some literal) s w =
          (commandsFrom position ('(' :: (literal ++ visible met w))).foldlM step s := by
  induction w generalizing met position s with
  | nil =>
    refine ⟨by simp [onePassFrom, visible]; rfl, fun literal hliteral => ?_⟩
    rw [foldlM_commandsFrom_malformed h _ _
      (headingLiteral?_eq_none hliteral (visible met []) (by simp [visible]))]
    rfl
  | cons c w ih =>
    by_cases hmet : met.contains c = true
    · simp only [onePassFrom, hmet, if_true, visible_cons_of_mem hmet]
      exact ih met position s
    simp only [onePassFrom, if_neg hmet, visible_cons_of_not_mem hmet]
    refine ⟨?_, fun literal hliteral => ?_⟩
    -- A symbol outside a heading, and one inside, which ends it, goes on with it or spoils it.
    · cases hcommand : (Op.ofSymbol c).command? with
      | some command =>
        rw [commandsFrom_command hcommand, List.foldlM_cons]
        exact congrArg _ (funext fun s => (ih met _ s).1)
      | none =>
        by_cases hopen : c = '('
        · subst hopen
          exact (ih met position s).2 [] (by simp)
        · obtain ⟨command, hc⟩ | hvariable := command?_or_variable hopen
          · rw [hc] at hcommand
            cases hcommand
          · rw [commandsFrom_variable hvariable, foldlM_cons_ok (h.idle s position c),
              ← visible_cons]
            simpa [hopen] using (ih (c :: met) position s).1
    · by_cases hclose : c = ')'
      · subst hclose
        cases hread : Decimal.read? literal with
        | none =>
          have hnone : headingLiteral? (literal ++ ')' :: visible met w) = none := by
            rw [headingLiteral?_closed hliteral, hread]
            rfl
          rw [foldlM_commandsFrom_malformed h _ _ hnone]
          rfl
        | some d =>
          rw [commandsFrom_heading hliteral hread, List.foldlM_cons]
          exact congrArg _ (funext fun s => (ih met _ s).1)
      · by_cases hsymbol : isHeadingSymbol c
        · have hmore := (ih met position s).2 (literal ++ [c])
            (List.forall_mem_append.2 ⟨hliteral, List.forall_mem_singleton.2 hsymbol⟩)
          simpa [hclose, hsymbol] using hmore
        · have hnone := headingLiteral?_eq_none hliteral (c :: visible met w)
            (by simp [hclose, hsymbol])
          rw [foldlM_commandsFrom_malformed h _ _ hnone]
          simp [hclose, hsymbol]

theorem onePass_eq_foldlM (h : Attends step) (s : σ) (w : Word) :
    onePass step s w = (commands w).foldlM step s := by
  have hall : visible [] w.cancelTurns = w.cancelTurns := by simp [visible]
  rw [onePass, (onePassFrom_eq h [] 0 s _).1, hall]
  rfl

/-! ### Iterations -/

namespace Editing

section

variable {front rest : Word} {budget : ℕ} {s : σ} {e : Editing σ} {err : Error}

theorem iterate_command {command : Command} (hc : (Op.ofSymbol c).command? = some command)
    (e : Editing σ) : e.iterate step c =
      (step e.state ⟨e.cursor, command⟩).map fun s => ⟨e.buffer, e.cursor + 1, s⟩ := by
  rw [iterate, hc]
  rfl

theorem iterate_heading {d : Decimal} {close : ℕ}
    (h : headingAt e.buffer e.cursor = .ok (d, close)) : e.iterate step '(' =
      (step e.state ⟨e.cursor, .face d⟩).map fun s => ⟨e.buffer, close + 1, s⟩ := by
  rw [iterate, h]
  rfl

theorem iterate_malformed (h : headingAt e.buffer e.cursor = .error err) :
    e.iterate step '(' = .error err := by
  rw [iterate, h]
  rfl

theorem iterate_variable (hc : Op.ofSymbol c = .variable) (front rest : Word) (s : σ) :
    iterate step ⟨front ++ c :: rest, front.length, s⟩ c =
      .ok ⟨front ++ without c rest, front.length, s⟩ := by
  have hstrip : (front ++ c :: rest).withoutFrom front.length c = front ++ without c rest := by
    simp [withoutFrom, without]
  simp only [iterate, hc, Op.command?, if_neg (ne_open_of_variable hc), hstrip]
  rfl

theorem loop_nil (front : Word) (budget : ℕ) (s : σ) :
    loop step budget ⟨front ++ [], front.length, s⟩ = some (.ok s) := by
  rw [loop.eq_def]
  simp

theorem loop_of_iterate_ok
    (h : iterate step ⟨front ++ c :: rest, front.length, s⟩ c = .ok e) :
    loop step (budget + 1) ⟨front ++ c :: rest, front.length, s⟩ = loop step budget e := by
  rw [loop.eq_def]
  simp [h]

theorem loop_of_iterate_error
    (h : iterate step ⟨front ++ c :: rest, front.length, s⟩ c = .error err) :
    loop step (budget + 1) ⟨front ++ c :: rest, front.length, s⟩ = some (.error err) := by
  rw [loop.eq_def]
  simp [h]

/-- An iteration that carries out an instruction, in front of a loop that carries out the
    others. -/
theorem loop_of_iterate_step {i : Instruction} {l : List Instruction} {next : σ → Editing σ}
    (h : iterate step ⟨front ++ c :: rest, front.length, s⟩ c = (step s i).map next)
    (hnext : ∀ s, loop step budget (next s) = some (l.foldlM step s)) :
    loop step (budget + 1) ⟨front ++ c :: rest, front.length, s⟩ =
      some ((i :: l).foldlM step s) := by
  cases hstep : step s i with
  | error err =>
    rw [hstep] at h
    rw [loop_of_iterate_error h, foldlM_cons_error hstep]
  | ok s' =>
    rw [hstep] at h
    rw [loop_of_iterate_ok h, foldlM_cons_ok hstep, hnext]

end

/-- The loop carries out the commands of what is left of the word, with no more iterations
    than that has symbols. -/
theorem loop_eq_foldlM (h : Attends step) (position : ℕ) (rest : Word) :
    ∀ front : Word, front.length = position → ∀ budget, rest.length ≤ budget → ∀ s,
      loop step budget ⟨front ++ rest, position, s⟩ =
        some ((commandsFrom position rest).foldlM step s) := by
  -- The buffer is what has been walked over, as long as the cursor, and what is left.
  induction position, rest using reading_induction with
  | nil position =>
    rintro front rfl budget - s
    rw [loop_nil, commandsFrom_nil]
    rfl
  | command position c rest command hc ih =>
    rintro front rfl budget hbudget s
    obtain ⟨budget, rfl⟩ := Nat.exists_eq_add_of_le' (Nat.one_le_of_lt hbudget)
    rw [commandsFrom_command hc]
    refine loop_of_iterate_step (iterate_command hc _) fun s => ?_
    simpa using ih (front ++ [c]) (by simp) budget (Nat.le_of_succ_le_succ hbudget) s
  | heading position literal tail d hliteral hread ih =>
    rintro front rfl budget hbudget s
    obtain ⟨budget, rfl⟩ := Nat.exists_eq_add_of_le' (Nat.one_le_of_lt hbudget)
    have hlit := headingLiteral?_append hliteral hread tail
    have hparse : headingAt (front ++ '(' :: (literal ++ ')' :: tail)) front.length =
        .ok (d, front.length + literal.length + 1) :=
      headingAt_eq_ok_iff.2 ⟨literal.length, by simpa using hlit, by omega⟩
    have htail : tail.length ≤ budget := by
      simp only [List.length_cons, List.length_append] at hbudget
      omega
    rw [commandsFrom_heading hliteral hread]
    refine loop_of_iterate_step (iterate_heading hparse) fun s => ?_
    simpa using ih (front ++ '(' :: (literal ++ [')'])) (by simp; omega) budget htail s
  | malformed position rest hlit =>
    rintro front rfl budget hbudget s
    obtain ⟨budget, rfl⟩ := Nat.exists_eq_add_of_le' (Nat.one_le_of_lt hbudget)
    rw [foldlM_commandsFrom_malformed h _ _ hlit]
    refine loop_of_iterate_error (iterate_malformed ?_)
    simp [headingAt, headingFrom, hlit]
  | idle position c rest hc ih =>
    rintro front rfl budget hbudget s
    obtain ⟨budget, rfl⟩ := Nat.exists_eq_add_of_le' (Nat.one_le_of_lt hbudget)
    rw [commandsFrom_variable hc, foldlM_cons_ok (h.idle s _ c),
      loop_of_iterate_ok (iterate_variable hc front rest s)]
    exact ih front rfl budget
      ((length_without_le c rest).trans (Nat.le_of_succ_le_succ hbudget)) s

end Editing

/-- A word that is edited on the way is walked over in no more iterations than it has symbols,
    and comes to what one pass over it comes to. -/
theorem loop_eq_onePass (h : Attends step) (s : σ) (w : Word) :
    Editing.loop step w.cancelTurns.length ⟨w.cancelTurns, 0, s⟩ = some (onePass step s w) := by
  rw [onePass_eq_foldlM h]
  exact Editing.loop_eq_foldlM h 0 w.cancelTurns [] rfl _ le_rfl s

/-! ## Drawings and dry runs -/

variable {η κ : Type} [Heading η] [Coordinate κ] {unit : η → Point κ} {angle : η}

theorem Recording.attends : Attends (Recording.step unit angle) where
  idle r _ _ := r.step_idle (by simp [Instruction.acts])
  malformed _ _ := rfl

theorem Excursion.attends : Attends (Excursion.step unit angle) where
  idle _ _ _ := rfl
  malformed _ _ := rfl

/-- The drawing of a word, by one pass over it. -/
def compileOnce (unit : η → Point κ) (w : Word) (originX : κ) (angle : η) :
    Except Error (Drawing κ) :=
  if w.isEmpty then .error (.configuration .emptyWord)
  else if Heading.isZero angle then .error (.configuration .zeroAngle)
  else do
    let start : Point κ := ⟨originX, Coordinate.ofInt 0⟩
    let r ← onePass (Recording.step unit angle) (.start start) w
    if r.polygonOpen then .error (.configuration .polygonNotClosed)
    else return ⟨r.primitives.reverse, Drawing.bounds start r.primitives.reverse, originX⟩

/-- The least `x` of a walk over a word from the origin, by one pass over it. -/
def excursionOnce (unit : η → Point κ) (w : Word) (angle : η) : Except Error κ := do
  let start : Excursion η κ := ⟨.ofTurtle (.facingEast Point.origin), Coordinate.ofInt 0⟩
  let e ← onePass (Excursion.step unit angle) start w
  return e.xMin

/-- To take variables out of a word on the way is to pass once over the word as it is and to
    see none that has been met before. The drawing or the error is the same, with its
    position, and so is that of a dry run. The loop over the word that is edited comes to an
    end after no more iterations than the word has symbols, with the outcome of the one
    pass. -/
theorem compile_eq_onePass (unit : η → Point κ) (w : Word) (originX : κ) (angle : η) :
    compile unit w originX angle = compileOnce unit w originX angle ∧
    leftmostExcursion unit w angle = excursionOnce unit w angle ∧
    (∀ r : Recording η κ,
      Editing.loop (Recording.step unit angle) w.cancelTurns.length ⟨w.cancelTurns, 0, r⟩ =
        some (onePass (Recording.step unit angle) r w)) ∧
    (∀ e : Excursion η κ,
      Editing.loop (Excursion.step unit angle) w.cancelTurns.length ⟨w.cancelTurns, 0, e⟩ =
        some (onePass (Excursion.step unit angle) e w)) := by
  refine ⟨?_, ?_, fun r => loop_eq_onePass Recording.attends r w,
    fun e => loop_eq_onePass Excursion.attends e w⟩
  · rw [compile, compileOnce]
    split_ifs with hempty hzero
    · rfl
    · rfl
    · simp only [onePass_eq_foldlM Recording.attends, Recording.run]
      cases (commands w).foldlM (Recording.step unit angle) (.start ⟨originX, _⟩) <;> rfl
  · simp only [leftmostExcursion, excursionOnce, onePass_eq_foldlM Excursion.attends]
    cases (commands w).foldlM (Excursion.step unit angle) ⟨_, _⟩ <;> rfl

/-- A `)` that stands outside a heading is not seen any more, and so no heading ends. -/
example : compileOnce floatStep [')', '(', '9', ')'] 0 90 =
    .error (.configuration .malformedHeading) := by
  decide +kernel

end Lindenmayer

import Lindenmayer.Proofs.Walk

/-!
# The stream of a turtle

A word is read in two ways. The turtle takes a variable out of the rest of the word when
it first meets it (`commands`). Read as it stands (`readFrom`), the word stays as it is,
and a variable is passed by.

What the turtle takes out can be taken out beforehand: what remains of a word is its
*stream* (`stream`), and the turtle acts on the word as it would on the stream read as it
stands (`filter_acts_commands`), with the same positions. So a walk over a word is a walk
over its stream (`compile_eq_draw`), in which nothing moves any more.
-/

namespace Lindenmayer

open Word

/-! ## Reading a word as it stands -/

/-- The commands of a word whose first symbol has the given position, with every symbol
    where it stands. A variable is passed by, and a `(` that opens no heading ends the
    list. -/
def readFrom (position : ℕ) : Word → List Instruction
  | [] => []
  | c :: rest =>
    match (Op.ofSymbol c).command? with
    | some command => ⟨position, command⟩ :: readFrom (position + 1) rest
    | none =>
      if c = '(' then
        match headingLiteral? rest with
        | some (d, length) =>
          ⟨position, .face d⟩ :: readFrom (position + length + 2) (rest.drop (length + 1))
        | none => [⟨position, .malformed⟩]
      else
        readFrom (position + 1) rest
termination_by w => w.length
decreasing_by
  · exact Nat.lt_succ_self _
  · exact Nat.lt_succ_of_le (List.length_drop ▸ Nat.sub_le _ _)
  · exact Nat.lt_succ_self _

variable {position : ℕ} {c : Char} {rest literal tail : Word} {d : Decimal}

theorem ne_open_of_command? {command : Command}
    (h : (Op.ofSymbol c).command? = some command) : c ≠ '(' := by
  rintro rfl
  cases h

theorem ne_open_of_variable (h : Op.ofSymbol c = .variable) : c ≠ '(' := by
  rintro rfl
  cases h

@[simp] theorem readFrom_nil (position : ℕ) : readFrom position [] = [] := by
  rw [readFrom]

theorem readFrom_command {command : Command} (h : (Op.ofSymbol c).command? = some command) :
    readFrom position (c :: rest) = ⟨position, command⟩ :: readFrom (position + 1) rest := by
  rw [readFrom, h]

theorem readFrom_variable (h : Op.ofSymbol c = .variable) :
    readFrom position (c :: rest) = readFrom (position + 1) rest := by
  rw [readFrom, h]
  simp [Op.command?, ne_open_of_variable h]

theorem readFrom_heading (hliteral : ∀ c ∈ literal, isHeadingSymbol c)
    (hread : Decimal.read? literal = some d) :
    readFrom position ('(' :: (literal ++ ')' :: tail)) =
      ⟨position, .face d⟩ :: readFrom (position + literal.length + 2) tail := by
  have hlit := headingLiteral?_append hliteral hread tail
  rw [readFrom]
  simp [Op.ofSymbol, Op.command?, hlit]

theorem readFrom_malformed (h : headingLiteral? rest = none) :
    readFrom position ('(' :: rest) = [⟨position, .malformed⟩] := by
  rw [readFrom]
  simp [Op.ofSymbol, Op.command?, h]

/-- Induction along the reading of a word as it stands. -/
theorem readFrom_induction {P : ℕ → Word → Prop} (nil : ∀ position, P position [])
    (command : ∀ position c rest command, (Op.ofSymbol c).command? = some command →
      P (position + 1) rest → P position (c :: rest))
    (heading : ∀ position literal tail d, (∀ c ∈ literal, isHeadingSymbol c) →
      Decimal.read? literal = some d → P (position + literal.length + 2) tail →
      P position ('(' :: (literal ++ ')' :: tail)))
    (malformed : ∀ position rest, headingLiteral? rest = none → P position ('(' :: rest))
    (skip : ∀ position c rest, Op.ofSymbol c = .variable → P (position + 1) rest →
      P position (c :: rest))
    (position : ℕ) (w : Word) : P position w := by
  fun_induction readFrom position w with
  | case1 position => exact nil position
  | case2 position c rest cmd h ih => exact command _ _ _ cmd h ih
  | case3 position rest d length hlit _ ih =>
    obtain ⟨literal, tail, rfl, rfl, hliteral, hread⟩ := headingLiteral?_eq_some hlit
    have hdrop : (literal ++ ')' :: tail).drop (literal.length + 1) = tail := by simp
    exact heading _ _ _ d hliteral hread (hdrop ▸ ih)
  | case4 position rest hlit => exact malformed _ _ hlit
  | case5 position c rest h hc ih =>
    refine skip _ _ _ ?_ ih
    cases hop : Op.ofSymbol c <;> simp only [hop, Op.command?, reduceCtorEq] at h
    · exact absurd (ofSymbol_eq_setHeading.1 hop) hc
    · rfl

/-! ## Streams -/

/-- The word without the variables that are met in it: each is taken out from where it is
    first met on, also out of headings further on. What follows a `(` that opens no
    heading stays as it is, since nothing is met there. -/
def streamFrom : Word → Word
  | [] => []
  | c :: rest =>
    if c = '(' then
      match headingLiteral? rest with
      | some (_, length) => c :: (rest.take (length + 1) ++ streamFrom (rest.drop (length + 1)))
      | none => c :: rest
    else if Op.ofSymbol c = .variable then
      streamFrom (without c rest)
    else
      c :: streamFrom rest
termination_by w => w.length
decreasing_by
  · exact Nat.lt_succ_of_le (List.length_drop ▸ Nat.sub_le _ _)
  · exact Nat.lt_succ_of_le (length_without_le c rest)
  · exact Nat.lt_succ_self _

/-- The stream of a word: the symbols that the turtle acts on, after opposite turns are
    cancelled and variables are taken out. -/
def stream (w : Word) : Word := streamFrom w.cancelTurns

@[simp] theorem streamFrom_nil : streamFrom [] = [] := by
  rw [streamFrom]

theorem streamFrom_command {command : Command} (h : (Op.ofSymbol c).command? = some command) :
    streamFrom (c :: rest) = c :: streamFrom rest := by
  have hop : Op.ofSymbol c ≠ .variable := by
    intro hop
    rw [hop] at h
    cases h
  rw [streamFrom, if_neg (ne_open_of_command? h), if_neg hop]

theorem streamFrom_variable (h : Op.ofSymbol c = .variable) :
    streamFrom (c :: rest) = streamFrom (without c rest) := by
  rw [streamFrom, if_neg (ne_open_of_variable h), if_pos h]

theorem streamFrom_heading (hliteral : ∀ c ∈ literal, isHeadingSymbol c)
    (hread : Decimal.read? literal = some d) :
    streamFrom ('(' :: (literal ++ ')' :: tail)) = '(' :: (literal ++ ')' :: streamFrom tail) := by
  have hlit := headingLiteral?_append hliteral hread tail
  have htake : (literal ++ ')' :: tail).take (literal.length + 1) = literal ++ [')'] :=
    List.take_length_add_append 1
  rw [streamFrom]
  simp [hlit, htake]

theorem streamFrom_malformed (h : headingLiteral? rest = none) :
    streamFrom ('(' :: rest) = '(' :: rest := by
  rw [streamFrom]
  simp [h]

/-- What lasts is told by the stream of a word as by the word. -/
theorem Lasting.filterMap_streamFrom {β : Type} {f : Char → Option β} (h : Lasting f) (w : Word) :
    (streamFrom w).filterMap f = w.filterMap f := by
  induction 0, w using reading_induction with
  | nil => simp
  | command _ c rest command hc ih => rw [streamFrom_command hc, List.filterMap_cons,
      List.filterMap_cons, ih]
  | heading _ literal tail d hliteral hread ih =>
    rw [streamFrom_heading hliteral hread]
    simp [List.filterMap_cons, ih]
  | malformed _ rest hlit => rw [streamFrom_malformed hlit]
  | idle _ c rest hc ih =>
    rw [streamFrom_variable hc, ih, filterMap_without (h.idle c hc),
      List.filterMap_cons_none (h.idle c hc)]

theorem Lasting.filterMap_stream {β : Type} {f : Char → Option β} (h : Lasting f) (w : Word) :
    (stream w).filterMap f = w.filterMap f := by
  rw [stream, h.filterMap_streamFrom, h.filterMap_cancelTurns]

theorem filter_stream {p : Char → Bool} (h : Lasting (Option.guard p)) (w : Word) :
    (stream w).filter p = w.filter p := by
  rw [← List.filterMap_eq_filter, h.filterMap_stream]

theorem braces_stream (w : Word) : braces (stream w) = braces w := filter_stream lasting_brace w

/-! ## The turtle on a stream -/

/-- Whether an instruction does anything. -/
def Instruction.acts (i : Instruction) : Bool :=
  match i.command with
  | .idle _ => false
  | _ => true

theorem acts_of_command? {command : Command} (h : (Op.ofSymbol c).command? = some command) :
    Instruction.acts ⟨position, command⟩ :=
  of_command? (P := fun _ command => Instruction.acts ⟨position, command⟩ = true)
    (by simp [commandTable, Instruction.acts]) h

/-- The turtle acts on a word as on its stream, and at the positions of the stream. -/
theorem filter_acts_commandsFrom (position : ℕ) (w : Word) :
    (commandsFrom position w).filter Instruction.acts = readFrom position (streamFrom w) := by
  induction position, w using reading_induction with
  | nil position => simp
  | command position c rest command h ih =>
    rw [commandsFrom_command h, streamFrom_command h, readFrom_command h, ← ih,
      List.filter_cons_of_pos (acts_of_command? h)]
  | heading position literal tail d hliteral hread ih =>
    rw [commandsFrom_heading hliteral hread, streamFrom_heading hliteral hread,
      readFrom_heading hliteral hread, ← ih]
    rfl
  | malformed position rest h =>
    rw [commandsFrom_malformed h, streamFrom_malformed h, readFrom_malformed h]
    rfl
  | idle position c rest h ih =>
    rw [commandsFrom_variable h, streamFrom_variable h, ← ih]
    rfl

theorem filter_acts_commands (w : Word) :
    (commands w).filter Instruction.acts = readFrom 0 (stream w) :=
  filter_acts_commandsFrom 0 w.cancelTurns

variable {η κ : Type} [Heading η] [Coordinate κ] {unit : η → Point κ} {angle : η}

theorem Recording.step_idle (r : Recording η κ) {i : Instruction} (h : ¬ i.acts) :
    r.step unit angle i = .ok r := by
  cases hc : i.command <;> simp_all [Instruction.acts, step, Walker.step, trace?]

theorem Recording.run_filter_acts (r : Recording η κ) (l : List Instruction) :
    r.run unit angle (l.filter Instruction.acts) = r.run unit angle l := by
  induction l generalizing r with
  | nil => rfl
  | cons i l ih =>
    by_cases h : i.acts
    · rw [List.filter_cons_of_pos h]
      cases hstep : r.step unit angle i with
      | error e => rw [run, run, foldlM_cons_error hstep, foldlM_cons_error hstep]
      | ok r' => rw [run, run, foldlM_cons_ok hstep, foldlM_cons_ok hstep]; exact ih r'
    · rw [List.filter_cons_of_neg h, ih, run, run, foldlM_cons_ok (r.step_idle h)]

/-- The drawing that commands leave, carried out from the point `(originX, 0)`. -/
def draw (unit : η → Point κ) (l : List Instruction) (originX : κ) (angle : η) :
    Except Error (Drawing κ) :=
  match Recording.run unit angle (.start ⟨originX, Coordinate.ofInt 0⟩) l with
  | .error e => .error e
  | .ok r =>
    if r.polygonOpen then
      .error (.configuration .polygonNotClosed)
    else
      .ok ⟨r.primitives.reverse,
        Drawing.bounds ⟨originX, Coordinate.ofInt 0⟩ r.primitives.reverse, originX⟩

/-- A word is drawn as its stream is, read as it stands. -/
theorem compile_eq_draw {w : Word} (hw : w ≠ []) (hangle : Heading.isZero angle = false)
    (originX : κ) :
    compile unit w originX angle = draw unit (readFrom 0 (stream w)) originX angle := by
  have hempty : ¬ w.isEmpty = true := by simpa using hw
  have hzero : ¬ Heading.isZero angle = true := by simp [hangle]
  rw [compile, draw, ← filter_acts_commands, Recording.run_filter_acts]
  exact (if_neg hempty).trans (if_neg hzero)

end Lindenmayer

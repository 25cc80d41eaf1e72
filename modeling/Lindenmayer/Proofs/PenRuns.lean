import Lindenmayer.Proofs.Plotter
import Lindenmayer.Proofs.SixPlaces
import Mathlib.Data.List.DropRight
import Mathlib.Data.List.SplitBy

/-!
# Reading pen commands back

Split at its semicolons (`pieces`), the text of the pen commands of a drawing is a list of
commands: moves with one pen, which list their points, and the commands of marks (`runs?`). Moves
that share a command come behind each other with the same pen, so what is read are the events that
were written, grouped by their pens (`Reads`).

The text of an event leaves a command open, and the text of the next one closes it or
goes on with it. What has been left open is followed through the text (`Pending`): a semicolon
closes it (`Pending.close`), and then it reads as the events that were written with it.

* `runs_penCommands`: the events of a drawing are read back, one command for each group of moves,
  with six decimal places.
-/

namespace Lindenmayer.Hpgl

/-! ## Events as they are written -/

/-- What the plotter is told, with the texts of the coordinates. -/
inductive WrittenEvent
  | move (pen : Pen) (target : WrittenPoint)
  | mark (mark : Mark)
  deriving DecidableEq

namespace WrittenEvent

/-- What a primitive is written as. Only a segment is drawn; a travel and the return from a branch
    move the pen without drawing. -/
def ofPrimitive : Primitive Float → WrittenEvent
  | .segment _ stop => .move .down (written stop)
  | .travel _ stop => .move .up (written stop)
  | .restore stop => .move .up (written stop)
  | .polygonBegin _ => .mark .polygonBegin
  | .polygonEnd => .mark .polygonEnd

/-- What a drawing is written as: the pen goes to where it starts, and then along its
    primitives. -/
def ofDrawing (d : Drawing Float) : List WrittenEvent :=
  .move .up (written ⟨d.originX, 0⟩) :: d.primitives.map ofPrimitive

def isMove : WrittenEvent → Bool
  | .move .. => true
  | .mark _ => false

/-- Whether two events are moves with the same pen. A mark is in a group of its own. -/
def samePen : WrittenEvent → WrittenEvent → Bool
  | .move pen _, .move pen' _ => pen = pen'
  | _, _ => false

theorem samePen_mark (e : WrittenEvent) (m : Mark) : samePen e (.mark m) = false := by
  cases e <;> rfl

/-- A mark is a group. -/
theorem splitBy_mark_cons (m : Mark) (events : List WrittenEvent) :
    (mark m :: events).splitBy samePen = [mark m] :: events.splitBy samePen := by
  refine List.splitBy_append (l := [mark m]) fun x hx y _ => ?_
  cases Option.mem_some_iff.1 hx
  rfl

/-- Moves with one pen are one group. -/
theorem splitBy_moves (pen : Pen) {points : List WrittenPoint} (h : points ≠ []) :
    (points.map (.move pen)).splitBy samePen = [points.map (.move pen)] := by
  refine List.splitBy_of_isChain (mt List.map_eq_nil_iff.1 h) ?_
  rw [List.isChain_map]
  exact (List.pairwise_of_forall fun _ _ => decide_eq_true rfl).isChain

end WrittenEvent

open WrittenEvent (samePen)

/-- An event as it is written. -/
def Event.written : Event → WrittenEvent
  | .move pen target => .move pen (Hpgl.written target)
  | .mark m => .mark m

theorem map_written_penEvents (d : Drawing Float) :
    (penEvents d).map Event.written = WrittenEvent.ofDrawing d := by
  have hprimitive : Event.written ∘ Event.ofPrimitive = WrittenEvent.ofPrimitive := by
    funext a
    cases a <;> rfl
  rw [penEvents, List.map_cons, List.map_map, hprimitive]
  rfl

/-! ## Reading commands -/

/-- Whether a character is a line break. -/
def isBreak (c : Char) : Bool := c = '\n'

/-- The commands of a text, without the line breaks around them. What is left empty is none. -/
def pieces (text : List Char) : List (List Char) :=
  ((text.splitOn ';').map fun s => (s.dropWhile isBreak).rdropWhile isBreak).filter (!·.isEmpty)

/-- Numbers two by two; `none` if one is left over. -/
def points? : List (List Char) → Option (List WrittenPoint)
  | [] => some []
  | [_] => none
  | x :: y :: rest => (points? rest).map ((x, y) :: ·)

/-- What commands are read as. -/
inductive PenRun
  /-- A command that moves one pen along points. -/
  | moves (pen : Pen) (points : List WrittenPoint)
  /-- The commands of a mark. -/
  | mark (mark : Mark)

namespace PenRun

/-- The pen that is moved. -/
def pen? : PenRun → Option Pen
  | moves pen _ => some pen
  | mark _ => none

/-- What has been written with the commands. -/
def events : PenRun → List WrittenEvent
  | moves pen points => points.map (.move pen)
  | mark m => [.mark m]

end PenRun

/-- Reads the arguments of a command that moves a pen. -/
def moves? (pen : Pen) (args : List Char) : Option PenRun :=
  (points? (args.splitOn ',')).map (.moves pen)

/-- Reads commands; `none` if there are any but those of moves and of marks. -/
def runs? : List (List Char) → Option (List PenRun)
  | [] => some []
  | ['P', 'M', '0'] :: rest => (runs? rest).map (.mark .polygonBegin :: ·)
  | ['P', 'M', '2'] :: ['E', 'P'] :: ['F', 'P'] :: rest =>
    (runs? rest).map (.mark .polygonEnd :: ·)
  | ('P' :: 'U' :: args) :: rest => do return (← moves? .up args) :: (← runs? rest)
  | ('P' :: 'D' :: args) :: rest => do return (← moves? .down args) :: (← runs? rest)
  | _ => none

/-- Whether a command moves a pen. -/
def isPenCommand (command : List Char) : Bool :=
  Pen.up.code.toList.isPrefixOf command || Pen.down.code.toList.isPrefixOf command

/-- The commands that move a pen are read one by one. -/
theorem countP_isPenCommand {commands : List (List Char)} {runs : List PenRun}
    (h : runs? commands = some runs) :
    commands.countP isPenCommand = runs.countP (·.pen?.isSome) := by
  fun_induction runs? commands generalizing runs with
  | case1 =>
    cases h
    rfl
  | case2 rest ih | case3 rest ih =>
    obtain ⟨runs, hruns, rfl⟩ := Option.map_eq_some_iff.1 h
    exact (ih hruns :)
  | case4 args rest ih | case5 args rest ih =>
    obtain ⟨r, hr, h⟩ := Option.bind_eq_some_iff.1 h
    obtain ⟨runs, hruns, h⟩ := Option.bind_eq_some_iff.1 h
    obtain ⟨points, -, rfl⟩ := Option.map_eq_some_iff.1 hr
    cases h
    rw [List.countP_cons, List.countP_cons, ih hruns]
    rfl
  | case6 => cases h

section pieces

theorem pieces_append (s t : List Char) : pieces (s ++ ';' :: t) = pieces s ++ pieces t := by
  rw [pieces, List.splitOn_append_cons_self, List.map_append, List.filter_append]
  rfl

variable {blank args : List Char} {points : List WrittenPoint}

/-- A command without its semicolon, behind line breaks. -/
theorem pieces_command (hblank : ∀ c ∈ blank, isBreak c) (pen : Pen)
    (hargs : ∀ c ∈ args, IsArg c) :
    pieces (blank ++ (pen.code.toList ++ args)) = [pen.code.toList ++ args] := by
  have hcode : ∀ c ∈ pen.code.toList, c ≠ ';' ∧ ¬ isBreak c := by
    cases pen <;> simp [Pen.code, isBreak]
  have hcommand : ∀ c ∈ pen.code.toList ++ args, c ≠ ';' ∧ ¬ isBreak c := by
    intro c hc
    rcases List.mem_append.1 hc with hc | hc
    · exact hcode c hc
    · have harg := hargs c hc
      refine ⟨?_, fun hbreak => ?_⟩
      · rintro rfl
        exact absurd harg (by decide)
      · obtain rfl : c = '\n' := of_decide_eq_true hbreak
        exact absurd harg (by decide)
  have hsemicolon : ';' ∉ blank ++ (pen.code.toList ++ args) := by
    intro h
    rcases List.mem_append.1 h with h | h
    · exact absurd (hblank _ h) (by decide)
    · exact (hcommand _ h).1 rfl
  have hstart : (pen.code.toList ++ args).dropWhile isBreak = pen.code.toList ++ args :=
    List.dropWhile_eq_self_iff.2 fun _ => (hcommand _ (List.getElem_mem _)).2
  have hend : (pen.code.toList ++ args).rdropWhile isBreak = pen.code.toList ++ args :=
    List.rdropWhile_eq_self_iff.2 fun h => (hcommand _ (List.getLast_mem h)).2
  rw [pieces, List.splitOn_eq_singleton hsemicolon, List.map_singleton,
    List.dropWhile_append_of_pos hblank, hstart, hend]
  cases pen <;> rfl

theorem points?_flatMap (points : List WrittenPoint) :
    points? (points.flatMap fun p => [p.1, p.2]) = some points := by
  induction points with
  | nil => rfl
  | cons p points ih => exact congrArg (Option.map (p :: ·)) ih

theorem runs?_command (pen : Pen) (hargs : Lists args points) (rest : List (List Char)) :
    runs? ((pen.code.toList ++ args) :: rest) = (runs? rest).map (.moves pen points :: ·) := by
  have hmoves : ∀ pen, (do return (← moves? pen args) :: (← runs? rest)) =
      (runs? rest).map (.moves pen points :: ·) := by
    intro pen
    rw [moves?, hargs, points?_flatMap]
    cases runs? rest <;> rfl
  cases pen with
  | up => exact hmoves .up
  | down => exact hmoves .down

/-- Between line breaks, the text of a mark is cut into the commands that are read as it. -/
theorem exists_pieces_mark (m : Mark) (text : List Char) :
    ∃ commands, pieces ('\n' :: (m.code.toList ++ '\n' :: text)) =
      commands ++ pieces ('\n' :: text) ∧
      ∀ rest, runs? (commands ++ rest) = (runs? rest).map (.mark m :: ·) := by
  cases m with
  | polygonBegin =>
    refine ⟨[['P', 'M', '0']], ?_, fun _ => rfl⟩
    exact pieces_append "\nPM0".toList _
  | polygonEnd =>
    refine ⟨[['P', 'M', '2'], ['E', 'P'], ['F', 'P']], ?_, fun _ => rfl⟩
    exact pieces_append "\nPM2;EP;FP".toList _

end pieces

/-! ## Reading the text of events -/

/-- A text reads as events, in the groups of those that share a command. -/
def Reads (text : List Char) (events : List WrittenEvent) : Prop :=
  ∃ runs, runs? (pieces text) = some runs ∧
    runs.map PenRun.events = events.splitBy samePen

theorem reads_nil : Reads [] [] :=
  ⟨[], rfl, rfl⟩

/-- The commands of a mark are read as the mark. -/
theorem Reads.mark {text : List Char} {events : List WrittenEvent} (h : Reads ('\n' :: text) events)
    (m : Mark) : Reads ('\n' :: (m.code.toList ++ '\n' :: text)) (.mark m :: events) := by
  obtain ⟨runs, hruns, hevents⟩ := h
  obtain ⟨commands, hcommands, hread⟩ := exists_pieces_mark m text
  refine ⟨.mark m :: runs, ?_, ?_⟩
  · rw [hcommands, hread, hruns]
    rfl
  · rw [List.map_cons, hevents, WrittenEvent.splitBy_mark_cons]
    rfl

/-- What the text of an event leaves open: nothing but line breaks, or a command with the
    moves that have been written with it. -/
inductive Pending : Option Event → List Char → List WrittenEvent → Prop
  | start : Pending none [] []
  | mark (m : Mark) : Pending (some (.mark m)) ['\n'] []
  | moves {pen : Pen} {target : Point Float} {blank args : List Char}
    {points : List WrittenPoint} : (∀ c ∈ blank, isBreak c) → (∀ c ∈ args, IsArg c) →
    Lists args points → points ≠ [] →
    Pending (some (.move pen target)) (blank ++ (pen.code.toList ++ args))
      (points.map (.move pen))

theorem pending_move {blank : List Char} (hblank : ∀ c ∈ blank, isBreak c) (pen : Pen)
    (target : Point Float) :
    Pending (some (.move pen target)) (blank ++ (pen.code.toList ++ (coordinates target).toList))
      [.move pen (written target)] :=
  .moves hblank (fun _ => isArg_of_mem_coordinates) (lists_coordinates target) (by simp)

variable {last : Option Event} {text : List Char} {opened : List WrittenEvent}

/-- A semicolon closes what is open. -/
theorem Pending.close (h : Pending last text opened) {rest : List Char}
    {events : List WrittenEvent} (hrest : Reads rest events)
    (hpen : ∀ x ∈ opened.getLast?, ∀ y ∈ events.head?, samePen x y = false) :
    Reads (text ++ ';' :: rest) (opened ++ events) := by
  obtain ⟨runs, hruns, hevents⟩ := hrest
  have hblank : ∀ s, pieces s = [] → Reads (s ++ ';' :: rest) events := by
    intro s hs
    exact ⟨runs, by rw [pieces_append, hs, List.nil_append, hruns], hevents⟩
  cases h with
  | start => exact hblank [] rfl
  | mark m => exact hblank ['\n'] rfl
  | @moves pen target blank args points hbreaks hargs hlists hpoints =>
    refine ⟨.moves pen points :: runs, ?_, ?_⟩
    · rw [pieces_append, pieces_command hbreaks pen hargs, List.singleton_append,
        runs?_command pen hlists, hruns]
      rfl
    · rw [List.splitBy_append hpen, WrittenEvent.splitBy_moves pen hpoints, List.map_cons,
        hevents]
      rfl

/-- The text of an event closes what is open or goes on with it. If what is behind reads well with
    what the event itself leaves open, then so does the whole. -/
theorem Pending.step (h : Pending last text opened) (e : Event) {behind : List Char}
    {events : List WrittenEvent}
    (hnext : ∀ {text opened}, Pending (some e) text opened →
      Reads (text ++ behind) (opened ++ events)) :
    Reads (text ++ ((e.text last).toList ++ behind)) (opened ++ e.written :: events) := by
  cases e with
  | mark m =>
    have hmark := h.close ((hnext (.mark m)).mark m) fun x _ y hy => by
      cases Option.mem_some_iff.1 hy
      exact WrittenEvent.samePen_mark x m
    simpa [Event.text, Event.written] using hmark
  | move pen target =>
    have hnew : ∀ blank : List Char, (∀ c ∈ blank, isBreak c) →
        Reads (blank ++ ((pen.code ++ coordinates target).toList ++ behind))
          (.move pen (written target) :: events) := by
      intro blank hblank
      have hmove := hnext (pending_move hblank pen target)
      rwa [List.append_assoc, ← String.toList_append] at hmove
    have hbreak : ∀ c ∈ ['\n'], isBreak c := fun c hc => decide_eq_true (List.mem_singleton.1 hc)
    cases h with
    | start => exact hnew [] (List.forall_mem_nil _)
    | mark m => exact hnew ['\n'] hbreak
    | @moves lastPen _ blank args points hblank hargs hlists hpoints =>
      by_cases hpen : lastPen = pen
      · -- The command goes on, with one point more.
        subst hpen
        have hmore : ∀ c ∈ args ++ ',' :: (coordinates target).toList, IsArg c := by
          intro c hc
          rcases List.mem_append.1 hc with hc | hc
          · exact hargs c hc
          · exact isArg_of_mem_next hc
        have hmoves := hnext (.moves hblank hmore (hlists.concat target) (by simp))
        simpa [Event.text, Event.written] using hmoves
      · -- The pen changes, so the command is closed and another one begins.
        have hopened : Pending (some (.move lastPen target)) _ _ :=
          .moves hblank hargs hlists hpoints
        have hclose := hopened.close (hnew ['\n'] hbreak) fun x hx y hy => by
          obtain ⟨p, -, rfl⟩ := List.mem_map.1 (List.mem_of_getLast? hx)
          cases Option.mem_some_iff.1 hy
          exact decide_eq_false hpen
        simpa [Event.text, Event.written, hpen] using hclose

/-- The text of events goes on behind what is open, up to the semicolon behind the last. -/
theorem Pending.reads (h : Pending last text opened) (events : List Event) :
    Reads (text ++ ((String.join (List.zipWith Event.text (last :: events.map some) events)).toList
      ++ [';'])) (opened ++ events.map Event.written) := by
  induction events generalizing last text opened with
  | nil => exact h.close reads_nil fun _ _ y hy => nomatch hy
  | cons e events ih =>
    rw [List.map_cons, List.map_cons, List.zipWith_cons_cons, String.join_cons,
      String.toList_append, List.append_assoc]
    exact h.step e fun hnext => ih hnext

theorem reads_penCommands (d : Drawing Float) :
    Reads (penCommands d).toList (WrittenEvent.ofDrawing d) := by
  have hreads := Pending.start.reads (penEvents d)
  rw [map_written_penEvents] at hreads
  rw [penCommands, String.toList_append]
  exact hreads

/-! ## Groups -/

/-- What is read from a group of moves is a command that moves a pen. -/
theorem countP_map_events (runs : List PenRun) :
    (runs.map PenRun.events).countP (·.all WrittenEvent.isMove) =
      runs.countP (·.pen?.isSome) := by
  rw [List.countP_map]
  refine List.countP_congr fun r _ => ?_
  cases r with
  | moves pen points => simp [PenRun.events, PenRun.pen?, WrittenEvent.isMove]
  | mark m => simp [PenRun.events, PenRun.pen?, WrittenEvent.isMove]

/-- Commands next to each other that are read from groups move different pens. -/
theorem isChain_pen_ne {runs : List PenRun} {events : List WrittenEvent}
    (h : runs.map PenRun.events = events.splitBy samePen) :
    runs.IsChain fun r s => ∀ p ∈ r.pen?, ∀ q ∈ s.pen?, p ≠ q := by
  have hgroups := List.isChain_getLast_head_splitBy samePen events
  rw [← h, List.isChain_map] at hgroups
  refine hgroups.imp fun r s hrs p hp q hq => ?_
  obtain ⟨hr, hs, hpen⟩ := hrs
  cases r with
  | mark m => cases hp
  | moves pen points =>
    cases s with
    | mark m => cases hq
    | moves pen' points' =>
      cases hp
      cases hq
      simpa [PenRun.events, samePen] using hpen

/-- **The pen commands of a drawing are read back.** Whatever its primitives are, the commands
    that are split at semicolons are read as what was written: the pen goes up to where the drawing
    starts, and then each primitive moves it, with the pen down for a segment only, or is the mark
    of a polygon. The coordinates are those of the primitives with six decimal places. Commands
    next to each other, with no mark between them, move different pens. So there are as many
    commands that move a pen as the moves have longest groups with one pen between marks. -/
theorem runs_penCommands (d : Drawing Float) :
    (∃ runs, runs? (pieces (penCommands d).toList) = some runs ∧
      runs.flatMap PenRun.events = WrittenEvent.ofDrawing d ∧
      (runs.IsChain fun r s => ∀ p ∈ r.pen?, ∀ q ∈ s.pen?, p ≠ q) ∧
      (pieces (penCommands d).toList).countP isPenCommand =
        ((WrittenEvent.ofDrawing d).splitBy samePen).countP (·.all WrittenEvent.isMove)) ∧
    ∀ p : Point Float,
      SixPlaces (.ofFloat p.x) (written p).1 ∧ SixPlaces (.ofFloat p.y) (written p).2 := by
  refine ⟨?_, fun p => ⟨sixPlaces_fixed p.x, sixPlaces_fixed p.y⟩⟩
  obtain ⟨runs, hruns, hevents⟩ := reads_penCommands d
  refine ⟨runs, hruns, ?_, isChain_pen_ne hevents, ?_⟩
  · rw [List.flatMap_def, hevents, List.flatten_splitBy]
  · rw [countP_isPenCommand hruns, ← countP_map_events, hevents]

/-- A drawing with two halves of a millionth, and a polygon that does not end. -/
def halves : Drawing Float where
  primitives := [.segment ⟨0, 0⟩ ⟨0.0078125, -0.0000001⟩, .segment ⟨0, 0⟩ ⟨0.0234375, 2000000⟩,
    .polygonBegin ⟨0, 0⟩, .travel ⟨0, 0⟩ ⟨1.5, 0⟩, .restore ⟨0.1, 0⟩]
  bbox := .ofPoint ⟨0, 0⟩
  originX := 0

/-- A half goes to the even neighbour, and what is rounded to zero keeps its sign. The two moves
    with the pen down share a command, as do the two behind the mark. -/
theorem runs_penCommands_halves :
    ∃ runs, runs? (pieces (penCommands halves).toList) = some runs ∧
      runs.flatMap PenRun.events =
        [.move .up ("0.000000".toList, "0.000000".toList),
          .move .down ("0.007812".toList, "-0.000000".toList),
          .move .down ("0.023438".toList, "2000000.000000".toList),
          .mark .polygonBegin,
          .move .up ("1.500000".toList, "0.000000".toList),
          .move .up ("0.100000".toList, "0.000000".toList)] ∧
      (runs.IsChain fun r s => ∀ p ∈ r.pen?, ∀ q ∈ s.pen?, p ≠ q) ∧
      (pieces (penCommands halves).toList).countP isPenCommand = 3 := by
  obtain ⟨⟨runs, hruns, hevents, hchain, hcount⟩, -⟩ := runs_penCommands halves
  have hwritten : WrittenEvent.ofDrawing halves =
      [.move .up ("0.000000".toList, "0.000000".toList),
        .move .down ("0.007812".toList, "-0.000000".toList),
        .move .down ("0.023438".toList, "2000000.000000".toList),
        .mark .polygonBegin,
        .move .up ("1.500000".toList, "0.000000".toList),
        .move .up ("0.100000".toList, "0.000000".toList)] := by
    decide +kernel
  refine ⟨runs, hruns, hevents.trans hwritten, hchain, hcount.trans ?_⟩
  rw [hwritten]
  decide +kernel

/-- Next to each other, the marks leave a line break between their commands. -/
example : runs? (pieces "PU0,0;\nPM0;\n;\nPM2;EP;FP;\nPD1,0,2,0;".toList) =
    some [.moves .up [(['0'], ['0'])], .mark .polygonBegin, .mark .polygonEnd,
      .moves .down [(['1'], ['0']), (['2'], ['0'])]] := by
  rfl

end Lindenmayer.Hpgl

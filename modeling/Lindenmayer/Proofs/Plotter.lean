import Lindenmayer.Plot.Hpgl
import Lindenmayer.Proofs.Numerals

/-!
# Reading plotter commands

A plotter reads the text of a plot character by character (`Reader.step`). It collects
a command up to the semicolon and carries it out (`Plotter.execute`); between `LB` and
ETX it reads a text that it does not look into. What it has drawn are the strokes: the
moves of a `PD` command, each from the point that was read last, except inside a
polygon.

A text performs an effect on the plotter (`Performs`) if reading it between two
commands has this effect and ends between two commands again. Texts that perform can be
put behind each other, so each piece of a plot is looked at once:

* the commands that set up the page draw nothing and move nothing;
* a label moves the pen to where it stands, if its text does not end it early;
* the pen commands of a drawing do what its events say, one after the other
  (`performs_penCommands`): the coordinates that share one command are the moves that
  they were written for.
-/

namespace Lindenmayer

namespace Hpgl

/-! ## The plotter -/

/-- A point as it is written: the texts of its coordinates. -/
abbrev WrittenPoint := List Char × List Char

/-- How a point is written. -/
def written (p : Point Float) : WrittenPoint := ((fixed p.x).toList, (fixed p.y).toList)

/-- A line drawn by the pen. -/
structure Stroke where
  start : WrittenPoint
  stop : WrittenPoint
  deriving DecidableEq

/-- What a plotter keeps track of between commands. -/
structure Plotter where
  /-- The pair of coordinates read last. -/
  point : Option WrittenPoint
  /-- Whether a polygon is being buffered. -/
  inPolygon : Bool
  /-- What has been drawn. -/
  strokes : List Stroke
  deriving DecidableEq

namespace Plotter

/-- A plotter that has not read anything. -/
def start : Plotter := ⟨none, false, []⟩

/-- Moves to a point. The pen draws if it is down, unless a polygon is buffered. -/
def moveTo (pen : Pen) (P : Plotter) (p : WrittenPoint) : Plotter where
  point := some p
  inPolygon := P.inPolygon
  strokes := P.strokes ++
    if pen = .down ∧ P.inPolygon = false then (P.point.map (Stroke.mk · p)).toList else []

theorem moveTo_up (P : Plotter) (p : WrittenPoint) :
    P.moveTo .up p = { P with point := some p } := by
  simp [moveTo]

theorem moveTo_of_inPolygon {P : Plotter} (h : P.inPolygon = true) (pen : Pen)
    (p : WrittenPoint) : P.moveTo pen p = { P with point := some p } := by
  simp [moveTo, h]

/-- Numbers two by two. -/
def pairs : List (List Char) → List WrittenPoint
  | x :: y :: rest => (x, y) :: pairs rest
  | _ => []

/-- Moves to the points that the text of a command lists. -/
def moveAlong (pen : Pen) (P : Plotter) (args : List Char) : Plotter :=
  (pairs (args.splitOn ',')).foldl (moveTo pen) P

/-- Carries out a command. -/
def execute (P : Plotter) : List Char → Plotter
  | 'P' :: 'U' :: args => P.moveAlong .up args
  | 'P' :: 'D' :: args => P.moveAlong .down args
  | ['P', 'M', '0'] => { P with inPolygon := true }
  | ['P', 'M', '2'] => { P with inPolygon := false }
  | _ => P

end Plotter

/-- A plotter in the middle of a text. -/
inductive Reader
  /-- A command has begun with `pending`. -/
  | command (pending : List Char) (P : Plotter)
  /-- A label has begun. -/
  | label (P : Plotter)
  deriving DecidableEq

namespace Reader

/-- Reads a character. Line breaks outside labels are skipped. -/
def step : Reader → Char → Reader
  | command pending P, c =>
    if c = ';' then command [] (P.execute pending)
    else if c = '\n' then command pending P
    else if pending = ['L'] ∧ c = 'B' then label P
    else command (pending ++ [c]) P
  | label P, c => if c = '\x03' then command [] P else label P

/-- Reads characters one after the other. -/
def read (r : Reader) (cs : List Char) : Reader := cs.foldl step r

def plotter : Reader → Plotter
  | command _ P => P
  | label P => P

theorem read_append (r : Reader) (cs ds : List Char) :
    r.read (cs ++ ds) = (r.read cs).read ds :=
  List.foldl_append

end Reader

/-- The strokes of the text of a plot. -/
def strokes (text : String) : List Stroke :=
  ((Reader.command [] .start).read text.toList).plotter.strokes

/-! ## Arguments -/

/-- A character that the arguments of a command are written with. -/
def IsArg (c : Char) : Prop := IsNumeral c ∨ c = ','

instance : DecidablePred IsArg :=
  fun c => inferInstanceAs (Decidable (IsNumeral c ∨ c = ','))

theorem isArg_of_mem_fixed {c : Char} {x : Float} (h : c ∈ (fixed x).toList) : IsArg c :=
  .inl (isNumeral_of_mem_fixed h)

theorem isArg_of_mem_intercalate {c : Char} {l : List Float}
    (h : c ∈ (",".intercalate (l.map fixed)).toList) : IsArg c := by
  induction l with
  | nil => cases h
  | cons x l ih =>
    cases l with
    | nil =>
      rw [List.map_singleton, String.intercalate_singleton] at h
      exact isArg_of_mem_fixed h
    | cons y l =>
      rw [List.map_cons, List.map_cons, String.intercalate_cons_cons, String.toList_append,
        String.toList_append, List.mem_append, List.mem_append] at h
      rcases h with (h | h) | h
      · exact isArg_of_mem_fixed h
      · exact .inr (List.mem_singleton.1 h)
      · exact ih h

theorem toList_coordinates (p : Point Float) :
    (coordinates p).toList = (written p).1 ++ ',' :: (written p).2 := by
  simp [coordinates, written]

theorem isArg_of_mem_coordinates {c : Char} {p : Point Float}
    (h : c ∈ (coordinates p).toList) : IsArg c := by
  rw [toList_coordinates] at h
  rcases List.mem_append.1 h with h | h
  · exact isArg_of_mem_fixed h
  · rcases List.mem_cons.1 h with rfl | h
    · exact .inr rfl
    · exact isArg_of_mem_fixed h

/-- One more point goes on with a command. -/
theorem isArg_of_mem_next {c : Char} {p : Point Float} (h : c ∈ ',' :: (coordinates p).toList) :
    IsArg c := by
  rcases List.mem_cons.1 h with rfl | h
  · exact .inr rfl
  · exact isArg_of_mem_coordinates h

namespace Reader

variable {P : Plotter} {pending cs : List Char}

/-- Arguments continue a command that has its two letters. -/
theorem read_args (P : Plotter) (hcode : 2 ≤ pending.length) (hcs : ∀ c ∈ cs, IsArg c) :
    (command pending P).read cs = command (pending ++ cs) P := by
  induction cs generalizing pending with
  | nil => simp [read]
  | cons c cs ih =>
    -- The character neither ends the command nor, behind two letters, makes it a label.
    have hend : c ≠ ';' := by
      rintro rfl
      exact absurd (hcs _ List.mem_cons_self) (by decide)
    have hline : c ≠ '\n' := by
      rintro rfl
      exact absurd (hcs _ List.mem_cons_self) (by decide)
    have hlabel : ¬ (pending = ['L'] ∧ c = 'B') := by
      rintro ⟨rfl, -⟩
      exact absurd hcode (by decide)
    have hstep : (command pending P).step c = command (pending ++ [c]) P := by
      simp [step, hend, hline, hlabel]
    rw [read, List.foldl_cons, hstep, List.append_cons pending c cs]
    refine ih ?_ fun d hd => hcs d (List.mem_cons_of_mem c hd)
    exact hcode.trans (by simp)

/-- A label goes on up to the first ETX. -/
theorem read_label (h : '\x03' ∉ cs) : (label P).read cs = label P := by
  induction cs with
  | nil => rfl
  | cons c cs ih =>
    rw [List.mem_cons, not_or] at h
    have hc : c ≠ '\x03' := Ne.symm h.1
    rw [read, List.foldl_cons, step, if_neg hc]
    exact ih h.2

end Reader

/-- Reading the text between two commands has an effect on the plotter, and ends
    between two commands. -/
def Performs (text : String) (effect : Plotter → Plotter) : Prop :=
  ∀ P, (Reader.command [] P).read text.toList = .command [] (effect P)

variable {s t : String} {f g : Plotter → Plotter}

theorem Performs.append (hs : Performs s f) (ht : Performs t g) : Performs (s ++ t) (g ∘ f) := by
  intro P
  rw [String.toList_append, Reader.read_append, hs P, ht (f P)]
  rfl

theorem performs_empty : Performs "" id :=
  fun _ => rfl

/-! ## The page -/

theorem performs_startUp : Performs startUp id :=
  fun _ => rfl

theorem performs_window (x₀ y₀ x₁ y₁ : Float) : Performs (window x₀ y₀ x₁ y₁) id := by
  intro P
  have hargs := Reader.read_args P (le_refl ['I', 'R'].length)
    fun _ => isArg_of_mem_intercalate (l := [x₀, y₀, x₁, y₁])
  rw [window, String.toList_append, String.toList_append, Reader.read_append, Reader.read_append]
  exact congrArg (·.read ";\n".toList) hargs

theorem performs_scaling (b : BoundingBox Float) (isotropic : Bool) :
    Performs (scaling b isotropic) id := by
  intro P
  have hargs := Reader.read_args P (le_refl ['S', 'C'].length)
    fun _ => isArg_of_mem_intercalate (l := [b.xMin, b.xMax, b.yMin, b.yMax])
  rw [scaling, String.toList_append, String.toList_append, Reader.read_append, Reader.read_append]
  cases isotropic with
  | false => exact congrArg (·.read ",0;\n".toList) hargs
  | true => exact congrArg (·.read ",1;\n".toList) hargs

theorem performs_penSetup (width : Float) : Performs (penSetup width) id := by
  intro P
  have hargs := Reader.read_args P (le_refl ['P', 'W'].length)
    fun _ => isArg_of_mem_fixed (x := width)
  rw [penSetup, String.toList_append, String.toList_append, Reader.read_append, Reader.read_append]
  exact congrArg (·.read ";\n".toList) hargs

/-! ## Moves -/

/-- The text of a command lists points: split at its commas, it is their coordinates. -/
def Lists (args : List Char) (points : List WrittenPoint) : Prop :=
  args.splitOn ',' = points.flatMap fun p => [p.1, p.2]

theorem lists_coordinates (p : Point Float) : Lists (coordinates p).toList [written p] := by
  have hcomma : ¬ IsNumeral ',' := by decide
  have hx : ',' ∉ (written p).1 := fun h => hcomma (isNumeral_of_mem_fixed h)
  have hy : ',' ∉ (written p).2 := fun h => hcomma (isNumeral_of_mem_fixed h)
  rw [Lists, toList_coordinates, List.splitOn_append_cons_self_of_not_mem hx,
    List.splitOn_eq_singleton hy]
  rfl

theorem Lists.concat {args : List Char} {points : List WrittenPoint} (h : Lists args points)
    (p : Point Float) :
    Lists (args ++ ',' :: (coordinates p).toList) (points ++ [written p]) := by
  have hp : (coordinates p).toList.splitOn ',' = _ := lists_coordinates p
  rw [Lists, List.splitOn_append_cons_self, h, hp, List.flatMap_append]

namespace Plotter

theorem pairs_flatMap (points : List WrittenPoint) :
    pairs (points.flatMap fun p => [p.1, p.2]) = points := by
  induction points with
  | nil => rfl
  | cons p points ih => exact congrArg (p :: ·) ih

/-- A pen command moves to the points that it lists, one after the other. -/
theorem execute_code (P : Plotter) (pen : Pen) {args : List Char} {points : List WrittenPoint}
    (h : Lists args points) :
    P.execute (pen.code.toList ++ args) = points.foldl (moveTo pen) P := by
  have hmoves : P.moveAlong pen args = points.foldl (moveTo pen) P := by
    rw [moveAlong, h, pairs_flatMap]
  cases pen with
  | up => exact hmoves
  | down => exact hmoves

end Plotter

/-- A label moves the pen to where it stands. -/
theorem performs_label (x y : Float) (position : String) {text : String}
    (hposition : position.toList.all Char.isDigit) (htext : '\x03' ∉ text.toList) :
    Performs (label x y position text) (·.moveTo .up (written ⟨x, y⟩)) := by
  intro P
  -- Three commands are read: a move, the place of the text and the text itself.
  generalize hmoved : P.moveTo .up (written ⟨x, y⟩) = P'
  have hmove : (Reader.command [] P).read ("PU" ++ coordinates ⟨x, y⟩ ++ ";LO").toList =
      .command ['L', 'O'] P' := by
    have hargs := Reader.read_args P (le_refl ['P', 'U'].length)
      fun _ => isArg_of_mem_coordinates (p := ⟨x, y⟩)
    have hexecute : P.execute (['P', 'U'] ++ (coordinates ⟨x, y⟩).toList) = P' :=
      (P.execute_code .up (lists_coordinates ⟨x, y⟩)).trans hmoved
    rw [← hexecute, String.toList_append, String.toList_append, Reader.read_append,
      Reader.read_append]
    exact congrArg (·.read ";LO".toList) hargs
  have hplace : (Reader.command ['L', 'O'] P').read (position ++ ";LB").toList = .label P' := by
    have hargs := Reader.read_args P' (le_refl ['L', 'O'].length)
      fun c hc => .inl (isNumeral_of_isDigit (List.all_eq_true.1 hposition c hc))
    rw [String.toList_append, Reader.read_append]
    exact congrArg (·.read ";LB".toList) hargs
  have hlabel : (Reader.label P').read (text ++ "\x03;\n").toList = .command [] P' := by
    rw [String.toList_append, Reader.read_append, Reader.read_label htext]
    rfl
  have hassoc : label x y position text =
      "PU" ++ coordinates ⟨x, y⟩ ++ ";LO" ++ (position ++ ";LB") ++ (text ++ "\x03;\n") := by
    simp only [label, coordinates, String.append_assoc]
  rw [hassoc, String.toList_append, Reader.read_append, String.toList_append,
    Reader.read_append, hmove, hplace, hlabel, ← hmoved]

/-! ## Pen commands -/

namespace Plotter

/-- What an event does. -/
def event (P : Plotter) : Event → Plotter
  | .move pen target => P.moveTo pen (written target)
  | .mark .polygonBegin => { P with inPolygon := true }
  | .mark .polygonEnd => { P with inPolygon := false }

end Plotter

/-- Where the reader is behind the text of an event, when the plotter would be at `P` if
    the command was complete. Behind a move its command can still go on. -/
inductive Behind : Option Event → Plotter → Reader → Prop
  | start (P : Plotter) : Behind none P (.command [] P)
  | mark (m : Mark) (P : Plotter) : Behind (some (.mark m)) P (.command [] P)
  | move {pen : Pen} {target : Point Float} {args : List Char} {points : List WrittenPoint}
    (P : Plotter) : Lists args points →
    Behind (some (.move pen target)) (points.foldl (.moveTo pen) P)
      (.command (pen.code.toList ++ args) P)

variable {last : Option Event} {P : Plotter} {r : Reader}

/-- A semicolon carries out what is pending. -/
theorem Behind.read_end (h : Behind last P r) : r.read [';'] = .command [] P := by
  cases h with
  | start => rfl
  | mark => rfl
  | move P hargs => exact congrArg (Reader.command []) (P.execute_code _ hargs)

theorem Behind.read_line (h : Behind last P r) : r.read ";\n".toList = .command [] P :=
  congrArg (·.read ['\n']) h.read_end

theorem length_code (pen : Pen) : pen.code.toList.length = 2 := by
  cases pen <;> rfl

/-- A new command begins with the move that it is written for. -/
theorem behind_move (P : Plotter) (pen : Pen) (target : Point Float) :
    Behind (some (.move pen target)) (P.moveTo pen (written target))
      ((Reader.command [] P).read (pen.code ++ coordinates target).toList) := by
  have hcode : (Reader.command [] P).read pen.code.toList = .command pen.code.toList P := by
    cases pen <;> rfl
  rw [String.toList_append, Reader.read_append, hcode,
    Reader.read_args P (length_code pen).ge fun _ => isArg_of_mem_coordinates]
  exact .move P (lists_coordinates target)

/-- The text of an event does what the event says, whatever the event before it. -/
theorem Behind.event (h : Behind last P r) (e : Event) :
    Behind (some e) (P.event e) (r.read (e.text last).toList) := by
  cases e with
  | mark m =>
    -- A mark ends what is pending and is complete itself.
    rw [Event.text, String.toList_append, String.toList_append, Reader.read_append,
      Reader.read_append, h.read_line]
    cases m with
    | polygonBegin => exact .mark _ _
    | polygonEnd => exact .mark _ _
  | move pen target =>
    have hline := h.read_line
    cases h with
    | start => exact behind_move P pen target
    | mark m => exact behind_move P pen target
    | @move lastPen _ args points P hargs =>
      rw [Event.text]
      by_cases hpen : lastPen = pen
      · -- The command goes on, with one point more.
        subst hpen
        have hcode : 2 ≤ (lastPen.code.toList ++ args).length := by
          rw [List.length_append, length_code]
          exact Nat.le_add_right 2 _
        have hcs : ∀ c ∈ ("," ++ coordinates target).toList, IsArg c := by
          intro c hc
          rw [String.toList_append] at hc
          exact isArg_of_mem_next hc
        rw [if_pos rfl, Reader.read_args P hcode hcs, String.toList_append, List.append_assoc]
        have hmove : Behind (some (.move lastPen target)) _ _ := .move P (hargs.concat target)
        rw [List.foldl_append] at hmove
        exact hmove
      · -- The pen changes, so the command ends and another one begins.
        rw [if_neg hpen, String.append_assoc, String.toList_append, Reader.read_append, hline]
        exact behind_move _ pen target

theorem Behind.events (h : Behind last P r) (events : List Event) :
    ∃ last', Behind last' (events.foldl Plotter.event P)
      (r.read (String.join (List.zipWith Event.text (last :: events.map some) events)).toList) := by
  induction events generalizing last P r with
  | nil => exact ⟨last, h⟩
  | cons e events ih =>
    obtain ⟨last', hlast⟩ := ih (h.event e)
    refine ⟨last', ?_⟩
    rw [List.map_cons, List.zipWith_cons_cons, String.join_cons, String.toList_append,
      Reader.read_append]
    exact hlast

/-- The pen commands of a drawing do what its events say. -/
theorem performs_penCommands (d : Drawing Float) :
    Performs (penCommands d) fun P => (penEvents d).foldl Plotter.event P := by
  intro P
  obtain ⟨last, hlast⟩ := (Behind.start P).events (penEvents d)
  rw [penCommands, String.toList_append, Reader.read_append]
  exact hlast.read_end

end Hpgl

end Lindenmayer

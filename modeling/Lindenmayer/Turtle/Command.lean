import Lindenmayer.Error
import Lindenmayer.Number.Decimal
import Lindenmayer.Word

/-!
# Commands

What a turtle reads off a word. Each symbol stands for an operation (`Op`), and a
word for a list of commands with their positions (`commands`):

* opposite turns that meet are cancelled first, and positions count the symbols
  of the word without them;
* a heading in parentheses is one command, however many symbols it has;
* a variable is taken out of the rest of the word the first time it is met, so
  positions behind it count symbols without that variable. It leaves a command
  that does nothing.

A `(` that opens no heading ends the list with a command that cannot be carried
out; it is an error only once the turtle gets there.
-/

namespace Lindenmayer

/-- What a symbol stands for. -/
inductive Op
  /-- Move forward and draw a line. -/
  | draw
  /-- Move forward without drawing. -/
  | move
  /-- Turn left by the production angle. -/
  | turnLeft
  /-- Turn right by the production angle. -/
  | turnRight
  /-- Turn by 180 degrees. -/
  | turnAround
  /-- Turn to 90 degrees. -/
  | faceNorth
  /-- Turn to the heading that follows. -/
  | setHeading
  /-- Save the turtle. -/
  | push
  /-- Restore the turtle saved last. -/
  | pop
  /-- Begin a polygon. -/
  | beginPolygon
  /-- End the polygon. -/
  | endPolygon
  /-- Nothing. -/
  | variable
  deriving DecidableEq, Repr

/-- The operation of a symbol. A `)` has one only as the end of a heading, so on
    its own it counts as a variable. -/
def Op.ofSymbol : Char → Op
  | 'F' => .draw
  | 'f' => .move
  | '+' => .turnLeft
  | '-' => .turnRight
  | '|' => .turnAround
  | '$' => .faceNorth
  | '(' => .setHeading
  | '[' => .push
  | ']' => .pop
  | '{' => .beginPolygon
  | '}' => .endPolygon
  | _ => .variable

/-! ## Heading literals -/

/-- The symbols that a heading is written with. -/
def isHeadingSymbol (c : Char) : Bool := c = '+' ∨ c = '-' ∨ c = '.' ∨ c.isDigit

/-- Reads the heading that stands between a `(` and the next `)`, given what
    follows the `(`: a decimal number, and the number of symbols it is written
    with. -/
def headingLiteral? (w : Word) : Option (Decimal × Nat) :=
  let literal := w.takeWhile isHeadingSymbol
  match w.dropWhile isHeadingSymbol with
  | ')' :: _ => (Decimal.read? literal).map fun d => (d, literal.length)
  | _ => none

/-- The heading whose number begins at position `first`, and the position of the `)`
    that closes it. -/
def headingFrom (w : Word) (first : Nat) : Except Error (Decimal × Nat) :=
  match headingLiteral? (w.drop first) with
  | some (d, length) => .ok (d, first + length)
  | none => .error (.configuration .malformedHeading)

/-- The heading that the `(` at a position opens. The symbol at the position itself is
    not looked at. -/
def headingAt (w : Word) (position : Nat) : Except Error (Decimal × Nat) :=
  headingFrom w (position + 1)

/-- Where a machine word is asked for, a number is taken modulo the size of the word. -/
scoped instance natWord : Coe Nat UInt64 := ⟨UInt64.ofNat⟩

/-- The heading that is opened at a position told by a machine word. Positions of a word
    are below the greatest machine word, behind which comes zero. -/
def parseHeading (w : Word) (start : UInt64) : Except Error (Decimal × Nat) :=
  headingFrom w (start + 1).toNat

/-! ## Commands of a word -/

/-- The turns by a fixed amount. -/
inductive Turn
  | left
  | right
  | around
  deriving DecidableEq, Repr

/-- What a turtle is told to do. -/
inductive Command
  /-- Move forward by one unit, drawing a line or not. -/
  | forward (drawn : Bool)
  | turn (turn : Turn)
  | face (heading : Decimal)
  | push
  | pop
  | beginPolygon
  | endPolygon
  /-- A variable, which has just been taken out of the word. -/
  | idle (symbol : Char)
  /-- A `(` that opens no heading. -/
  | malformed
  deriving DecidableEq, Repr

/-- A command with its position in the word. -/
structure Instruction where
  position : Nat
  command : Command
  deriving DecidableEq, Repr

/-- The command of an operation that needs no more than its symbol. -/
def Op.command? : Op → Option Command
  | .draw => some (.forward true)
  | .move => some (.forward false)
  | .turnLeft => some (.turn .left)
  | .turnRight => some (.turn .right)
  | .turnAround => some (.turn .around)
  | .faceNorth => some (.face (.ofNat 90))
  | .push => some .push
  | .pop => some .pop
  | .beginPolygon => some .beginPolygon
  | .endPolygon => some .endPolygon
  | .setHeading => none
  | .variable => none

/-- Continues the list of commands `done` (the last one first) with those of a
    word whose first symbol has the given position. -/
def commandsInto (done : List Instruction) (position : Nat) : Word → List Instruction
  | [] => done.reverse
  | c :: rest =>
    match (Op.ofSymbol c).command? with
    | some command => commandsInto (⟨position, command⟩ :: done) (position + 1) rest
    | none =>
      if Op.ofSymbol c = .setHeading then
        match headingLiteral? rest with
        | some (d, length) =>
          commandsInto (⟨position, .face d⟩ :: done) (position + length + 2)
            (rest.drop (length + 1))
        | none => (⟨position, .malformed⟩ :: done).reverse
      else
        commandsInto (⟨position, .idle c⟩ :: done) position (Word.without c rest)
termination_by w => w.length
decreasing_by
  · exact Nat.lt_succ_self _
  · exact Nat.lt_succ_of_le (List.length_drop ▸ Nat.sub_le _ _)
  · exact Nat.lt_succ_of_le (Word.length_without_le c rest)

/-- The commands of a word, after its opposite turns are cancelled. -/
def commands (w : Word) : List Instruction := commandsInto [] 0 w.cancelTurns

end Lindenmayer

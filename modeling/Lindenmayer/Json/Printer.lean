import Lindenmayer.Json

/-!
# Writing documents

Documents are written without blanks. In strings the quote, the backslash and the
control characters below U+0020 are escaped; every other character stands for
itself. A literal without a text is written as a lone surrogate.
-/

namespace Lindenmayer.Json

/-! ## Numbers -/

/-- The text of digits. -/
def digitsText (ds : List Digit) : List Char := ds.map digitChar

/-- The text of an exponent, always with its sign. -/
def exponentText (e : Int) : List Char :=
  'e' :: (if e < 0 then '-' else '+') :: digitsText (digitsOfNat e.natAbs)

/-- The text of a number. -/
def Number.text (n : Number) : List Char :=
  (if n.negative then ['-'] else []) ++ digitsText n.whole ++
    (if n.fraction.isEmpty then [] else '.' :: digitsText n.fraction) ++
    (n.exponent.map exponentText).getD []

/-! ## Strings -/

/-- The hexadecimal digit of a number below 16, in lower case. -/
def hexDigit (n : Nat) : Char :=
  if n < 10 then Char.ofNat ('0'.toNat + n) else Char.ofNat ('a'.toNat + (n - 10))

/-- A character as it is written in a string. -/
def escape (c : Char) : List Char :=
  if c = '"' then ['\\', '"']
  else if c = '\\' then ['\\', '\\']
  else if c = '\x08' then ['\\', 'b']
  else if c = '\t' then ['\\', 't']
  else if c = '\n' then ['\\', 'n']
  else if c = '\x0c' then ['\\', 'f']
  else if c = '\r' then ['\\', 'r']
  else if c.toNat < 0x20 then
    ['\\', 'u', '0', '0', hexDigit (c.toNat / 16), hexDigit (c.toNat % 16)]
  else [c]

/-- What stands between the quotes of a literal. -/
def textBody : Option String → List Char
  | some s => s.toList.flatMap escape
  | none => ['\\', 'u', 'd', '8', '0', '0']

/-- A string literal. -/
def textLiteral (t : Option String) : List Char := '"' :: (textBody t ++ ['"'])

/-! ## Values -/

mutual

/-- The text of a value. -/
def print : Json → List Char
  | .null => ['n', 'u', 'l', 'l']
  | .bool true => ['t', 'r', 'u', 'e']
  | .bool false => ['f', 'a', 'l', 's', 'e']
  | .number n => n.text
  | .string t => textLiteral t
  | .array [] => ['[', ']']
  | .array (item :: items) => '[' :: (print item ++ printItems items)
  | .object [] => ['\x7b', '\x7d']
  | .object ((name, value) :: members) =>
    '\x7b' :: (textLiteral name ++ ':' :: (print value ++ printMembers members))

/-- The items of an array behind the first one, and its end. -/
def printItems : List Json → List Char
  | [] => [']']
  | item :: items => ',' :: (print item ++ printItems items)

/-- The members of an object behind the first one, and its end. -/
def printMembers : List (Option String × Json) → List Char
  | [] => ['\x7d']
  | (name, value) :: members =>
    ',' :: (textLiteral name ++ ':' :: (print value ++ printMembers members))

end

/-- The text of a document. -/
def render (j : Json) : String := String.ofList (print j)

end Lindenmayer.Json

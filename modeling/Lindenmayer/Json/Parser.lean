import Lindenmayer.Json

/-!
# Reading documents

A strict reader: one value, blanks around its parts, nothing behind it. It only
decides the form of a document. Whether a number is in range and whether a
literal has a text is decided by those who use them.

Each function returns what it has read with the rest of the text. The functions
on values count down a number of steps, one for each value, item or member;
`parse` allows for one more than the text has characters, which is always enough.
-/

namespace Lindenmayer.Json

/-- The characters that may stand between the parts of a document. -/
def isBlank (c : Char) : Bool := c = ' ' ∨ c = '\t' ∨ c = '\n' ∨ c = '\r'

def skipBlank (cs : List Char) : List Char := cs.dropWhile isBlank

/-! ## Numbers -/

/-- The digits that a text begins with. -/
def spanDigits : List Char → List Digit × List Char
  | [] => ([], [])
  | c :: rest =>
    match digit? c with
    | none => ([], c :: rest)
    | some d => let (ds, rest) := spanDigits rest; (d :: ds, rest)

/-- Digits before the point: a zero alone, or digits that do not begin with one. -/
def whole? (cs : List Char) : Option (List Digit × List Char) :=
  match spanDigits cs with
  | ([], _) => none
  | ([d], rest) => some ([d], rest)
  | (d :: ds, rest) => if d = .zero then none else some (d :: ds, rest)

/-- A point with at least one digit, or nothing. -/
def fraction? : List Char → Option (List Digit × List Char)
  | [] => some ([], [])
  | c :: rest =>
    if c = '.' then
      match spanDigits rest with
      | ([], _) => none
      | (ds, rest) => some (ds, rest)
    else
      some ([], c :: rest)

/-- The digits of an exponent. -/
def exponentDigits? (negative : Bool) (cs : List Char) : Option (Option Int × List Char) :=
  match spanDigits cs with
  | ([], _) => none
  | (ds, rest) =>
    let magnitude : Int := natOfDigits ds
    some (some (if negative then -magnitude else magnitude), rest)

/-- An exponent with an optional sign, or nothing. -/
def exponent? : List Char → Option (Option Int × List Char)
  | [] => some (none, [])
  | c :: rest =>
    if c = 'e' ∨ c = 'E' then
      match rest with
      | [] => none
      | s :: digits =>
        if s = '+' then exponentDigits? false digits
        else if s = '-' then exponentDigits? true digits
        else exponentDigits? false rest
    else
      some (none, c :: rest)

/-- The parts of a number behind its sign. -/
def unsignedNumber? (negative : Bool) (cs : List Char) : Option (Number × List Char) := do
  let (whole, cs) ← whole? cs
  let (fraction, cs) ← fraction? cs
  let (exponent, cs) ← exponent? cs
  return (⟨negative, whole, fraction, exponent⟩, cs)

/-- A number. -/
def number? : List Char → Option (Number × List Char)
  | [] => none
  | c :: rest => if c = '-' then unsignedNumber? true rest else unsignedNumber? false (c :: rest)

/-! ## Strings -/

/-- A part of a string literal: a character, or the code of an escape by four
    hexadecimal digits. -/
inductive Piece
  | char (c : Char)
  | code (n : Nat)
  deriving DecidableEq, Repr

/-- The value of a hexadecimal digit, in upper or lower case. -/
def hexValue? (c : Char) : Option Nat :=
  if c.isDigit then some (c.toNat - '0'.toNat)
  else if 'a' ≤ c ∧ c ≤ 'f' then some (c.toNat - 'a'.toNat + 10)
  else if 'A' ≤ c ∧ c ≤ 'F' then some (c.toNat - 'A'.toNat + 10)
  else none

/-- The code of four hexadecimal digits. -/
def code? (a b c d : Char) : Option Nat := do
  return (((← hexValue? a) * 16 + (← hexValue? b)) * 16 + (← hexValue? c)) * 16 + (← hexValue? d)

/-- The character of an escape by one letter. -/
def unescape? (c : Char) : Option Char :=
  if c = '"' then some '"'
  else if c = '\\' then some '\\'
  else if c = '/' then some '/'
  else if c = 'b' then some '\x08'
  else if c = 't' then some '\t'
  else if c = 'n' then some '\n'
  else if c = 'f' then some '\x0c'
  else if c = 'r' then some '\r'
  else none

/-- The pieces of a string literal behind its opening quote. -/
def pieces? : List Char → Option (List Piece × List Char)
  | [] => none
  | c :: rest =>
    if c = '"' then some ([], rest)
    else if c = '\\' then
      match rest with
      | [] => none
      | e :: rest =>
        if e = 'u' then
          match rest with
          | h₁ :: h₂ :: h₃ :: h₄ :: rest =>
            match code? h₁ h₂ h₃ h₄, pieces? rest with
            | some n, some (ps, rest) => some (.code n :: ps, rest)
            | _, _ => none
          | _ => none
        else
          match unescape? e, pieces? rest with
          | some c, some (ps, rest) => some (.char c :: ps, rest)
          | _, _ => none
    else if c.toNat < 0x20 then none
    else
      match pieces? rest with
      | some (ps, rest) => some (.char c :: ps, rest)
      | none => none

def isHighSurrogate (n : Nat) : Bool := 0xD800 ≤ n ∧ n < 0xDC00

def isLowSurrogate (n : Nat) : Bool := 0xDC00 ≤ n ∧ n < 0xE000

/-- The characters that pieces denote; `none` if a surrogate stands alone. -/
def characters? : List Piece → Option (List Char)
  | [] => some []
  | .char c :: rest => (characters? rest).map (c :: ·)
  | .code n :: rest =>
    if isHighSurrogate n then
      match rest with
      | .code m :: rest =>
        if isLowSurrogate m then
          (characters? rest).map
            (Char.ofNat (0x10000 + (n - 0xD800) * 0x400 + (m - 0xDC00)) :: ·)
        else none
      | _ => none
    else if isLowSurrogate n then none
    else (characters? rest).map (Char.ofNat n :: ·)

/-- The text of a string literal behind its opening quote. -/
def text? (cs : List Char) : Option (Option String × List Char) :=
  (pieces? cs).map fun (ps, rest) => ((characters? ps).map String.ofList, rest)

/-! ## Values -/

/-- The value of a word such as `null`, of which the first character is read. -/
def keyword? (word : List Char) (value : Json) (cs : List Char) : Option (Json × List Char) :=
  if word.isPrefixOf cs then some (value, cs.drop word.length) else none

mutual

/-- A value. -/
def value? : Nat → List Char → Option (Json × List Char)
  | 0, _ => none
  | fuel + 1, cs =>
    match skipBlank cs with
    | [] => none
    | c :: rest =>
      if c = 'n' then keyword? ['u', 'l', 'l'] .null rest
      else if c = 't' then keyword? ['r', 'u', 'e'] (.bool true) rest
      else if c = 'f' then keyword? ['a', 'l', 's', 'e'] (.bool false) rest
      else if c = '"' then
        match text? rest with
        | some (t, rest) => some (.string t, rest)
        | none => none
      else if c = '[' then
        match skipBlank rest with
        | [] => none
        | d :: rest =>
          if d = ']' then some (.array [], rest)
          else
            match value? fuel (d :: rest) with
            | none => none
            | some (item, rest) =>
              match items? fuel rest with
              | none => none
              | some (items, rest) => some (.array (item :: items), rest)
      else if c = '\x7b' then
        match skipBlank rest with
        | [] => none
        | d :: rest =>
          if d = '\x7d' then some (.object [], rest)
          else
            match member? fuel (d :: rest) with
            | none => none
            | some (member, rest) =>
              match members? fuel rest with
              | none => none
              | some (members, rest) => some (.object (member :: members), rest)
      else
        match number? (c :: rest) with
        | some (n, rest) => some (.number n, rest)
        | none => none

/-- The items of an array behind one of them, up to its end. -/
def items? : Nat → List Char → Option (List Json × List Char)
  | 0, _ => none
  | fuel + 1, cs =>
    match skipBlank cs with
    | [] => none
    | c :: rest =>
      if c = ']' then some ([], rest)
      else if c = ',' then
        match value? fuel rest with
        | none => none
        | some (item, rest) =>
          match items? fuel rest with
          | none => none
          | some (items, rest) => some (item :: items, rest)
      else none

/-- A member of an object: a name, a colon and a value. -/
def member? : Nat → List Char → Option ((Option String × Json) × List Char)
  | 0, _ => none
  | fuel + 1, cs =>
    match skipBlank cs with
    | [] => none
    | c :: rest =>
      if c = '"' then
        match text? rest with
        | none => none
        | some (name, rest) =>
          match skipBlank rest with
          | [] => none
          | d :: rest =>
            if d = ':' then
              match value? fuel rest with
              | none => none
              | some (value, rest) => some ((name, value), rest)
            else none
      else none

/-- The members of an object behind one of them, up to its end. -/
def members? : Nat → List Char → Option (List (Option String × Json) × List Char)
  | 0, _ => none
  | fuel + 1, cs =>
    match skipBlank cs with
    | [] => none
    | c :: rest =>
      if c = '\x7d' then some ([], rest)
      else if c = ',' then
        match member? fuel rest with
        | none => none
        | some (member, rest) =>
          match members? fuel rest with
          | none => none
          | some (members, rest) => some (member :: members, rest)
      else none

end

/-- The value of a text that is one value and nothing else. -/
def parseChars? (cs : List Char) : Option Json :=
  match value? (cs.length + 1) cs with
  | some (j, rest) => if (skipBlank rest).isEmpty then some j else none
  | none => none

/-- The value of a document. -/
def parse? (document : String) : Option Json := parseChars? document.toList

end Lindenmayer.Json

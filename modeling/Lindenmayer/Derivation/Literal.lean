import Lindenmayer.Rules

/-!
# Literal rewriting

One sweep over a word, from left to right. At every position the keys are tried
in the order of their declaration; the first that begins the rest of the word is
replaced, and the sweep goes on behind it. A symbol where no key matches stays.
What a replacement puts into the word is not looked at in the same sweep.
-/

namespace Lindenmayer.Literal

/-- The first declared rule whose key begins `w`. -/
def firstMatch (rules : List (Word × Word)) (w : Word) : Option (Word × Word) :=
  rules.find? fun rule => rule.1.isPrefixOf w

/-- Continues a sweep that has written `done` (the last symbol first). The next
    `skip` symbols belong to the key that matched last. -/
def rewriteInto (rules : List (Word × Word)) : Word → Nat → Word → Word
  | done, _, [] => done.reverse
  | done, skip + 1, _ :: rest => rewriteInto rules done skip rest
  | done, 0, c :: rest =>
    match firstMatch rules (c :: rest) with
    | some rule => rewriteInto rules (rule.2.reverse ++ done) (rule.1.length - 1) rest
    | none => rewriteInto rules (c :: done) 0 rest

/-- The successor of a word. -/
def rewrite (rules : List (Word × Word)) (w : Word) : Word := rewriteInto rules [] 0 w

end Lindenmayer.Literal

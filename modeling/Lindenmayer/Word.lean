/-!
# Words

The state of a Lindenmayer system is a *word*: a finite sequence of symbols,
here characters. Twelve symbols are *constants*, with a fixed meaning for the
turtle; every other symbol is a *variable*, which takes part in rewriting and
leaves no mark on the drawing.

Two operations on words serve the turtle. A turn followed by the opposite turn
does nothing, so such pairs are removed before a word is walked
(`Word.cancelTurns`); and a variable is taken out of a word from some position
on (`Word.withoutFrom`).
-/

namespace Lindenmayer

/-- A word over the alphabet of characters. -/
abbrev Word := List Char

namespace Word

/-- The symbols the turtle understands. -/
def constants : List Char :=
  ['F', 'f', '+', '-', '|', '$', '(', ')', '[', ']', '{', '}']

/-- Whether the turtle gives `c` a meaning. -/
def isConstant (c : Char) : Bool := constants.contains c

/-- The number of bytes a word takes in UTF-8. Limits on the growth of a
    derivation are stated in bytes, not in symbols. -/
def byteLength (w : Word) : Nat := w.foldr (fun c bytes => c.utf8Size + bytes) 0

/-! ## Order -/

/-- Whether a word comes before another one in the order of a dictionary, with
    symbols in the order of their code points. The bytes of words in UTF-8 are in
    the same order. -/
def precedes : Word → Word → Bool
  | _, [] => false
  | [], _ :: _ => true
  | c :: v, d :: w => c.toNat < d.toNat || (c == d && precedes v w)

theorem precedes_trans {u v w : Word} (huv : precedes u v) (hvw : precedes v w) :
    precedes u w := by
  induction u generalizing v w with
  | nil =>
    cases w with
    | nil => cases v <;> simp [precedes] at hvw
    | cons => rfl
  | cons a u ih =>
    cases v with
    | nil => simp [precedes] at huv
    | cons b v =>
      cases w with
      | nil => simp [precedes] at hvw
      | cons c w =>
        simp only [precedes, Bool.or_eq_true, Bool.and_eq_true, decide_eq_true_eq,
          beq_iff_eq] at huv hvw ⊢
        rcases huv with hab | ⟨rfl, huv⟩
        · rcases hvw with hbc | ⟨rfl, _⟩
          · exact .inl (Nat.lt_trans hab hbc)
          · exact .inl hab
        · rcases hvw with hbc | ⟨rfl, hvw⟩
          · exact .inl hbc
          · exact .inr ⟨rfl, ih huv hvw⟩

/-- Of two different words one comes before the other. -/
theorem precedes_of_ne {v w : Word} (hne : v ≠ w) (hvw : ¬ precedes v w) : precedes w v := by
  induction v generalizing w with
  | nil =>
    cases w with
    | nil => exact absurd rfl hne
    | cons => exact absurd rfl hvw
  | cons a v ih =>
    cases w with
    | nil => rfl
    | cons b w =>
      simp only [precedes, Bool.or_eq_true, Bool.and_eq_true, decide_eq_true_eq,
        beq_iff_eq, not_or, not_and] at hvw ⊢
      obtain ⟨hle, hrest⟩ := hvw
      rcases Nat.lt_or_eq_of_le (Nat.le_of_not_lt hle) with hlt | heq
      · exact .inl hlt
      · -- The first symbols agree, so the rest decides.
        obtain rfl : a = b := Char.ext (UInt32.toNat_inj.1 heq.symm)
        exact .inr ⟨rfl, ih (fun h => hne (h ▸ rfl)) (hrest rfl)⟩

/-! ## Cancelling turns -/

/-- Whether one of two symbols turns left and the other right. -/
def opposite : Char → Char → Bool
  | '+', '-' => true
  | '-', '+' => true
  | _, _ => false

/-- Reads one more symbol of a word whose reading so far left `done` (the last
    symbol first): a turn undoes an opposite turn right before it. -/
def cancelStep (done : Word) (c : Char) : Word :=
  match done with
  | [] => [c]
  | d :: rest => if opposite d c then rest else c :: done

/-- The word without adjacent opposite turns. Removing a pair may bring two
    more opposite turns together, and these go as well. -/
def cancelTurns (w : Word) : Word := (w.foldl cancelStep []).reverse

/-! ## Erasing a symbol -/

/-- The word without the occurrences of `c`. -/
def without (c : Char) (w : Word) : Word := w.filter (· != c)

/-- The word without the occurrences of `c` at or after position `start`. -/
def withoutFrom (w : Word) (start : Nat) (c : Char) : Word :=
  w.take start ++ without c (w.drop start)

theorem length_without_le (c : Char) (w : Word) : (without c w).length ≤ w.length :=
  List.length_filter_le _ _

end Word

end Lindenmayer

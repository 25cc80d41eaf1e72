import Lindenmayer.Proofs.Arithmetic
import Lindenmayer.Proofs.Composition

/-!
# Headings

A heading is a decimal number, with a sign or without, between a `(` and the next `)`
(`IsHeading`). It may be found without knowing how decimal numbers are written (`scanFrom`):
go over as many symbols as headings are written with, and have them read as any number, be it
one with an exponent or infinity (`readFloat?`). Neither of the two accepts headings only. The
scan goes over `--5` as well, and `5e1` and `inf` are numbers. But no letter gets through the
scan, and of what has no letters only the decimal numbers are read (`readFloat?_literal`).

* `isHeading_iff`: the headings are what is read as a decimal number;
* `Decimal.toFloat_eq_rounded`: it is rounded once, however many digits it has;
* `headingAt_eq_ok_iff_read?`: the text that is read ends at the first `)`;
* `commandsFrom_pairwise`: the turtle goes on behind that, so it never comes back to where it
  has been;
* `parseHeading_eq_headingAt`: a machine word tells a position like any number, as long as there
  is a greater one. Behind the greatest of all the reading starts over (`parseHeading_overflow`).
-/

namespace Lindenmayer

/-! ## Numbers as they may be written -/

/-- Whether there is a minus in front of a number, and the number without its sign. -/
def splitSign : List Char → Bool × List Char
  | '+' :: w => (false, w)
  | '-' :: w => (true, w)
  | w => (false, w)

/-- The digits behind a point, if there is one in front, and what follows them. -/
def splitFraction : List Char → List Char × List Char
  | '.' :: w => (w.takeWhile Char.isDigit, w.dropWhile Char.isDigit)
  | w => ([], w)

/-- Reads what follows the digits of a number: nothing, or an `e` and then one or more digits,
    with a sign or without. -/
def readExponent? : List Char → Option ℤ
  | [] => some 0
  | c :: w =>
    let (negative, digits) := splitSign w
    let power : ℤ := natOfDigits (digits.filterMap digit?)
    if c.toLower = 'e' ∧ digits ≠ [] ∧ digits.all Char.isDigit then
      some (if negative then -power else power)
    else
      none

/-- Reads digits with at most one point among them, and an exponent behind them or none. The
    number is rounded once. -/
def readDigits? (w : List Char) : Option Float :=
  let whole := w.takeWhile Char.isDigit
  let (fraction, rest) := splitFraction (w.dropWhile Char.isDigit)
  if whole = [] ∧ fraction = [] then
    none
  else
    (readExponent? rest).map fun power =>
      rounded (natOfDigits ((whole ++ fraction).filterMap digit?) *
        10 ^ (power - (fraction.length : ℤ)))

/-- Reads the words for what is no finite number, in whichever case their letters are. -/
def readWord? (w : List Char) : Option Float :=
  match w.map Char.toLower with
  | ['i', 'n', 'f'] => some .inf
  | ['i', 'n', 'f', 'i', 'n', 'i', 't', 'y'] => some .inf
  | ['n', 'a', 'n'] => some .nan
  | _ => none

/-- The number, or its negative. -/
def withSign (negative : Bool) (x : Float) : Float := if negative then -x else x

/-- Reads a binary64 number as it may be written in general: one optional sign, and then either
    digits, with a point and an exponent or without, or a word. -/
def readFloat? (w : List Char) : Option Float :=
  let (negative, w) := splitSign w
  ((readDigits? w).or (readWord? w)).map (withSign negative)

/-! ## Decimal numbers -/

/-- A decimal number without a sign. -/
inductive IsDecimal : Word → Prop
  /-- One or more digits. -/
  | whole {ds : Word} (hne : ds ≠ []) (hds : ∀ c ∈ ds, c.isDigit) : IsDecimal ds
  /-- One or more digits, then a point, then any number of digits. -/
  | point {ds es : Word} (hne : ds ≠ []) (hds : ∀ c ∈ ds, c.isDigit) (hes : ∀ c ∈ es, c.isDigit) :
    IsDecimal (ds ++ '.' :: es)
  /-- A point, then one or more digits. -/
  | fraction {es : Word} (hne : es ≠ []) (hes : ∀ c ∈ es, c.isDigit) : IsDecimal ('.' :: es)

/-- A decimal number with at most one sign in front. -/
inductive IsHeading : Word → Prop
  | unsigned {w : Word} (h : IsDecimal w) : IsHeading w
  | plus {w : Word} (h : IsDecimal w) : IsHeading ('+' :: w)
  | minus {w : Word} (h : IsDecimal w) : IsHeading ('-' :: w)

section

variable {c : Char} {negative : Bool} {d : Decimal} {w es : Word}

/-- Nothing is left if there was nothing, or nothing but a point and digits. -/
theorem splitFraction_eq_iff : splitFraction w = (es, []) ↔
    w = [] ∧ es = [] ∨ w = '.' :: es ∧ ∀ c ∈ es, c.isDigit := by
  unfold splitFraction
  split
  · next w =>
    rw [Prod.mk.injEq, List.dropWhile_eq_nil_iff]
    constructor
    · rintro ⟨rfl, hall⟩
      rw [List.takeWhile_eq_self_iff.2 hall]
      exact .inr ⟨rfl, hall⟩
    · rintro (⟨hnil, -⟩ | ⟨hcons, hall⟩)
      · cases hnil
      · obtain rfl := (List.cons.inj hcons).2
        exact ⟨List.takeWhile_eq_self_iff.2 hall, hall⟩
  · next hpoint =>
    rw [Prod.mk.injEq]
    constructor
    · rintro ⟨rfl, rfl⟩
      exact .inl ⟨rfl, rfl⟩
    · rintro (⟨rfl, rfl⟩ | ⟨rfl, -⟩)
      · exact ⟨rfl, rfl⟩
      · exact absurd rfl (hpoint es)

theorem mem_of_splitFraction (w : Word) :
    (∀ c ∈ (splitFraction w).1, c.isDigit) ∧ ∀ c ∈ (splitFraction w).2, c ∈ w := by
  unfold splitFraction
  split
  · exact ⟨fun c hc => List.mem_takeWhile_imp hc,
      fun c hc => List.mem_cons_of_mem _ ((List.dropWhile_sublist _).subset hc)⟩
  · exact ⟨nofun, fun c hc => hc⟩

/-- Digits with a point among them are read as a decimal number if nothing is left behind them. -/
theorem unsigned?_eq (negative : Bool) (w : Word) : Decimal.unsigned? negative w =
    let ds := w.takeWhile Char.isDigit
    let (es, rest) := splitFraction (w.dropWhile Char.isDigit)
    if ds = [] ∧ es = [] then none
    else if rest = [] then
      some (.ofParts negative (ds.filterMap digit?) (es.filterMap digit?))
    else none := by
  rw [Decimal.unsigned?]
  generalize w.takeWhile Char.isDigit = ds
  cases w.dropWhile Char.isDigit with
  | nil => simp [splitFraction]
  | cons c es =>
    by_cases hpoint : c = '.'
    · subst hpoint
      simp only [splitFraction, List.dropWhile_eq_nil_iff]
      by_cases hall : ∀ c ∈ es, c.isDigit
      · have htake : es.takeWhile Char.isDigit = es := List.takeWhile_eq_self_iff.2 hall
        by_cases hempty : ds = [] ∧ es = []
        · simp [hempty]
        · simp [htake, hempty]
      · simp [hall]
    · have hsplit : splitFraction (c :: es) = ([], c :: es) := by
        rw [splitFraction]
        exact fun w h => hpoint (List.cons.inj h).1
      simp [hsplit, hpoint]

/-- A decimal number has digits, before the point or behind it, and nothing else. -/
theorem isDecimal_iff_split : IsDecimal w ↔ ∃ es,
    splitFraction (w.dropWhile Char.isDigit) = (es, []) ∧
      ¬ (w.takeWhile Char.isDigit = [] ∧ es = []) := by
  simp only [splitFraction_eq_iff]
  constructor
  · intro h
    cases h with
    | whole hne hds =>
      rw [List.takeWhile_eq_self_iff.2 hds, List.dropWhile_eq_nil_iff.2 hds]
      exact ⟨[], .inl ⟨rfl, rfl⟩, fun hempty => hne hempty.1⟩
    | @point ds es hne hds hes =>
      rw [takeWhile_append_cons hds (by decide), dropWhile_append_cons hds (by decide)]
      exact ⟨es, .inr ⟨rfl, hes⟩, fun hempty => hne hempty.1⟩
    | @fraction es hne hes => exact ⟨es, .inr ⟨rfl, hes⟩, fun hempty => hne hempty.2⟩
  · have hsplit := w.takeWhile_append_dropWhile (p := Char.isDigit)
    have hds : ∀ c ∈ w.takeWhile Char.isDigit, c.isDigit := fun c hc => List.mem_takeWhile_imp hc
    generalize w.takeWhile Char.isDigit = ds at *
    rintro ⟨es, ⟨hrest, rfl⟩ | ⟨hrest, hes⟩, hne⟩
    · rw [hrest, List.append_nil] at hsplit
      subst hsplit
      exact .whole (fun hnil => hne ⟨hnil, rfl⟩) hds
    · rw [hrest] at hsplit
      subst hsplit
      cases ds with
      | nil => exact .fraction (fun hnil => hne ⟨rfl, hnil⟩) hes
      | cons c ds => exact .point (List.cons_ne_nil c ds) hds hes

/-- What is read as a number without a sign are the decimal numbers. -/
theorem isDecimal_iff (negative : Bool) :
    IsDecimal w ↔ ∃ d, Decimal.unsigned? negative w = some d := by
  rw [isDecimal_iff_split, unsigned?_eq]
  obtain ⟨es, rest⟩ := splitFraction (w.dropWhile Char.isDigit)
  generalize w.takeWhile Char.isDigit = ds
  dsimp only
  split_ifs with hempty hrest
  · simp [hempty]
  · simpa [hrest] using hempty
  · simp [hrest]

theorem read?_eq_unsigned? (w : Word) :
    Decimal.read? w = Decimal.unsigned? (splitSign w).1 (splitSign w).2 := by
  unfold Decimal.read?
  split
  · rfl
  · rfl
  · next hplus hminus => rw [splitSign] <;> assumption

/-- The decimal numbers that are read, with a sign or without, are the headings. -/
theorem isHeading_iff : IsHeading w ↔ ∃ d, Decimal.read? w = some d := by
  constructor
  · intro h
    cases h with
    | unsigned h =>
      obtain ⟨d, hd⟩ := (isDecimal_iff false).1 h
      refine ⟨d, ?_⟩
      unfold Decimal.read?
      -- A decimal number does not begin with a sign.
      split
      · exact absurd (mem_of_unsigned? hd '+' List.mem_cons_self) (by decide)
      · exact absurd (mem_of_unsigned? hd '-' List.mem_cons_self) (by decide)
      · exact hd
    | plus h => exact (isDecimal_iff false).1 h
    | minus h => exact (isDecimal_iff true).1 h
  · rintro ⟨d, h⟩
    unfold Decimal.read? at h
    split at h
    · exact .plus ((isDecimal_iff false).2 ⟨d, h⟩)
    · exact .minus ((isDecimal_iff true).2 ⟨d, h⟩)
    · exact .unsigned ((isDecimal_iff false).2 ⟨d, h⟩)

instance : DecidablePred IsHeading := fun w =>
  decidable_of_iff ((Decimal.read? w).isSome) (by rw [isHeading_iff, Option.isSome_iff_exists])

theorem isHeadingSymbol_of_unsigned? (h : Decimal.unsigned? negative w = some d) :
    ∀ c ∈ w, isHeadingSymbol c := by
  intro c hc
  rcases mem_of_unsigned? h c hc with hdigit | rfl
  · simp [isHeadingSymbol, hdigit]
  · rfl

theorem isHeadingSymbol_of_read? (h : Decimal.read? w = some d) : ∀ c ∈ w, isHeadingSymbol c := by
  unfold Decimal.read? at h
  split at h
  · exact List.forall_mem_cons.2 ⟨rfl, isHeadingSymbol_of_unsigned? h⟩
  · exact List.forall_mem_cons.2 ⟨rfl, isHeadingSymbol_of_unsigned? h⟩
  · exact isHeadingSymbol_of_unsigned? h

/-! ## Headings as numbers -/

/-- A decimal number is rounded once, whatever its length. -/
theorem Decimal.toFloat_eq_rounded (d : Decimal) : d.toFloat =
    withSign d.negative (rounded (d.digits / 10 ^ d.places)) := by
  rw [Decimal.toFloat, ofScientific_eq]
  rfl

theorem toFloat_ofParts (negative : Bool) (ds : Word) (hes : ∀ c ∈ es, c.isDigit) :
    (Decimal.ofParts negative (ds.filterMap digit?) (es.filterMap digit?)).toFloat =
      withSign negative
        (rounded (natOfDigits ((ds ++ es).filterMap digit?) * 10 ^ (0 - (es.length : ℤ)))) := by
  have hlength : (es.filterMap digit?).length = es.length :=
    List.filterMap_length_eq_length.2 fun c hc => by simp [digit?, hes c hc]
  rw [Decimal.toFloat_eq_rounded, Decimal.ofParts, ← List.filterMap_append, hlength, zero_sub,
    zpow_neg, zpow_natCast, ← div_eq_mul_inv]

theorem toLower_of_isHeadingSymbol (h : isHeadingSymbol c) : c.toLower = c := by
  simp only [isHeadingSymbol, decide_eq_true_eq] at h
  rcases h with rfl | rfl | rfl | h
  · rfl
  · rfl
  · rfl
  · refine Char.toLower_eq_of_not_isUpper fun hupper => ?_
    simp only [Char.isDigit, Char.isUpper, Bool.and_eq_true, decide_eq_true_eq] at h hupper
    exact absurd (UInt32.le_trans hupper.1 h.2) (by decide)

/-- There is no exponent without a letter. -/
theorem readExponent?_literal (h : ∀ c ∈ w, isHeadingSymbol c) :
    readExponent? w = if w = [] then some 0 else none := by
  cases w with
  | nil => rfl
  | cons c w =>
    have hc : isHeadingSymbol c := h c List.mem_cons_self
    have hletter : c.toLower ≠ 'e' := by
      rw [toLower_of_isHeadingSymbol hc]
      rintro rfl
      exact absurd hc (by decide)
    simp [readExponent?, hletter]

theorem readWord?_literal (h : ∀ c ∈ w, isHeadingSymbol c) : readWord? w = none := by
  have hlower : w.map Char.toLower = w :=
    (List.map_congr_left fun c hc => toLower_of_isHeadingSymbol (h c hc)).trans (List.map_id w)
  rw [readWord?, hlower]
  split
  · exact absurd (h 'i' List.mem_cons_self) (by decide)
  · exact absurd (h 'i' List.mem_cons_self) (by decide)
  · exact absurd (h 'n' List.mem_cons_self) (by decide)
  · rfl

theorem readDigits?_literal (h : ∀ c ∈ w, isHeadingSymbol c) (negative : Bool) :
    (readDigits? w).map (withSign negative) =
      (Decimal.unsigned? negative w).map Decimal.toFloat := by
  have hrest : ∀ c ∈ w.dropWhile Char.isDigit, isHeadingSymbol c :=
    fun c hc => h c ((List.dropWhile_sublist _).subset hc)
  obtain ⟨hfraction, hleft⟩ := mem_of_splitFraction (w.dropWhile Char.isDigit)
  rw [readDigits?, unsigned?_eq]
  generalize splitFraction (w.dropWhile Char.isDigit) = parts at *
  obtain ⟨es, rest⟩ := parts
  dsimp only at *
  rw [readExponent?_literal fun c hc => hrest c (hleft c hc)]
  split_ifs
  · rfl
  · simp only [Option.map_some, toFloat_ofParts negative _ hfraction]
  · rfl

/-- Without letters, no more is read than decimal numbers. -/
theorem readFloat?_literal (h : ∀ c ∈ w, isHeadingSymbol c) :
    readFloat? w = (Decimal.read? w).map Decimal.toFloat := by
  have hunsigned : ∀ c ∈ (splitSign w).2, isHeadingSymbol c := by
    unfold splitSign
    split
    · exact fun c hc => h c (List.mem_cons_of_mem _ hc)
    · exact fun c hc => h c (List.mem_cons_of_mem _ hc)
    · exact h
  rw [read?_eq_unsigned?, ← readDigits?_literal hunsigned, readFloat?]
  dsimp only
  rw [readWord?_literal hunsigned, Option.or_none]

end

/-! ## Headings in a word -/

/-- The first `)` behind the position `start` is the one at `close`. -/
structure ClosedAt (w : Word) (start close : ℕ) : Prop where
  lt : start < close
  closes : w[close]? = some ')'
  first : ∀ p, start < p → p < close → w[p]? ≠ some ')'

/-- What stands between the symbols at two positions. -/
def enclosed (w : Word) (start close : ℕ) : Word := w.extract (start + 1) close

section

variable {w literal tail : Word} {start close : ℕ} {d : Decimal}

theorem getElem?_of_drop (h : w.drop (start + 1) = literal ++ ')' :: tail) (k : ℕ) :
    w[start + 1 + k]? = (literal ++ ')' :: tail)[k]? := by
  rw [← h, List.getElem?_drop]

theorem enclosed_of_drop (h : w.drop (start + 1) = literal ++ ')' :: tail) :
    enclosed w start (start + 1 + literal.length) = literal := by
  rw [enclosed, List.extract_eq_take_drop, h, Nat.add_sub_cancel_left, List.take_left]

theorem closedAt_of_drop (h : w.drop (start + 1) = literal ++ ')' :: tail)
    (hliteral : ')' ∉ literal) : ClosedAt w start (start + 1 + literal.length) where
  lt := by omega
  closes := by
    rw [getElem?_of_drop h, List.getElem?_append_right le_rfl, Nat.sub_self]
    rfl
  first p hstart hclose := by
    obtain ⟨k, rfl⟩ := Nat.exists_eq_add_of_le (Nat.succ_le_of_lt hstart)
    rw [Nat.succ_eq_add_one, getElem?_of_drop h, List.getElem?_append_left (by omega)]
    exact fun hmem => hliteral (List.mem_of_getElem? hmem)

theorem ClosedAt.drop_eq (h : ClosedAt w start close) :
    w.drop (start + 1) = enclosed w start close ++ ')' :: w.drop (close + 1) ∧
      close = start + 1 + (enclosed w start close).length := by
  obtain ⟨k, rfl⟩ := Nat.exists_eq_add_of_le (Nat.succ_le_of_lt h.lt)
  obtain ⟨hlt, hget⟩ := List.getElem?_eq_some_iff.1 h.closes
  have henclosed : enclosed w start (start.succ + k) = (w.drop (start + 1)).take k := by
    rw [enclosed, List.extract_eq_take_drop, Nat.succ_eq_add_one, Nat.add_sub_cancel_left]
  have hdrop : (w.drop (start + 1)).drop k = ')' :: w.drop (start.succ + k + 1) := by
    rw [List.drop_drop, ← hget, List.getElem_cons_drop]
  constructor
  · rw [henclosed, ← hdrop, List.take_append_drop]
  · rw [henclosed, List.length_take, List.length_drop]
    omega

/-- A heading is read from what stands before the first `)`. -/
theorem headingAt_eq_ok_iff_read? : headingAt w start = .ok (d, close) ↔
    ClosedAt w start close ∧ Decimal.read? (enclosed w start close) = some d := by
  rw [headingAt_eq_ok_iff]
  constructor
  · rintro ⟨length, hlit, rfl⟩
    obtain ⟨literal, tail, hdrop, rfl, hliteral, hread⟩ := headingLiteral?_eq_some hlit
    rw [enclosed_of_drop hdrop]
    exact ⟨closedAt_of_drop hdrop fun hmem => absurd (hliteral _ hmem) (by decide), hread⟩
  · rintro ⟨hclosed, hread⟩
    obtain ⟨hdrop, hclose⟩ := hclosed.drop_eq
    refine ⟨_, ?_, hclose⟩
    rw [hdrop]
    exact headingLiteral?_append (isHeadingSymbol_of_read? hread) hread _

theorem headingAt_eq_error {e : Error} (h : headingAt w start = .error e) :
    e = .configuration .malformedHeading := by
  unfold headingAt headingFrom at h
  split at h
  · cases h
  · exact (Except.error.inj h).symm

theorem commandsFrom_of_headingAt (hopen : w[start]? = some '(')
    (h : headingAt w start = .ok (d, close)) :
    commandsFrom start (w.drop start) =
      ⟨start, .face d⟩ :: commandsFrom (close + 1) (w.drop (close + 1)) := by
  obtain ⟨hclosed, hread⟩ := headingAt_eq_ok_iff_read?.1 h
  obtain ⟨hdrop, hclose⟩ := hclosed.drop_eq
  obtain ⟨hlt, hget⟩ := List.getElem?_eq_some_iff.1 hopen
  have hposition : start + (enclosed w start close).length + 2 = close + 1 := by omega
  rw [List.drop_eq_getElem_cons hlt, hget, hdrop,
    commandsFrom_heading (isHeadingSymbol_of_read? hread) hread, hposition]

end

/-! ## The scan -/

/-- Goes over the symbols that headings are written with, as far as they reach from the
    position `first` on, and reads them as any number if a `)` follows. -/
def scanFrom (w : Word) (first : ℕ) : Except Error (Float × ℕ) :=
  let literal := (w.drop first).takeWhile isHeadingSymbol
  let close := first + literal.length
  if literal = [] ∨ w[close]? ≠ some ')' then
    .error (.configuration .malformedHeading)
  else
    match readFloat? literal with
    | some x => .ok (x, close)
    | none => .error (.configuration .malformedHeading)

/-- The scan finds the headings, though it reads them as any number. -/
theorem scanFrom_eq (w : Word) (first : ℕ) :
    scanFrom w first = (headingFrom w first).map fun (d, close) => (d.toFloat, close) := by
  have hsymbols : ∀ c ∈ (w.drop first).takeWhile isHeadingSymbol, isHeadingSymbol c :=
    fun c hc => List.mem_takeWhile_imp hc
  have hstop : ∀ c ∈ ((w.drop first).dropWhile isHeadingSymbol).head?, ¬ isHeadingSymbol c := by
    intro c hc
    have hnot := List.head?_dropWhile_not isHeadingSymbol (w.drop first)
    rw [Option.mem_def.1 hc] at hnot
    simpa using hnot
  have hsplit := (w.drop first).takeWhile_append_dropWhile (p := isHeadingSymbol)
  rw [scanFrom, headingFrom]
  generalize (w.drop first).takeWhile isHeadingSymbol = literal at *
  generalize (w.drop first).dropWhile isHeadingSymbol = rest at *
  have hnext : w[first + literal.length]? = rest.head? := by
    rw [← List.getElem?_drop, ← hsplit, List.getElem?_append_right le_rfl, Nat.sub_self,
      List.head?_eq_getElem?]
  rw [hnext, ← hsplit, readFloat?_literal hsymbols]
  by_cases hhead : rest.head? = some ')'
  · obtain ⟨tail, rfl⟩ := List.head?_eq_some_iff.1 hhead
    rw [headingLiteral?_closed hsymbols]
    -- There is no number without symbols.
    cases literal with
    | nil => rfl
    | cons c literal => cases Decimal.read? (c :: literal) <;> simp [Except.map]
  · have hnone : headingLiteral? (literal ++ rest) = none :=
      headingLiteral?_eq_none hsymbols rest fun c hc =>
        ⟨fun heq => hhead (heq ▸ hc), hstop c hc⟩
    rw [hnone]
    exact if_pos (.inr hhead)

/-! ## Moving on -/

/-- Between two instructions the turtle has moved on, or a variable has been taken out where it
    stands. -/
def MovesOn (i j : Instruction) : Prop :=
  i.position < j.position ∨ i.position = j.position ∧ ∃ c, i.command = .idle c

/-- The turtle does not come back to a position that it has left. -/
theorem commandsFrom_pairwise (position : ℕ) (w : Word) :
    (commandsFrom position w).Pairwise MovesOn ∧
      ∀ i ∈ commandsFrom position w, position ≤ i.position := by
  induction position, w using reading_induction with
  | nil position => simp
  | command position c rest command hc ih =>
    obtain ⟨hpairwise, hle⟩ := ih
    rw [commandsFrom_command hc, List.pairwise_cons, List.forall_mem_cons]
    exact ⟨⟨fun j hj => .inl (hle j hj), hpairwise⟩, le_rfl,
      fun j hj => (Nat.le_succ position).trans (hle j hj)⟩
  | heading position literal tail d hliteral hread ih =>
    obtain ⟨hpairwise, hle⟩ := ih
    have hlt : ∀ j ∈ commandsFrom (position + literal.length + 2) tail, position < j.position :=
      fun j hj => Nat.lt_of_lt_of_le (by omega) (hle j hj)
    rw [commandsFrom_heading hliteral hread, List.pairwise_cons, List.forall_mem_cons]
    exact ⟨⟨fun j hj => .inl (hlt j hj), hpairwise⟩, le_rfl, fun j hj => (hlt j hj).le⟩
  | malformed position rest h => simp [commandsFrom_malformed h]
  | idle position c rest hc ih =>
    obtain ⟨hpairwise, hle⟩ := ih
    rw [commandsFrom_variable hc, List.pairwise_cons, List.forall_mem_cons]
    exact ⟨⟨fun j hj => (hle j hj).lt_or_eq.imp_right fun heq => ⟨heq, c, rfl⟩, hpairwise⟩,
      le_rfl, hle⟩

/-! ## What is accepted -/

section

variable {w : Word} {start close : ℕ} {d : Decimal}

theorem exists_headingAt_iff {x : Float} :
    (∃ d, headingAt w start = .ok (d, close) ∧ d.toFloat = x) ↔
      ClosedAt w start close ∧ IsHeading (enclosed w start close) ∧
        readFloat? (enclosed w start close) = some x := by
  simp only [headingAt_eq_ok_iff_read?]
  constructor
  · rintro ⟨d, ⟨hclosed, hread⟩, rfl⟩
    refine ⟨hclosed, isHeading_iff.2 ⟨d, hread⟩, ?_⟩
    rw [readFloat?_literal (isHeadingSymbol_of_read? hread), hread, Option.map_some]
  · rintro ⟨hclosed, hheading, hx⟩
    obtain ⟨d, hread⟩ := isHeading_iff.1 hheading
    rw [readFloat?_literal (isHeadingSymbol_of_read? hread), hread, Option.map_some] at hx
    exact ⟨d, ⟨hclosed, hread⟩, Option.some.inj hx⟩

theorem headingAt_eq_error_iff {e : Error} : headingAt w start = .error e ↔
    e = .configuration .malformedHeading ∧
      ∀ close, ClosedAt w start close → ¬ IsHeading (enclosed w start close) := by
  constructor
  · intro h
    refine ⟨headingAt_eq_error h, fun close hclosed hheading => ?_⟩
    obtain ⟨d, hread⟩ := isHeading_iff.1 hheading
    rw [headingAt_eq_ok_iff_read?.2 ⟨hclosed, hread⟩] at h
    cases h
  · rintro ⟨rfl, hno⟩
    cases h : headingAt w start with
    | error e => rw [headingAt_eq_error h]
    | ok result =>
      obtain ⟨hclosed, hread⟩ := headingAt_eq_ok_iff_read?.1 h
      exact absurd (isHeading_iff.2 ⟨_, hread⟩) (hno _ hclosed)

/-- There is something between the parentheses. -/
theorem le_of_headingAt (h : headingAt w start = .ok (d, close)) : start + 2 ≤ close := by
  obtain ⟨hclosed, hread⟩ := headingAt_eq_ok_iff_read?.1 h
  obtain ⟨-, hclose⟩ := hclosed.drop_eq
  have hpos : 0 < (enclosed w start close).length := by
    refine List.length_pos_iff.2 fun hnil => ?_
    rw [hnil] at hread
    cases hread
  omega

end

/-- A machine word tells a position like any number, as long as there is a greater one. -/
theorem parseHeading_eq_headingAt (w : Word) {start : UInt64}
    (h : start.toNat + 1 < UInt64.size) : parseHeading w start = headingAt w start.toNat := by
  have hnext : (start + 1).toNat = start.toNat + 1 := by
    rw [UInt64.toNat_add]
    exact Nat.mod_eq_of_lt h
  rw [parseHeading, headingAt, hnext]

/-- **Headings.** At any position that a machine word tells, unless it is the greatest machine word,
    a heading is read exactly if what stands between the position and the first `)` behind it is a
    decimal number, with one sign or without, and the heading is the binary64 number that this text
    stands for. In every other case it is malformed. A scan that goes over the symbols of headings,
    and has them read as any number, comes to the same. The `)` is two positions away at least and
    the turtle goes on behind it, so that it never comes back to a position that it has left. -/
theorem parseHeading_iff_isHeading (w : Word) (start : UInt64)
    (hstart : start.toNat + 1 < UInt64.size) :
    (∀ x close, (∃ d, parseHeading w start = .ok (d, close) ∧ d.toFloat = x) ↔
      ClosedAt w start.toNat close ∧ IsHeading (enclosed w start.toNat close) ∧
        readFloat? (enclosed w start.toNat close) = some x) ∧
    (∀ e, parseHeading w start = .error e ↔ e = .configuration .malformedHeading ∧
      ∀ close, ClosedAt w start.toNat close → ¬ IsHeading (enclosed w start.toNat close)) ∧
    scanFrom w (start.toNat + 1) =
      (parseHeading w start).map (fun (d, close) => (d.toFloat, close)) ∧
    (∀ d close, parseHeading w start = .ok (d, close) → start.toNat + 2 ≤ close ∧
      (w[start.toNat]? = some '(' → commandsFrom start.toNat (w.drop start.toNat) =
        ⟨start.toNat, .face d⟩ :: commandsFrom (close + 1) (w.drop (close + 1)))) ∧
    (commands w).Pairwise MovesOn := by
  rw [parseHeading_eq_headingAt w hstart]
  refine ⟨fun _ _ => exists_headingAt_iff, fun _ => headingAt_eq_error_iff, scanFrom_eq w _,
    fun d close h => ?_, (commandsFrom_pairwise 0 w.cancelTurns).1⟩
  exact ⟨le_of_headingAt h, fun hopen => commandsFrom_of_headingAt hopen h⟩

/-- A number with a sign is a heading. A number with an exponent is none, though it is read. -/
theorem parseHeading_iff_isHeading_exponent :
    (ClosedAt ['F', '(', '-', '2', '2', '.', '5', ')', ')'] 1 7 ∧
      IsHeading ['-', '2', '2', '.', '5'] ∧
      readFloat? ['-', '2', '2', '.', '5'] = some (-22.5)) ∧
    (readFloat? ['5', 'e', '1']).isSome ∧
      parseHeading ['(', '5', 'e', '1', ')'] 0 = .error (.configuration .malformedHeading) := by
  obtain ⟨hok, -⟩ :=
    parseHeading_iff_isHeading ['F', '(', '-', '2', '2', '.', '5', ')', ')'] 1 (by decide)
  obtain ⟨-, herror, -⟩ := parseHeading_iff_isHeading ['(', '5', 'e', '1', ')'] 0 (by decide)
  refine ⟨(hok (-22.5) 7).1 ⟨⟨true, 225, 1⟩, rfl, rfl⟩, rfl, (herror _).2 ⟨rfl, fun close h => ?_⟩⟩
  obtain rfl : close = 4 := by
    have hlt : close < 5 := (List.getElem?_eq_some_iff.1 h.closes).1
    have hclose := h.closes
    interval_cases close <;> first | rfl | exact absurd hclose (by decide)
  decide

/-- Behind the greatest machine word the reading starts over, and finds a heading in front of a `)`
    that does not come behind any position told by that word. -/
theorem parseHeading_overflow :
    parseHeading ['5', ')'] 18446744073709551615 = .ok (⟨false, 5, 0⟩, 1) ∧
      ∀ close, ¬ ClosedAt ['5', ')'] (18446744073709551615 : UInt64).toNat close := by
  refine ⟨rfl, fun close h => ?_⟩
  have hclose : close < 2 := (List.getElem?_eq_some_iff.1 h.closes).1
  have hstart : 18446744073709551615 < close := h.lt
  omega

end Lindenmayer

import Lindenmayer.Json.Parser
import Lindenmayer.Json.Printer
import Lindenmayer.Proofs.Digits

/-!
# Documents read back

What is written is read back: the text of a value is the text of no other value
(`parse?_render`). The numbers in it have to be numbers as they are written
(`Number.IsWritten`), which begin with a zero only if nothing else stands before the point.

A part of a document is read no further than its end. For that, what follows a number must
not look like more of it; in a document a comma or a bracket follows (`Delimited`). Values
are read with as many steps as their text has characters, or more.
-/

namespace Lindenmayer.Json

/-! ## Numbers -/

/-- A number as it is written. -/
structure Number.IsWritten (n : Number) : Prop where
  whole : IsWhole n.whole

/-- The text does not begin with a digit. -/
def Undigited (cs : List Char) : Prop := ∀ c ∈ cs.head?, digit? c = none

/-- What follows a value in a document: nothing, a comma or a closing bracket. -/
def Delimited (cs : List Char) : Prop := ∀ c ∈ cs.head?, c = ',' ∨ c = ']' ∨ c = '\x7d'

theorem Delimited.nil : Delimited [] := nofun

theorem Delimited.undigited {cs : List Char} (h : Delimited cs) : Undigited cs := by
  intro c hc
  rcases h c hc with rfl | rfl | rfl <;> decide

theorem spanDigits_digitsText (ds : List Digit) {rest : List Char} (h : Undigited rest) :
    spanDigits (digitsText ds ++ rest) = (ds, rest) := by
  induction ds with
  | nil =>
    cases rest with
    | nil => rfl
    | cons c rest => simp [digitsText, spanDigits, h c rfl]
  | cons d ds ih =>
    rw [digitsText] at ih ⊢
    rw [List.map_cons, List.cons_append, spanDigits, digit?_digitChar, ih]

theorem whole?_digitsText {ds : List Digit} {rest : List Char} (hds : IsWhole ds)
    (h : Undigited rest) : whole? (digitsText ds ++ rest) = some (ds, rest) := by
  rw [whole?, spanDigits_digitsText ds h]
  cases hds with
  | single d => rfl
  | @leading d ds hd =>
    cases ds with
    | nil => rfl
    | cons => simp [hd]

/-- The text of a fraction. -/
def fractionText (ds : List Digit) : List Char :=
  if ds.isEmpty then [] else '.' :: digitsText ds

theorem fraction?_fractionText (ds : List Digit) {rest : List Char} (h : Undigited rest)
    (hpoint : ∀ c ∈ rest.head?, c ≠ '.') :
    fraction? (fractionText ds ++ rest) = some (ds, rest) := by
  cases ds with
  | nil =>
    cases rest with
    | nil => rfl
    | cons c rest => exact if_neg (hpoint c rfl)
  | cons d ds =>
    change fraction? ('.' :: (digitsText (d :: ds) ++ rest)) = _
    rw [fraction?, if_pos rfl, spanDigits_digitsText _ h]

theorem exponentDigits?_digitsText (negative : Bool) (n : ℕ) {rest : List Char}
    (h : Undigited rest) : exponentDigits? negative (digitsText (digitsOfNat n) ++ rest) =
      some (some (if negative then -(n : ℤ) else n), rest) := by
  rw [exponentDigits?, spanDigits_digitsText _ h]
  have hwhole : IsWhole (digitsOfNat n) := isWhole_digitsOfNat n
  have hvalue : natOfDigits (digitsOfNat n) = n := natOfDigits_digitsOfNat n
  generalize digitsOfNat n = ds at hwhole hvalue
  cases hwhole <;> simp only [hvalue]

theorem exponent?_exponentText (e : Option ℤ) {rest : List Char} (h : Delimited rest) :
    exponent? ((e.map exponentText).getD [] ++ rest) = some (e, rest) := by
  cases e with
  | none =>
    cases rest with
    | nil => rfl
    | cons c rest =>
      have hc : ¬ (c = 'e' ∨ c = 'E') := by
        rcases h c rfl with rfl | rfl | rfl <;> decide
      exact if_neg hc
  | some e =>
    rcases lt_or_ge e 0 with he | he
    · have hvalue : -|e| = e := by rw [abs_of_neg he, neg_neg]
      simp [exponent?, exponentText, he, exponentDigits?_digitsText true _ h.undigited, hvalue]
    · have hvalue : (e.natAbs : ℤ) = e := by omega
      simp [exponent?, exponentText, he.not_gt, exponentDigits?_digitsText false _ h.undigited,
        hvalue]

/-- What stands behind the digits before the point is no digit. -/
theorem undigited_fractionText (ds : List Digit) {rest : List Char} (h : Undigited rest) :
    Undigited (fractionText ds ++ rest) := by
  cases ds with
  | nil => exact h
  | cons d ds =>
    intro c hc
    obtain rfl : '.' = c := Option.some.inj hc
    rfl

theorem number?_unsigned {n : Number} {rest : List Char} (hn : n.IsWritten) (h : Delimited rest) :
    unsignedNumber? n.negative (digitsText n.whole ++ (fractionText n.fraction ++
      ((n.exponent.map exponentText).getD [] ++ rest))) = some (n, rest) := by
  -- Behind a fraction stands an exponent or what follows the number.
  have hexponent : ∀ c ∈ ((n.exponent.map exponentText).getD [] ++ rest).head?,
      digit? c = none ∧ c ≠ '.' := by
    cases n.exponent with
    | none =>
      intro c hc
      rcases h c hc with rfl | rfl | rfl <;> decide
    | some e =>
      intro c hc
      obtain rfl : 'e' = c := Option.some.inj hc
      decide
  have hundigited : Undigited ((n.exponent.map exponentText).getD [] ++ rest) :=
    fun c hc => (hexponent c hc).1
  simp [unsignedNumber?, whole?_digitsText hn.whole (undigited_fractionText _ hundigited),
    fraction?_fractionText _ hundigited fun c hc => (hexponent c hc).2,
    exponent?_exponentText n.exponent h]

theorem digitChar_ne_minus : ∀ d : Digit, digitChar d ≠ '-' := by
  decide

theorem Number.text_append (n : Number) (rest : List Char) :
    n.text ++ rest = (if n.negative then ['-'] else []) ++ (digitsText n.whole ++
      (fractionText n.fraction ++ ((n.exponent.map exponentText).getD [] ++ rest))) := by
  simp only [Number.text, fractionText, List.append_assoc]

theorem number?_text {n : Number} {rest : List Char} (hn : n.IsWritten) (h : Delimited rest) :
    number? (n.text ++ rest) = some (n, rest) := by
  have hunsigned := number?_unsigned hn h
  rw [Number.text_append]
  cases hnegative : n.negative with
  | true =>
    rw [hnegative] at hunsigned
    exact hunsigned
  | false =>
    rw [hnegative] at hunsigned
    cases hwhole : n.whole with
    | nil => exact absurd (hwhole ▸ hn.whole) nofun
    | cons d ds =>
      rw [hwhole] at hunsigned
      exact (if_neg (digitChar_ne_minus d)).trans hunsigned

/-! ## Strings -/

theorem pieces?_letter {e c : Char} (rest : List Char) (h : unescape? e = some c) :
    pieces? ('\\' :: e :: rest) =
      (pieces? rest).map fun (ps, rest) => (.char c :: ps, rest) := by
  have hu : e ≠ 'u' := by
    rintro rfl
    cases h
  rw [pieces?.eq_def]
  simp only [h, hu, if_false]
  cases pieces? rest <;> rfl

theorem pieces?_code {a b c d : Char} {n : ℕ} (rest : List Char) (h : code? a b c d = some n) :
    pieces? ('\\' :: 'u' :: a :: b :: c :: d :: rest) =
      (pieces? rest).map fun (ps, rest) => (.code n :: ps, rest) := by
  rw [pieces?.eq_def]
  simp only [h]
  cases pieces? rest <;> rfl

theorem pieces?_char {c : Char} (rest : List Char) (hquote : c ≠ '"') (hbackslash : c ≠ '\\')
    (hcontrol : ¬ c.toNat < 0x20) :
    pieces? (c :: rest) = (pieces? rest).map fun (ps, rest) => (.char c :: ps, rest) := by
  rw [pieces?.eq_def]
  simp only [hquote, hbackslash, hcontrol, if_false]
  cases pieces? rest <;> rfl

theorem code?_control : ∀ n < 0x20,
    code? '0' '0' (hexDigit (n / 16)) (hexDigit (n % 16)) = some n := by
  decide

/-- How a character is written: as an escape by one letter, as an escape by its code, or as
    itself. -/
theorem escape_cases (c : Char) :
    (∃ e, escape c = ['\\', e] ∧ unescape? e = some c) ∨
      (escape c = ['\\', 'u', '0', '0', hexDigit (c.toNat / 16), hexDigit (c.toNat % 16)] ∧
        c.toNat < 0x20) ∨
      (escape c = [c] ∧ c ≠ '"' ∧ c ≠ '\\' ∧ ¬ c.toNat < 0x20) := by
  unfold escape
  split_ifs with hquote hbackslash hb ht hn hf hr hcontrol
  rotate_left 7
  · exact .inr (.inl ⟨rfl, hcontrol⟩)
  · exact .inr (.inr ⟨rfl, hquote, hbackslash, hcontrol⟩)
  all_goals
    subst c
    exact .inl ⟨_, rfl, rfl⟩

/-- A character that is written is read as one piece, which denotes it. -/
theorem exists_piece (c : Char) : ∃ p,
    (∀ ps, characters? (p :: ps) = (characters? ps).map (c :: ·)) ∧
      ∀ rest, pieces? (escape c ++ rest) =
        (pieces? rest).map fun (ps, rest) => (p :: ps, rest) := by
  obtain ⟨e, hescape, he⟩ | ⟨hescape, hcontrol⟩ | ⟨hescape, hquote, hbackslash, hcontrol⟩ :=
    escape_cases c
  · exact ⟨.char c, fun _ => rfl, fun rest => hescape ▸ pieces?_letter rest he⟩
  · refine ⟨.code c.toNat, fun ps => ?_, fun rest => hescape ▸ pieces?_code rest ?_⟩
    · -- No surrogate is a control character.
      have hhigh : isHighSurrogate c.toNat = false := by
        simp only [isHighSurrogate, decide_eq_false_iff_not]
        omega
      have hlow : isLowSurrogate c.toNat = false := by
        simp only [isLowSurrogate, decide_eq_false_iff_not]
        omega
      rw [characters?.eq_def]
      simp only [hhigh, hlow, Bool.false_eq_true, if_false, Char.ofNat_toNat]
    · exact code?_control c.toNat hcontrol
  · exact ⟨.char c, fun _ => rfl,
      fun rest => hescape ▸ pieces?_char rest hquote hbackslash hcontrol⟩

theorem text?_textBody (t : Option String) (rest : List Char) :
    text? (textBody t ++ '"' :: rest) = some (t, rest) := by
  have hquote : pieces? ('"' :: rest) = some ([], rest) := by
    rw [pieces?.eq_def]
    exact if_pos rfl
  cases t with
  | none =>
    have hsurrogate := pieces?_code (a := 'd') (b := '8') (c := '0') (d := '0') ('"' :: rest) rfl
    rw [hquote] at hsurrogate
    exact congrArg (Option.map _) hsurrogate
  | some s =>
    have hpieces : ∀ cs : List Char, ∃ ps, characters? ps = some cs ∧
        pieces? (cs.flatMap escape ++ '"' :: rest) = some (ps, rest) := by
      intro cs
      induction cs with
      | nil => exact ⟨[], rfl, hquote⟩
      | cons c cs ih =>
        obtain ⟨ps, hchars, hread⟩ := ih
        obtain ⟨p, hp, hpread⟩ := exists_piece c
        refine ⟨p :: ps, by rw [hp, hchars, Option.map_some], ?_⟩
        rw [List.flatMap_cons, List.append_assoc, hpread, hread, Option.map_some]
    obtain ⟨ps, hchars, hread⟩ := hpieces s.toList
    simp only [text?, textBody, hread, Option.map_some, hchars, String.ofList_toList]

/-! ## Values -/

/-- A value with numbers as they are written. -/
inductive IsWritten : Json → Prop
  | null : IsWritten .null
  | bool (b : Bool) : IsWritten (.bool b)
  | number {n : Number} (h : n.IsWritten) : IsWritten (.number n)
  | string (t : Option String) : IsWritten (.string t)
  | array {items : List Json} (h : ∀ j ∈ items, IsWritten j) : IsWritten (.array items)
  | object {members : List (Option String × Json)} (h : ∀ m ∈ members, IsWritten m.2) :
    IsWritten (.object members)

/-- The text of the value is read as the value, up to its end. -/
def ReadsBack (j : Json) : Prop :=
  ∀ {fuel rest}, (print j).length ≤ fuel → Delimited rest →
    value? fuel (print j ++ rest) = some (j, rest)

theorem skipBlank_cons {c : Char} (rest : List Char) (h : isBlank c = false) :
    skipBlank (c :: rest) = c :: rest := by
  rw [skipBlank, List.dropWhile_cons, h]
  rfl

theorem isBlank_digitChar : ∀ d : Digit, isBlank (digitChar d) = false := by
  decide

theorem digitChar_ne_bracket : ∀ d : Digit, digitChar d ≠ ']' := by
  decide

/-- The text of a number begins with its sign or with a digit. -/
theorem exists_text {n : Number} (h : n.IsWritten) :
    ∃ c rest, n.text = c :: rest ∧ (c = '-' ∨ ∃ d, c = digitChar d) := by
  obtain ⟨d, ds, hds⟩ : ∃ d ds, n.whole = d :: ds := by
    cases hwhole : n.whole with
    | nil => exact absurd (hwhole ▸ h.whole) nofun
    | cons d ds => exact ⟨d, ds, rfl⟩
  cases hnegative : n.negative with
  | true =>
    have htext := n.text_append []
    rw [hnegative, List.append_nil] at htext
    exact ⟨'-', _, htext, .inl rfl⟩
  | false =>
    have htext := n.text_append []
    rw [hnegative, hds, List.append_nil] at htext
    exact ⟨digitChar d, _, htext, .inr ⟨d, rfl⟩⟩

/-- A text of a value begins with neither a blank nor the end of an array. -/
theorem exists_print {j : Json} (h : j.IsWritten) :
    ∃ c rest, print j = c :: rest ∧ isBlank c = false ∧ c ≠ ']' := by
  cases h with
  | null => exact ⟨_, _, rfl, by decide, by decide⟩
  | bool b => cases b <;> exact ⟨_, _, rfl, by decide, by decide⟩
  | number hn =>
    obtain ⟨c, rest, htext, rfl | ⟨d, rfl⟩⟩ := exists_text hn
    · exact ⟨_, rest, htext, by decide, by decide⟩
    · exact ⟨_, rest, htext, isBlank_digitChar d, digitChar_ne_bracket d⟩
  | string t => exact ⟨_, _, rfl, by decide, by decide⟩
  | @array items h => cases items <;> exact ⟨_, _, rfl, by decide, by decide⟩
  | @object members h => cases members <;> exact ⟨_, _, rfl, by decide, by decide⟩

/-! ### Arrays -/

theorem delimited_printItems (items : List Json) (rest : List Char) :
    Delimited (printItems items ++ rest) := by
  intro c hc
  cases items with
  | nil => exact .inr (.inl (by simpa [printItems] using hc.symm))
  | cons => exact .inl (by simpa [printItems] using hc.symm)

theorem items?_printItems {items : List Json} (h : ∀ j ∈ items, ReadsBack j) {fuel : ℕ}
    {rest : List Char} (hfuel : (printItems items).length ≤ fuel) :
    items? fuel (printItems items ++ rest) = some (items, rest) := by
  induction items generalizing fuel with
  | nil =>
    cases fuel with
    | zero => exact absurd hfuel (by simp [printItems])
    | succ fuel => rfl
  | cons item items ih =>
    cases fuel with
    | zero => exact absurd hfuel (by simp [printItems])
    | succ fuel =>
      simp only [printItems, List.length_cons, List.length_append] at hfuel
      have hitem : value? fuel (print item ++ (printItems items ++ rest)) =
          some (item, printItems items ++ rest) :=
        h item List.mem_cons_self (by omega) (delimited_printItems items rest)
      have hitems : items? fuel (printItems items ++ rest) = some (items, rest) :=
        ih (fun j hj => h j (List.mem_cons_of_mem _ hj)) (by omega)
      simp only [printItems, List.cons_append, List.append_assoc]
      rw [items?, skipBlank_cons _ (by decide)]
      simp [hitem, hitems]

theorem readsBack_array {items : List Json} (hwritten : ∀ j ∈ items, j.IsWritten)
    (h : ∀ j ∈ items, ReadsBack j) : ReadsBack (.array items) := by
  intro fuel rest hfuel hrest
  cases fuel with
  | zero => cases items <;> exact absurd hfuel (by simp [print])
  | succ fuel =>
    cases items with
    | nil => rfl
    | cons item items =>
      simp only [print, List.length_cons, List.length_append] at hfuel
      have hitem : value? fuel (print item ++ (printItems items ++ rest)) =
          some (item, printItems items ++ rest) :=
        h item List.mem_cons_self (by omega) (delimited_printItems items rest)
      have hitems : items? fuel (printItems items ++ rest) = some (items, rest) :=
        items?_printItems (fun j hj => h j (List.mem_cons_of_mem _ hj)) (by omega)
      obtain ⟨c, cs, hprint, hblank, hend⟩ := exists_print (hwritten item List.mem_cons_self)
      rw [hprint, List.cons_append] at hitem
      simp only [print, hprint, List.cons_append, List.append_assoc]
      rw [value?, skipBlank_cons _ (by decide)]
      simp [skipBlank_cons _ hblank, hend, hitem, hitems]

/-! ### Objects -/

/-- The text of a member. -/
def memberText (m : Option String × Json) : List Char := textLiteral m.1 ++ ':' :: print m.2

theorem printMembers_cons (m : Option String × Json) (members : List (Option String × Json)) :
    printMembers (m :: members) = ',' :: (memberText m ++ printMembers members) := by
  simp [printMembers, memberText]

theorem print_object_cons (m : Option String × Json) (members : List (Option String × Json)) :
    print (.object (m :: members)) = '\x7b' :: (memberText m ++ printMembers members) := by
  simp [print, memberText]

theorem member?_memberText {m : Option String × Json} (h : ReadsBack m.2) {fuel : ℕ}
    {rest : List Char} (hfuel : (memberText m).length ≤ fuel) (hrest : Delimited rest) :
    member? fuel (memberText m ++ rest) = some (m, rest) := by
  obtain ⟨name, value⟩ := m
  cases fuel with
  | zero => exact absurd hfuel (by simp [memberText])
  | succ fuel =>
    have hlength : (print value).length ≤ fuel := by
      simp only [memberText, textLiteral, List.length_cons, List.length_append,
        List.length_nil] at hfuel
      omega
    have hvalue : value? fuel (print value ++ rest) = some (value, rest) := h hlength hrest
    simp only [memberText, textLiteral, List.cons_append, List.append_assoc, List.nil_append]
    rw [member?, skipBlank_cons _ (by decide)]
    simp only [if_true, text?_textBody]
    rw [skipBlank_cons _ (by decide)]
    simp [hvalue]

theorem delimited_printMembers (members : List (Option String × Json)) (rest : List Char) :
    Delimited (printMembers members ++ rest) := by
  intro c hc
  cases members with
  | nil => exact .inr (.inr (by simpa [printMembers] using hc.symm))
  | cons => exact .inl (by simpa [printMembers] using hc.symm)

theorem members?_printMembers {members : List (Option String × Json)}
    (h : ∀ m ∈ members, ReadsBack m.2) {fuel : ℕ} {rest : List Char}
    (hfuel : (printMembers members).length ≤ fuel) :
    members? fuel (printMembers members ++ rest) = some (members, rest) := by
  induction members generalizing fuel with
  | nil =>
    cases fuel with
    | zero => exact absurd hfuel (by simp [printMembers])
    | succ fuel => rfl
  | cons m members ih =>
    rw [printMembers_cons] at hfuel ⊢
    cases fuel with
    | zero => exact absurd hfuel (by simp)
    | succ fuel =>
      simp only [List.length_cons, List.length_append] at hfuel
      have hmember : member? fuel (memberText m ++ (printMembers members ++ rest)) =
          some (m, printMembers members ++ rest) :=
        member?_memberText (h m List.mem_cons_self) (by omega) (delimited_printMembers members rest)
      have hmembers : members? fuel (printMembers members ++ rest) = some (members, rest) :=
        ih (fun m hm => h m (List.mem_cons_of_mem _ hm)) (by omega)
      simp only [List.cons_append, List.append_assoc]
      rw [members?, skipBlank_cons _ (by decide)]
      simp [hmember, hmembers]

theorem readsBack_object {members : List (Option String × Json)}
    (h : ∀ m ∈ members, ReadsBack m.2) : ReadsBack (.object members) := by
  intro fuel rest hfuel hrest
  cases fuel with
  | zero => cases members <;> exact absurd hfuel (by simp [print])
  | succ fuel =>
    cases members with
    | nil => rfl
    | cons m members =>
      rw [print_object_cons] at hfuel ⊢
      simp only [List.length_cons, List.length_append] at hfuel
      have hmember : member? fuel (memberText m ++ (printMembers members ++ rest)) =
          some (m, printMembers members ++ rest) :=
        member?_memberText (h m List.mem_cons_self) (by omega) (delimited_printMembers members rest)
      have hmembers : members? fuel (printMembers members ++ rest) = some (members, rest) :=
        members?_printMembers (fun m hm => h m (List.mem_cons_of_mem _ hm)) (by omega)
      -- A member begins with the quote of its name.
      obtain ⟨cs, hcs⟩ : ∃ cs, memberText m = '"' :: cs := ⟨_, rfl⟩
      rw [hcs, List.cons_append] at hmember
      simp only [hcs, List.cons_append, List.append_assoc]
      rw [value?, skipBlank_cons _ (by decide)]
      simp [skipBlank_cons _ (show isBlank '"' = false by decide), hmember, hmembers]

/-! ### All values -/

theorem digitChar_starts_number : ∀ d : Digit, digitChar d ≠ 'n' ∧ digitChar d ≠ 't' ∧
    digitChar d ≠ 'f' ∧ digitChar d ≠ '"' ∧ digitChar d ≠ '[' ∧ digitChar d ≠ '\x7b' := by
  decide

theorem readsBack_number {n : Number} (hn : n.IsWritten) : ReadsBack (.number n) := by
  intro fuel rest hfuel hrest
  obtain ⟨c, cs, htext, hc⟩ := exists_text hn
  have hfirst : c ≠ 'n' ∧ c ≠ 't' ∧ c ≠ 'f' ∧ c ≠ '"' ∧ c ≠ '[' ∧ c ≠ '\x7b' := by
    rcases hc with rfl | ⟨d, rfl⟩
    · decide
    · exact digitChar_starts_number d
  have hblank : isBlank c = false := by
    rcases hc with rfl | ⟨d, rfl⟩
    · rfl
    · exact isBlank_digitChar d
  obtain ⟨hn', ht, hf, hquote, hbracket, hbrace⟩ := hfirst
  have hnumber : number? (c :: (cs ++ rest)) = some (n, rest) := by
    rw [← List.cons_append, ← htext]
    exact number?_text hn hrest
  rw [print, htext] at hfuel ⊢
  cases fuel with
  | zero => exact absurd hfuel (by simp)
  | succ fuel =>
    have hskip : skipBlank (c :: cs ++ rest) = c :: (cs ++ rest) := skipBlank_cons _ hblank
    simp only [value?, hskip, hn', ht, hf, hquote, hbracket, hbrace, if_false, hnumber]

theorem readsBack_string (t : Option String) : ReadsBack (.string t) := by
  intro fuel rest hfuel hrest
  cases fuel with
  | zero => exact absurd hfuel (by simp [print, textLiteral])
  | succ fuel =>
    simp only [print, textLiteral, List.cons_append, List.append_assoc, List.nil_append]
    rw [value?, skipBlank_cons _ (by decide)]
    simp [text?_textBody]

theorem readsBack {j : Json} (h : j.IsWritten) : ReadsBack j := by
  induction h with
  | null =>
    intro fuel rest hfuel hrest
    cases fuel with
    | zero => exact absurd hfuel (by simp [print])
    | succ fuel => rfl
  | bool b =>
    intro fuel rest hfuel hrest
    cases fuel with
    | zero => cases b <;> exact absurd hfuel (by simp [print])
    | succ fuel => cases b <;> rfl
  | number hn => exact readsBack_number hn
  | string t => exact readsBack_string t
  | array h ih => exact readsBack_array h ih
  | object h ih => exact readsBack_object ih

/-- What is written is read back. -/
theorem parse?_render {j : Json} (h : j.IsWritten) : parse? j.render = some j := by
  have hread : value? ((print j).length + 1) (print j ++ []) = some (j, []) :=
    readsBack h (Nat.le_succ _) .nil
  rw [List.append_nil] at hread
  simp only [parse?, render, String.toList_ofList, parseChars?, hread]
  rfl

end Lindenmayer.Json

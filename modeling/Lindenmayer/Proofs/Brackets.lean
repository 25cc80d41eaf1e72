import Lindenmayer.Word
import Mathlib

/-!
# Brackets

The branches of a word are written in brackets. A word is *balanced* if its
brackets are pairs that nest (`Balanced`), and two brackets of a word are *matched*
if the text between them is balanced (`Matched`).

* `Matched.left_unique`, `Matched.right_unique`: a bracket has at most one partner;
* `Matched.nested`: two pairs are nested or apart;
* `unopened_induction`: a position in front of which no bracket is left open is
  reached from the start over closed branches, unmatched `]` and other symbols;
* `unclosed_induction`: the same from the end, for a position behind which nothing is
  closed that is open there;
* `balanced_iff_height`: whether a word is balanced can be told by counting.

What rules out a second partner is the *height* of a word, by how many more brackets
it opens than it closes: it is zero for a balanced word and never negative for what
a balanced word begins with.
-/

namespace Lindenmayer.Word

/-- A word whose brackets are pairs that nest. Other symbols do not count. -/
inductive Balanced : Word → Prop
  | nil : Balanced []
  | symbol {c : Char} {w : Word} : c ≠ '[' → c ≠ ']' → Balanced w → Balanced (c :: w)
  | branch {u w : Word} : Balanced u → Balanced w → Balanced ('[' :: (u ++ ']' :: w))

theorem Balanced.append {u v : Word} (hu : Balanced u) (hv : Balanced v) :
    Balanced (u ++ v) := by
  induction hu with
  | nil => exact hv
  | symbol ho hc _ ih => exact .symbol ho hc ih
  | branch hx _ _ ih =>
    rw [List.cons_append, List.append_assoc]
    exact .branch hx ih

theorem balanced_of_forall {w : Word} (h : ∀ c ∈ w, c ≠ '[' ∧ c ≠ ']') : Balanced w := by
  induction w with
  | nil => exact .nil
  | cons c w ih =>
    obtain ⟨⟨hopen, hclose⟩, hw⟩ := List.forall_mem_cons.1 h
    exact .symbol hopen hclose (ih hw)

/-! ## Height -/

/-- What a symbol adds to the height. -/
def rise (c : Char) : ℤ := if c = '[' then 1 else if c = ']' then -1 else 0

/-- How many more brackets a word opens than it closes. -/
def height (w : Word) : ℤ := (w.map rise).sum

@[simp] theorem height_nil : height [] = 0 := rfl

@[simp] theorem height_cons (c : Char) (w : Word) : height (c :: w) = rise c + height w := by
  simp [height]

@[simp] theorem height_append (u v : Word) : height (u ++ v) = height u + height v := by
  simp [height]

@[simp] theorem rise_open : rise '[' = 1 := rfl

@[simp] theorem rise_close : rise ']' = -1 := rfl

theorem rise_eq_zero {c : Char} (ho : c ≠ '[') (hc : c ≠ ']') : rise c = 0 := by
  rw [rise, if_neg ho, if_neg hc]

theorem Balanced.height_eq_zero {w : Word} (h : Balanced w) : height w = 0 := by
  induction h with
  | nil => rfl
  | symbol ho hc _ ih => rw [height_cons, rise_eq_zero ho hc, ih, add_zero]
  | branch _ _ ihu ihw => simp [ihu, ihw]

/-- A balanced word closes no bracket that it has not opened. -/
theorem Balanced.height_nonneg {u v : Word} (h : Balanced (u ++ v)) : 0 ≤ height u := by
  generalize hw : u ++ v = w at h
  induction h generalizing u v with
  | nil => simp [(List.append_eq_nil_iff.1 hw).1]
  | symbol ho hc _ ih =>
    cases u with
    | nil => exact le_rfl
    | cons d u =>
      obtain ⟨rfl, htail⟩ := List.cons.inj hw
      rw [height_cons, rise_eq_zero ho hc, zero_add]
      exact ih htail
  | @branch x y hx _ ihx ihy =>
    cases u with
    | nil => exact le_rfl
    | cons d u =>
      obtain ⟨rfl, htail⟩ := List.cons.inj hw
      rw [height_cons, rise_open]
      -- The part ends inside the branch, or behind it.
      rcases List.append_eq_append_iff.1 htail with ⟨s, rfl, _⟩ | ⟨s, rfl, hs⟩
      · have := ihx rfl
        omega
      · cases s with
        | nil =>
          have := hx.height_eq_zero
          simp only [List.append_nil]
          omega
        | cons e s =>
          obtain ⟨rfl, hrest⟩ := List.cons.inj hs
          have h₁ := hx.height_eq_zero
          have h₂ := ihy hrest.symm
          simp only [height_append, height_cons, rise_close]
          omega

/-! ## Matched brackets -/

/-- The symbols of a word strictly between two positions. -/
def between (w : Word) (a b : ℕ) : Word := (w.take b).drop (a + 1)

@[simp] theorem between_self_succ (w : Word) (a : ℕ) : between w a (a + 1) = [] :=
  List.drop_eq_nil_of_le (List.length_take_le _ _)

theorem between_split {w : Word} {a b q : ℕ} {c : Char} (hab : a < b) (hbq : b < q)
    (hc : w[b]? = some c) : between w a q = between w a b ++ c :: between w b q := by
  obtain ⟨hb, rfl⟩ := List.getElem?_eq_some_iff.1 hc
  have hlen : b < (w.take q).length := by rw [List.length_take]; omega
  calc between w a q
      = ((w.take q).take b ++ (w.take q).drop b).drop (a + 1) := by
        rw [List.take_append_drop, between]
    _ = ((w.take q).take b).drop (a + 1) ++ (w.take q).drop b :=
        List.drop_append_of_le_length (by rw [List.length_take]; omega)
    _ = between w a b ++ w[b] :: between w b q := by
        rw [List.drop_eq_getElem_cons hlen, List.take_take, min_eq_left hbq.le,
          List.getElem_take, between, between]

theorem between_succ {w : Word} {a q : ℕ} {c : Char} (haq : a < q) (hc : w[q]? = some c) :
    between w a (q + 1) = between w a q ++ [c] := by
  rw [between_split haq (Nat.lt_succ_self q) hc, between_self_succ]

/-- The `[` at `a` is the innermost bracket left open in front of `pos`. -/
structure IsOpener (w : Word) (a pos : ℕ) : Prop where
  lt : a < pos
  opening : w[a]? = some '['
  balanced : Balanced (between w a pos)

/-- The `]` at `b` is the first bracket behind `pos` that closes more than is opened
    between them. -/
structure IsCloser (w : Word) (pos b : ℕ) : Prop where
  lt : pos < b
  closing : w[b]? = some ']'
  balanced : Balanced (between w pos b)

/-- The `[` at `a` and the `]` at `b` are a pair: the text between them is balanced. -/
structure Matched (w : Word) (a b : ℕ) : Prop where
  lt : a < b
  opening : w[a]? = some '['
  closing : w[b]? = some ']'
  balanced : Balanced (between w a b)

variable {w : Word} {a a' b b' pos : ℕ}

theorem Matched.isOpener (h : Matched w a b) : IsOpener w a b := ⟨h.lt, h.opening, h.balanced⟩

theorem Matched.isCloser (h : Matched w a b) : IsCloser w a b := ⟨h.lt, h.closing, h.balanced⟩

theorem IsOpener.matched (h : IsOpener w a b) (hb : w[b]? = some ']') : Matched w a b :=
  ⟨h.lt, h.opening, hb, h.balanced⟩

theorem IsCloser.matched (h : IsCloser w a b) (ha : w[a]? = some '[') : Matched w a b :=
  ⟨h.lt, ha, h.closing, h.balanced⟩

/-- What stands in front of a position is what stands in front of the bracket left open,
    the bracket, and balanced text. -/
theorem IsOpener.take_eq (h : IsOpener w a pos) (hpos : pos ≤ w.length) :
    w.take pos = w.take a ++ '[' :: between w a pos := by
  obtain ⟨ha, hopen⟩ := List.getElem?_eq_some_iff.1 h.opening
  have hlt := h.lt
  calc w.take pos
      = (w.take pos).take a ++ (w.take pos).drop a := (List.take_append_drop _ _).symm
    _ = w.take a ++ '[' :: between w a pos := by
        rw [List.take_take, min_eq_left hlt.le, between,
          List.drop_eq_getElem_cons (by rw [List.length_take]; omega), List.getElem_take, hopen]

/-- What stands up to the end of a branch is what stands in front of the branch, and the
    branch. -/
theorem Matched.take_succ (h : Matched w a b) :
    w.take (b + 1) = w.take a ++ '[' :: (between w a b ++ [']']) := by
  obtain ⟨hlt, hclose⟩ := List.getElem?_eq_some_iff.1 h.closing
  rw [← List.take_append_getElem hlt, hclose, h.isOpener.take_eq hlt.le]
  simp

/-- Two brackets open in front of a position are not both the innermost one. -/
theorem IsOpener.le (h : IsOpener w a pos) (h' : IsOpener w a' pos) : a' ≤ a := by
  by_contra hle
  have haa' := not_le.1 hle
  have hsplit := between_split haa' h'.lt h'.opening
  -- The text behind the outer bracket is balanced, but would end one higher.
  have hfront : 0 ≤ height (between w a a') := (hsplit ▸ h.balanced).height_nonneg
  have hwhole := h.balanced.height_eq_zero
  rw [hsplit, height_append, height_cons, rise_open, h'.balanced.height_eq_zero] at hwhole
  omega

theorem IsOpener.unique (h : IsOpener w a pos) (h' : IsOpener w a' pos) : a = a' :=
  le_antisymm (h'.le h) (h.le h')

/-- Of two brackets that close what is open at a position, one would be the first. -/
theorem IsCloser.le (h : IsCloser w pos b) (h' : IsCloser w pos b') : b' ≤ b := by
  by_contra hle
  have hbb' := not_le.1 hle
  have hsplit := between_split h.lt hbb' h.closing
  -- Balanced text up to the later bracket would go below zero at the earlier one.
  have hfront : 0 ≤ height (between w pos b ++ [']']) := by
    refine Balanced.height_nonneg (v := between w b b') ?_
    rw [List.append_assoc, List.singleton_append, ← hsplit]
    exact h'.balanced
  rw [height_append, h.balanced.height_eq_zero, height_cons, rise_close, height_nil] at hfront
  omega

theorem IsCloser.unique (h : IsCloser w pos b) (h' : IsCloser w pos b') : b = b' :=
  le_antisymm (h'.le h) (h.le h')

theorem Matched.left_unique (h : Matched w a b) (h' : Matched w a' b) : a = a' :=
  h.isOpener.unique h'.isOpener

theorem Matched.right_unique (h : Matched w a b) (h' : Matched w a b') : b = b' :=
  h.isCloser.unique h'.isCloser

/-- A pair that begins inside another one ends inside it. -/
theorem Matched.nested (h : Matched w a b) (h' : Matched w a' b') (haa' : a < a')
    (ha'b : a' < b) : b' < b := by
  by_contra hle
  rcases Nat.lt_or_eq_of_le (not_lt.1 hle) with hlt | rfl
  · -- The text up to `b` would leave `a'` open, and what `a` opens ends there.
    have hinner := between_split ha'b hlt h.closing
    have houter := between_split haa' ha'b h'.opening
    have hfront : 0 ≤ height (between w a a') := (houter ▸ h.balanced).height_nonneg
    have hwhole := h.balanced.height_eq_zero
    have hback : 0 ≤ height (between w a' b ++ [']']) := by
      refine Balanced.height_nonneg (v := between w b b') ?_
      rw [List.append_assoc, List.singleton_append, ← hinner]
      exact h'.balanced
    rw [houter] at hwhole
    simp only [height_append, height_cons, height_nil, rise_open, rise_close] at hwhole hback
    omega
  · exact haa'.ne (h.left_unique h')

/-! ## Positions with no bracket open -/

theorem IsOpener.succ {c : Char} (h : IsOpener w a pos) (hc : w[pos]? = some c)
    (hopen : c ≠ '[') (hclose : c ≠ ']') : IsOpener w a (pos + 1) where
  lt := h.lt.trans (Nat.lt_succ_self _)
  opening := h.opening
  balanced := by
    rw [between_succ h.lt hc]
    exact h.balanced.append (.symbol hopen hclose .nil)

theorem IsOpener.self_succ (h : w[a]? = some '[') : IsOpener w a (a + 1) :=
  ⟨Nat.lt_succ_self _, h, by rw [between_self_succ]; exact .nil⟩

/-- What is open in front of a branch is open behind it. -/
theorem IsOpener.behind (h : IsOpener w a' a) (hm : Matched w a pos) :
    IsOpener w a' (pos + 1) where
  lt := h.lt.trans (hm.lt.trans (Nat.lt_succ_self _))
  opening := h.opening
  balanced := by
    rw [between_succ (h.lt.trans hm.lt) hm.closing, between_split h.lt hm.lt hm.opening,
      List.append_assoc, List.cons_append]
    exact h.balanced.append (.branch hm.balanced .nil)

theorem IsCloser.pred {c : Char} (h : IsCloser w (pos + 1) b) (hc : w[pos + 1]? = some c)
    (hopen : c ≠ '[') (hclose : c ≠ ']') : IsCloser w pos b where
  lt := (Nat.lt_succ_self _).trans h.lt
  closing := h.closing
  balanced := by
    rw [between_split (Nat.lt_succ_self _) h.lt hc, between_self_succ]
    exact .symbol hopen hclose h.balanced

theorem IsCloser.self_succ (h : w[pos + 1]? = some ']') : IsCloser w pos (pos + 1) :=
  ⟨Nat.lt_succ_self _, h, by rw [between_self_succ]; exact .nil⟩

/-- What closes something open behind a branch closes it in front of the branch. -/
theorem IsCloser.ahead (h : IsCloser w b b') (hm : Matched w (pos + 1) b) :
    IsCloser w pos b' where
  lt := (Nat.lt_succ_self _).trans (hm.lt.trans h.lt)
  closing := h.closing
  balanced := by
    rw [between_split (Nat.lt_succ_self _) (hm.lt.trans h.lt) hm.opening, between_self_succ,
      between_split hm.lt h.lt hm.closing]
    exact .branch hm.balanced h.balanced

/-- A position in front of which no bracket is open is the start of the word, or
    stands behind a symbol that is no bracket, behind a `]` without a partner, or
    behind a branch, and no bracket is open in front of these. -/
theorem unopened_induction {P : ℕ → Prop} (start : P 0)
    (symbol : ∀ pos c, w[pos]? = some c → c ≠ '[' → c ≠ ']' → P pos → P (pos + 1))
    (unmatched : ∀ pos, w[pos]? = some ']' → P pos → P (pos + 1))
    (branch : ∀ a pos, Matched w a pos → P a → P (pos + 1))
    (hpos : pos ≤ w.length) (h : ∀ a, ¬ IsOpener w a pos) : P pos := by
  induction pos using Nat.strong_induction_on with
  | _ pos ih =>
    cases pos with
    | zero => exact start
    | succ pos =>
      have hc : w[pos]? = some w[pos] := List.getElem?_eq_getElem hpos
      by_cases hopen : w[pos] = '['
      · -- Behind a `[` a bracket is open.
        exact absurd (IsOpener.self_succ (hopen ▸ hc)) (h pos)
      by_cases hclose : w[pos] = ']'
      · rw [hclose] at hc
        -- If something is open in front of the `]`, this is the end of a branch.
        by_cases hex : ∃ a, IsOpener w a pos
        · obtain ⟨a, ha⟩ := hex
          have hm := ha.matched hc
          refine branch a pos hm (ih a (ha.lt.trans (Nat.lt_succ_self _)) ?_ fun a' ha' => ?_)
          · have := ha.lt
            omega
          · exact h a' (ha'.behind hm)
        · exact unmatched pos hc
            (ih pos (Nat.lt_succ_self _) (Nat.le_of_succ_le hpos) (not_exists.1 hex))
      · refine symbol pos _ hc hopen hclose
          (ih pos (Nat.lt_succ_self _) (Nat.le_of_succ_le hpos) fun a ha => ?_)
        exact h a (ha.succ hc hopen hclose)

/-- In front of such a position no more brackets are opened than closed. -/
theorem height_take_nonpos (hpos : pos ≤ w.length) (h : ∀ a, ¬ IsOpener w a pos) :
    height (w.take pos) ≤ 0 := by
  refine unopened_induction (P := fun pos => height (w.take pos) ≤ 0) (by simp) ?symbol
    ?unmatched ?branch hpos h
  case symbol =>
    intro pos c hc ho hcl ih
    simpa [List.take_add_one, hc, rise_eq_zero ho hcl] using ih
  case unmatched =>
    intro pos hc ih
    simp only [List.take_add_one, hc, Option.toList_some, height_append, height_cons, rise_close,
      height_nil]
    omega
  case branch =>
    intro a pos hm ih
    simpa [hm.take_succ, hm.balanced.height_eq_zero] using ih

/-- A `]` has a partner if no more brackets are closed up to it than opened. -/
theorem exists_matched_of_height (hb : w[b]? = some ']') (h : 0 ≤ height (w.take (b + 1))) :
    ∃ a, Matched w a b := by
  by_contra hno
  obtain ⟨hlt, _⟩ := List.getElem?_eq_some_iff.1 hb
  have hfront := height_take_nonpos hlt.le fun a ha => hno ⟨a, ha.matched hb⟩
  simp only [List.take_add_one, hb, Option.toList_some, height_append, height_cons, rise_close,
    height_nil] at h
  omega

/-- A word is balanced if it opens as many brackets as it closes, and no part from its start
    closes more. -/
theorem balanced_iff_height :
    Balanced w ↔ height w = 0 ∧ ∀ p < w.length + 1, 0 ≤ height (w.take p) := by
  refine ⟨fun h => ⟨h.height_eq_zero, fun p _ => ?_⟩, fun ⟨hzero, hnonneg⟩ => ?_⟩
  · exact Balanced.height_nonneg (v := w.drop p) (by rwa [List.take_append_drop])
  -- No bracket is open at the end, so the word is put together from closed branches.
  have hopen : ∀ a, ¬ IsOpener w a w.length := by
    intro a ha
    have hcut := ha.take_eq le_rfl
    have hfront := hnonneg a (Nat.lt_succ_of_lt ha.lt)
    rw [List.take_length] at hcut
    rw [hcut, height_append, height_cons, rise_open, ha.balanced.height_eq_zero] at hzero
    omega
  rw [← List.take_length (l := w)]
  refine unopened_induction (P := fun pos => Balanced (w.take pos)) .nil ?symbol ?unmatched
    ?branch le_rfl hopen
  case symbol =>
    intro pos c hc ho hcl ih
    rw [List.take_add_one, hc]
    exact ih.append (.symbol ho hcl .nil)
  case unmatched =>
    intro pos hc ih
    have hfront := hnonneg (pos + 1) (Nat.succ_lt_succ (List.getElem?_eq_some_iff.1 hc).1)
    rw [List.take_add_one, hc, height_append, ih.height_eq_zero] at hfront
    exact absurd hfront (by decide)
  case branch =>
    intro a pos hm ih
    rw [hm.take_succ]
    exact ih.append (.branch hm.balanced .nil)

instance : DecidablePred Balanced := fun _ => decidable_of_iff' _ balanced_iff_height

/-- In a balanced word every `]` has a partner. -/
theorem Balanced.exists_matched (h : Balanced w) (hb : w[b]? = some ']') :
    ∃ a, Matched w a b := by
  refine exists_matched_of_height hb ?_
  exact Balanced.height_nonneg (v := w.drop (b + 1)) (by rwa [List.take_append_drop])

/-- A pair of brackets cuts a word into what stands in front, inside and behind. -/
theorem Matched.exists_eq (h : Matched w a b) :
    ∃ u x v, w = u ++ '[' :: (x ++ ']' :: v) ∧ u.length = a ∧ u.length + 1 + x.length = b ∧
      Balanced x := by
  obtain ⟨hb, hclose⟩ := List.getElem?_eq_some_iff.1 h.closing
  have hlt := h.lt
  have hlength : (w.take a).length = a := by
    rw [List.length_take]
    omega
  refine ⟨w.take a, between w a b, w.drop (b + 1), ?_, hlength, ?_, h.balanced⟩
  · calc w = w.take b ++ w[b] :: w.drop (b + 1) := by
          rw [← List.drop_eq_getElem_cons hb, List.take_append_drop]
      _ = w.take a ++ '[' :: (between w a b ++ ']' :: w.drop (b + 1)) := by
          rw [h.isOpener.take_eq hb.le, hclose, List.append_assoc, List.cons_append]
  · rw [hlength, between, List.length_drop, List.length_take]
    omega

theorem Matched.append_left {v : Word} (h : Matched v a b) (u : Word) :
    Matched (u ++ v) (u.length + a) (u.length + b) where
  lt := Nat.add_lt_add_left h.lt _
  opening := by
    rw [List.getElem?_append_right (Nat.le_add_right _ _), Nat.add_sub_cancel_left, h.opening]
  closing := by
    rw [List.getElem?_append_right (Nat.le_add_right _ _), Nat.add_sub_cancel_left, h.closing]
  balanced := by
    rw [between, List.take_length_add_append, Nat.add_assoc, List.drop_length_add_append]
    exact h.balanced

theorem Matched.append_right {u : Word} (h : Matched u a b) (v : Word) : Matched (u ++ v) a b := by
  obtain ⟨hb, -⟩ := List.getElem?_eq_some_iff.1 h.closing
  refine ⟨h.lt, ?_, ?_, ?_⟩
  · rw [List.getElem?_append_left (h.lt.trans hb), h.opening]
  · rw [List.getElem?_append_left hb, h.closing]
  · rw [between, List.take_append_of_le_length hb.le]
    exact h.balanced

/-- Inside a pair of brackets every `]` has a partner. -/
theorem Matched.exists_inside (h : Matched w a b) {p : ℕ} (hap : a < p) (hpb : p < b)
    (hp : w[p]? = some ']') : ∃ a', Matched w a' p := by
  obtain ⟨u, x, v, rfl, rfl, rfl, hx⟩ := h.exists_eq
  obtain ⟨q, rfl⟩ := Nat.exists_eq_add_of_lt hap
  -- The position is one of the text between the brackets, which is balanced.
  have hq : q < x.length := by omega
  have hword : u ++ '[' :: (x ++ ']' :: v) = (u ++ ['[']) ++ (x ++ ']' :: v) := by simp
  have hlength : (u ++ ['[']).length + q = u.length + q + 1 := by simp; omega
  rw [hword, ← hlength, List.getElem?_append_right (Nat.le_add_right _ _),
    Nat.add_sub_cancel_left, List.getElem?_append_left hq] at hp
  obtain ⟨a', hm⟩ := hx.exists_matched hp
  rw [hword, ← hlength]
  exact ⟨_, (hm.append_right _).append_left _⟩

/-- A position behind which nothing is closed that is open there is the last one, or
    stands in front of a symbol that is no bracket, of a `[` without a partner, or of a
    branch, and nothing is closed behind these. -/
theorem unclosed_induction {P : ℕ → Prop} (stop : ∀ pos, w.length ≤ pos + 1 → P pos)
    (symbol : ∀ pos c, w[pos + 1]? = some c → c ≠ '[' → c ≠ ']' → P (pos + 1) → P pos)
    (unmatched : ∀ pos, w[pos + 1]? = some '[' → P (pos + 1) → P pos)
    (branch : ∀ pos b, Matched w (pos + 1) b → P b → P pos)
    (h : ∀ b, ¬ IsCloser w pos b) : P pos := by
  induction hn : w.length - pos using Nat.strong_induction_on generalizing pos with
  | _ n ih =>
    by_cases hlen : w.length ≤ pos + 1
    · exact stop pos hlen
    have hc : w[pos + 1]? = some w[pos + 1] := List.getElem?_eq_getElem (not_le.1 hlen)
    by_cases hclose : w[pos + 1] = ']'
    · -- In front of a `]` something is closed.
      exact absurd (IsCloser.self_succ (hclose ▸ hc)) (h (pos + 1))
    by_cases hopen : w[pos + 1] = '['
    · rw [hopen] at hc
      -- If something is closed behind the `[`, this is the begin of a branch.
      by_cases hex : ∃ b, IsCloser w (pos + 1) b
      · obtain ⟨b, hb⟩ := hex
        have hlt := hb.lt
        have hm := hb.matched hc
        exact branch pos b hm (ih (w.length - b) (by omega) (fun b' hb' => h b' (hb'.ahead hm)) rfl)
      · exact unmatched pos hc (ih (w.length - (pos + 1)) (by omega) (not_exists.1 hex) rfl)
    · exact symbol pos _ hc hopen hclose
        (ih (w.length - (pos + 1)) (by omega) (fun b hb => h b (hb.pred hc hopen hclose)) rfl)

end Lindenmayer.Word

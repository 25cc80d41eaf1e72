import Lindenmayer.Derivation.Contextual
import Lindenmayer.Proofs.Brackets

/-!
# Contexts and branches

The neighbours of a variable, told by the branches of the word instead of by a scan.
A branch that is closed before a position is not on the way from there back to the
start of the word, and a branch that begins behind a position and is closed is not
on the way to the end. What is left of the word is visible (`VisibleBefore`,
`VisibleAfter`), and the nearest visible symbol that the scan does not pass over
decides (`LeftNeighbour`, `RightNeighbour`).

The scans pass over a closed branch as a whole (`leftScan_closed`,
`rightScan_closed`), and do not come back from one that is not closed
(`leftScan_unopened`, `rightScan_unclosed`). So they find the neighbours, and nothing
else (`context_iff_neighbour`).
-/

namespace Lindenmayer.Contextual

open Word Set

/-! ## Visible positions -/

/-- A position before `pos` in no branch that is closed before `pos`. -/
def VisibleBefore (w : Word) (pos i : ℕ) : Prop :=
  i < pos ∧ ¬ ∃ a b, Matched w a b ∧ b < pos ∧ a ≤ i ∧ i ≤ b

/-- A position after `pos` in no branch that begins after `pos` and is closed. -/
def VisibleAfter (w : Word) (pos j : ℕ) : Prop :=
  pos < j ∧ ¬ ∃ a b, Matched w a b ∧ pos < a ∧ a ≤ j ∧ j ≤ b

/-- The visible positions before `pos` with a symbol that a scan to the left does not
    pass over. -/
def leftStops (w : Word) (pos : ℕ) : Set ℕ :=
  {i | VisibleBefore w pos i ∧ ∃ c, w[i]? = some c ∧ c ∉ ['F', '+', '-', '$', '[']}

/-- The visible positions after `pos` with a symbol that a scan to the right does not
    pass over. -/
def rightStops (w : Word) (pos : ℕ) : Set ℕ :=
  {j | VisibleAfter w pos j ∧ ∃ c, w[j]? = some c ∧ c ∉ ['F', '+', '-', '$']}

/-- What stands to the left of a position, by the last stop before it. -/
inductive LeftNeighbour (w : Word) (pos : ℕ) : Except Error (Option Char) → Prop
  /-- There is no stop. -/
  | absent : leftStops w pos = ∅ → LeftNeighbour w pos (.ok none)
  | found {i : ℕ} {c : Char} : IsGreatest (leftStops w pos) i → w[i]? = some c →
      c ∈ ['0', '1'] → LeftNeighbour w pos (.ok (some c))
  /-- A visible `]` has no partner. -/
  | unmatched {i : ℕ} : IsGreatest (leftStops w pos) i → w[i]? = some ']' →
      (∀ a, ¬ Matched w a i) → LeftNeighbour w pos (.error (.stackUnderflow i))
  | unsupported {i : ℕ} {c : Char} : IsGreatest (leftStops w pos) i → w[i]? = some c →
      c ∉ ['0', '1', ']'] → LeftNeighbour w pos (.error (.unsupportedSymbol c i))

/-- What stands to the right of a position, by the first stop after it. -/
inductive RightNeighbour (w : Word) (pos : ℕ) : Except Error (Option Char) → Prop
  /-- There is no stop. -/
  | absent : rightStops w pos = ∅ → RightNeighbour w pos (.ok none)
  /-- The branch ends. -/
  | ended {j : ℕ} : IsLeast (rightStops w pos) j → w[j]? = some ']' →
      RightNeighbour w pos (.ok none)
  /-- A visible `[` has no partner. -/
  | unclosed {j : ℕ} : IsLeast (rightStops w pos) j → w[j]? = some '[' →
      (∀ b, ¬ Matched w j b) → RightNeighbour w pos (.ok none)
  | found {j : ℕ} {c : Char} : IsLeast (rightStops w pos) j → w[j]? = some c →
      c ∈ ['0', '1'] → RightNeighbour w pos (.ok (some c))
  | unsupported {j : ℕ} {c : Char} : IsLeast (rightStops w pos) j → w[j]? = some c →
      c ∉ ['0', '1', '[', ']'] → RightNeighbour w pos (.error (.unsupportedSymbol c j))

variable {w : Word} {pos : ℕ}

/-! ## Words with positions -/

/-- The symbols before a position, the nearest one first. -/
def before (w : Word) (pos : ℕ) : List (Char × ℕ) := (w.zipIdx.take pos).reverse

/-- The symbols after a position. -/
def after (w : Word) (pos : ℕ) : List (Char × ℕ) := w.zipIdx.drop (pos + 1)

theorem leftContext_eq (w : Word) (pos : ℕ) :
    leftContext w pos = leftScan 0 0 (before w pos) :=
  rfl

theorem rightContext_eq (w : Word) (pos : ℕ) :
    rightContext w pos = rightScan 0 (after w pos) :=
  rfl

theorem before_succ {c : Char} (hc : w[pos]? = some c) :
    before w (pos + 1) = (c, pos) :: before w pos := by
  rw [before, before, List.take_add_one, List.getElem?_zipIdx, hc]
  simp

theorem before_of_length_le (h : w.length ≤ pos) : before w (pos + 1) = before w pos := by
  rw [before, before, List.take_of_length_le, List.take_of_length_le] <;>
    rw [List.length_zipIdx] <;> omega

theorem after_of_getElem? {c : Char} (hc : w[pos + 1]? = some c) :
    after w pos = (c, pos + 1) :: after w (pos + 1) := by
  obtain ⟨hlt, rfl⟩ := List.getElem?_eq_some_iff.1 hc
  rw [after, List.drop_eq_getElem_cons (by rwa [List.length_zipIdx]), List.getElem_zipIdx]
  simp [after]

theorem after_of_length_le (h : w.length ≤ pos + 1) : after w pos = [] :=
  List.drop_eq_nil_of_le (by rwa [List.length_zipIdx])

/-- What stands before a position, cut at the innermost bracket that is open there. -/
theorem before_of_isOpener {a : ℕ} (h : IsOpener w a pos) :
    ∃ l, l.map Prod.fst = (between w a pos).reverse ∧
      before w pos = l ++ ('[', a) :: before w a := by
  refine ⟨((w.zipIdx.take pos).drop (a + 1)).reverse, ?_, ?_⟩
  · rw [List.map_reverse, List.map_drop, List.map_take, List.zipIdx_map_fst, between]
  · -- Read forward, this is the text up to the bracket and the text behind it.
    rw [← before_succ h.opening, before, before, ← List.reverse_append]
    congr 1
    calc w.zipIdx.take pos
        = (w.zipIdx.take pos).take (a + 1) ++ (w.zipIdx.take pos).drop (a + 1) :=
          (List.take_append_drop _ _).symm
      _ = w.zipIdx.take (a + 1) ++ (w.zipIdx.take pos).drop (a + 1) := by
          rw [List.take_take, min_eq_left h.lt]

/-- What stands after a position, cut at the bracket that closes what is open there. -/
theorem after_of_isCloser {b : ℕ} (h : IsCloser w pos b) :
    ∃ l, l.map Prod.fst = between w pos b ∧ after w pos = l ++ (']', b) :: after w b := by
  obtain ⟨hb, hclose⟩ := List.getElem?_eq_some_iff.1 h.closing
  refine ⟨(w.zipIdx.take b).drop (pos + 1), ?_, ?_⟩
  · rw [List.map_drop, List.map_take, List.zipIdx_map_fst, between]
  · have hlen : b < w.zipIdx.length := by rwa [List.length_zipIdx]
    have hhead : w.zipIdx.drop b = (']', b) :: after w b := by
      rw [List.drop_eq_getElem_cons hlen, List.getElem_zipIdx, hclose, zero_add, after]
    calc after w pos
        = (w.zipIdx.take b ++ w.zipIdx.drop b).drop (pos + 1) := by
          rw [List.take_append_drop, after]
      _ = (w.zipIdx.take b).drop (pos + 1) ++ w.zipIdx.drop b :=
          List.drop_append_of_le_length (by
            have := h.lt
            rw [List.length_take]
            omega)
      _ = (w.zipIdx.take b).drop (pos + 1) ++ (']', b) :: after w b := by rw [hhead]

/-! ## Passing over branches -/

/-- Inside a branch, the scan to the left passes over balanced text. -/
theorem leftScan_balanced {u : Word} (h : Balanced u) {l : List (Char × ℕ)}
    (hl : l.map Prod.fst = u.reverse) (depth close : ℕ) (rest : List (Char × ℕ)) :
    leftScan (depth + 1) close (l ++ rest) = leftScan (depth + 1) close rest := by
  -- The text is scanned from its end, so its positions are taken apart from behind.
  induction h generalizing l depth rest with
  | nil => rw [List.map_eq_nil_iff.1 hl, List.nil_append]
  | symbol ho hc _ ih =>
    rw [List.reverse_cons] at hl
    obtain ⟨k, m, rfl, hk, hm⟩ := List.map_eq_append_iff.1 hl
    obtain ⟨⟨d, i⟩, rfl, rfl⟩ := List.map_eq_singleton_iff.1 hm
    rw [List.append_assoc, ih hk, List.singleton_append, leftScan, if_neg ho, if_neg hc]
  | branch _ _ ihu ihw =>
    rw [List.reverse_cons, List.reverse_append, List.reverse_cons, List.append_assoc,
      List.append_assoc, List.singleton_append] at hl
    obtain ⟨k, m, rfl, hk, hm⟩ := List.map_eq_append_iff.1 hl
    obtain ⟨⟨d, i⟩, n, rfl, rfl, hn⟩ := List.map_eq_cons_iff.1 hm
    obtain ⟨k', m', rfl, hk', hm'⟩ := List.map_eq_append_iff.1 hn
    obtain ⟨⟨e, j⟩, rfl, rfl⟩ := List.map_eq_singleton_iff.1 hm'
    rw [List.append_assoc, ihw hk, List.cons_append, leftScan, if_neg (by decide), if_pos rfl,
      List.append_assoc, ihu hk', List.singleton_append, leftScan, if_pos rfl]

/-- Inside a branch, the scan to the right passes over balanced text. -/
theorem rightScan_balanced {u : Word} (h : Balanced u) {l : List (Char × ℕ)}
    (hl : l.map Prod.fst = u) (depth : ℕ) (rest : List (Char × ℕ)) :
    rightScan (depth + 1) (l ++ rest) = rightScan (depth + 1) rest := by
  induction h generalizing l depth rest with
  | nil => rw [List.map_eq_nil_iff.1 hl, List.nil_append]
  | symbol ho hc _ ih =>
    obtain ⟨⟨d, i⟩, k, rfl, rfl, hk⟩ := List.map_eq_cons_iff.1 hl
    rw [List.cons_append, rightScan, if_neg hc, if_neg ho, ih hk]
  | branch _ _ ihu ihw =>
    obtain ⟨⟨d, i⟩, m, rfl, rfl, hm⟩ := List.map_eq_cons_iff.1 hl
    obtain ⟨k, n, rfl, hk, hn⟩ := List.map_eq_append_iff.1 hm
    obtain ⟨⟨e, j⟩, k', rfl, rfl, hk'⟩ := List.map_eq_cons_iff.1 hn
    rw [List.cons_append, rightScan, if_neg (by decide), if_pos rfl, List.append_assoc, ihu hk,
      List.cons_append, rightScan, if_pos rfl, ihw hk']

/-- The scan to the left leaves the branch that it is in at its begin. -/
theorem leftScan_closed {a : ℕ} (h : IsOpener w a pos) (depth close : ℕ) :
    leftScan (depth + 1) close (before w pos) = leftScan depth close (before w a) := by
  obtain ⟨l, hl, heq⟩ := before_of_isOpener h
  rw [heq, leftScan_balanced h.balanced hl, leftScan, if_pos rfl]

/-- The scan to the right leaves the branch that it is in at its end. -/
theorem rightScan_closed {b : ℕ} (h : IsCloser w pos b) (depth : ℕ) :
    rightScan (depth + 1) (after w pos) = rightScan depth (after w b) := by
  obtain ⟨l, hl, heq⟩ := after_of_isCloser h
  rw [heq, rightScan_balanced h.balanced hl, rightScan, if_pos rfl]

/-- The scan to the left does not come out of a branch that was never opened. -/
theorem leftScan_unopened (hpos : pos ≤ w.length) (h : ∀ a, ¬ IsOpener w a pos)
    (depth close : ℕ) :
    leftScan (depth + 1) close (before w pos) = .error (.stackUnderflow close) := by
  refine unopened_induction
    (P := fun pos => ∀ depth, leftScan (depth + 1) close (before w pos) =
      .error (.stackUnderflow close))
    (fun _ => rfl) ?symbol ?unmatched ?branch hpos h depth
  case symbol =>
    intro pos c hc ho hcl ih depth
    rw [before_succ hc, leftScan, if_neg ho, if_neg hcl, ih]
  case unmatched =>
    intro pos hc ih depth
    rw [before_succ hc, leftScan, if_neg (by decide), if_pos rfl, ih]
  case branch =>
    intro a pos hm ih depth
    rw [before_succ hm.closing, leftScan, if_neg (by decide), if_pos rfl,
      leftScan_closed hm.isOpener, ih]

/-- The scan to the right does not come out of a branch that is never closed. -/
theorem rightScan_unclosed (h : ∀ b, ¬ IsCloser w pos b) (depth : ℕ) :
    rightScan (depth + 1) (after w pos) = .ok none := by
  refine unclosed_induction
    (P := fun pos => ∀ depth, rightScan (depth + 1) (after w pos) = .ok none)
    ?stop ?symbol ?unmatched ?branch h depth
  case stop =>
    intro pos hlen depth
    rw [after_of_length_le hlen, rightScan]
  case symbol =>
    intro pos c hc ho hcl ih depth
    rw [after_of_getElem? hc, rightScan, if_neg hcl, if_neg ho, ih]
  case unmatched =>
    intro pos hc ih depth
    rw [after_of_getElem? hc, rightScan, if_neg (by decide), if_pos rfl, ih]
  case branch =>
    intro pos b hm ih depth
    rw [after_of_getElem? hm.opening, rightScan, if_neg (by decide), if_pos rfl,
      rightScan_closed hm.isCloser, ih]

/-! ## Stops -/

theorem visibleBefore_succ (h : ∀ a, ¬ Matched w a pos) (i : ℕ) :
    VisibleBefore w (pos + 1) i ↔ i = pos ∨ VisibleBefore w pos i := by
  constructor
  · rintro ⟨hi, hvis⟩
    refine (Nat.lt_succ_iff_lt_or_eq.1 hi).symm.imp_right fun hlt => ⟨hlt, ?_⟩
    rintro ⟨a, b, hm, hb, hai, hib⟩
    exact hvis ⟨a, b, hm, hb.trans (Nat.lt_succ_self _), hai, hib⟩
  · intro hi
    have hpos : i < pos + 1 := by
      rcases hi with rfl | hi
      · exact Nat.lt_succ_self _
      · exact hi.1.trans (Nat.lt_succ_self _)
    refine ⟨hpos, ?_⟩
    rintro ⟨a, b, hm, hb, hai, hib⟩
    rcases Nat.lt_succ_iff_lt_or_eq.1 hb with hlt | rfl
    · rcases hi with rfl | hi
      · exact absurd hib (not_le.2 hlt)
      · exact hi.2 ⟨a, b, hm, hlt, hai, hib⟩
    · exact h a hm

/-- Behind a branch, what is visible before the branch is visible. -/
theorem visibleBefore_of_matched {a : ℕ} (h : Matched w a pos) (i : ℕ) :
    VisibleBefore w (pos + 1) i ↔ VisibleBefore w a i := by
  have hlt := h.lt
  constructor
  · rintro ⟨hi, hvis⟩
    refine ⟨?_, ?_⟩
    · by_contra hai
      exact hvis ⟨a, pos, h, Nat.lt_succ_self _, not_lt.1 hai, Nat.lt_succ_iff.1 hi⟩
    · rintro ⟨a', b', hm, hb, hai, hib⟩
      exact hvis ⟨a', b', hm, by omega, hai, hib⟩
  · rintro ⟨hi, hvis⟩
    refine ⟨by omega, ?_⟩
    rintro ⟨a', b', hm, hb, hai, hib⟩
    -- A pair around `i` ends before the branch, or else around it or at its end.
    rcases lt_trichotomy b' a with hba | rfl | hab
    · exact hvis ⟨a', b', hm, hba, hai, hib⟩
    · exact absurd (hm.closing.symm.trans h.opening) (by decide)
    · rcases Nat.lt_succ_iff_lt_or_eq.1 hb with hb | rfl
      · exact absurd (hm.nested h (by omega) hab) (by omega)
      · have := hm.left_unique h
        omega

theorem visibleAfter_of_not_matched (h : ∀ b, ¬ Matched w (pos + 1) b) (j : ℕ) :
    VisibleAfter w pos j ↔ j = pos + 1 ∨ VisibleAfter w (pos + 1) j := by
  constructor
  · rintro ⟨hj, hvis⟩
    refine (Nat.eq_or_lt_of_le (Nat.succ_le_of_lt hj)).imp Eq.symm fun hlt => ⟨hlt, ?_⟩
    rintro ⟨a, b, hm, ha, haj, hjb⟩
    exact hvis ⟨a, b, hm, (Nat.lt_succ_self _).trans ha, haj, hjb⟩
  · intro hj
    have hpos : pos < j := by
      rcases hj with rfl | hj
      · exact Nat.lt_succ_self _
      · exact (Nat.lt_succ_self _).trans hj.1
    refine ⟨hpos, ?_⟩
    rintro ⟨a, b, hm, ha, haj, hjb⟩
    rcases Nat.eq_or_lt_of_le (Nat.succ_le_of_lt ha) with rfl | hlt
    · exact h b hm
    · rcases hj with rfl | hj
      · exact absurd haj (not_le.2 hlt)
      · exact hj.2 ⟨a, b, hm, hlt, haj, hjb⟩

/-- In front of a branch, what is visible behind the branch is visible. -/
theorem visibleAfter_of_matched {b : ℕ} (h : Matched w (pos + 1) b) (j : ℕ) :
    VisibleAfter w pos j ↔ VisibleAfter w b j := by
  have hlt := h.lt
  constructor
  · rintro ⟨hj, hvis⟩
    refine ⟨?_, ?_⟩
    · by_contra hjb
      exact hvis ⟨pos + 1, b, h, Nat.lt_succ_self _, hj, not_lt.1 hjb⟩
    · rintro ⟨a', b', hm, ha, haj, hjb⟩
      exact hvis ⟨a', b', hm, by omega, haj, hjb⟩
  · rintro ⟨hj, hvis⟩
    refine ⟨by omega, ?_⟩
    rintro ⟨a', b', hm, ha, haj, hjb⟩
    -- A pair around `j` begins behind the branch, or else with it or inside it.
    rcases lt_trichotomy a' b with hab | rfl | hba
    · rcases Nat.eq_or_lt_of_le (Nat.succ_le_of_lt ha) with rfl | ha
      · have := hm.right_unique h
        omega
      · exact absurd (h.nested hm ha hab) (by omega)
    · exact absurd (hm.opening.symm.trans h.closing) (by decide)
    · exact hvis ⟨a', b', hm, hba, haj, hjb⟩

theorem leftStops_zero (w : Word) : leftStops w 0 = ∅ :=
  eq_empty_of_forall_notMem fun _ h => Nat.not_lt_zero _ h.1.1

theorem leftStops_of_length_le (h : w.length ≤ pos) : leftStops w (pos + 1) = leftStops w pos := by
  have hend : w[pos]? = none := List.getElem?_eq_none h
  have hno : ∀ a, ¬ Matched w a pos := fun a hm => by
    have := hm.closing
    simp [hend] at this
  ext i
  simp only [leftStops, mem_ofPred_eq, visibleBefore_succ hno]
  refine and_congr_left fun ⟨c, hc, _⟩ => or_iff_right ?_
  rintro rfl
  simp [hend] at hc

theorem leftStops_succ {c : Char} (hc : w[pos]? = some c)
    (hpass : c ∈ ['F', '+', '-', '$', '[']) : leftStops w (pos + 1) = leftStops w pos := by
  have hno : ∀ a, ¬ Matched w a pos := by
    intro a hm
    obtain rfl := Option.some.inj (hc.symm.trans hm.closing)
    exact absurd hpass (by decide)
  ext i
  simp only [leftStops, mem_ofPred_eq, visibleBefore_succ hno]
  refine and_congr_left fun ⟨d, hd, hstop⟩ => or_iff_right ?_
  rintro rfl
  exact hstop (Option.some.inj (hc.symm.trans hd) ▸ hpass)

theorem leftStops_of_matched {a : ℕ} (h : Matched w a pos) :
    leftStops w (pos + 1) = leftStops w a := by
  ext i
  simp only [leftStops, mem_ofPred_eq, visibleBefore_of_matched h]

theorem isGreatest_leftStops {c : Char} (hc : w[pos]? = some c)
    (hstop : c ∉ ['F', '+', '-', '$', '[']) (hno : ∀ a, ¬ Matched w a pos) :
    IsGreatest (leftStops w (pos + 1)) pos :=
  ⟨⟨(visibleBefore_succ hno pos).2 (.inl rfl), c, hc, hstop⟩, fun _ hi => Nat.lt_succ_iff.1 hi.1.1⟩

theorem rightStops_of_length_le (h : w.length ≤ pos + 1) : rightStops w pos = ∅ := by
  refine eq_empty_of_forall_notMem fun j => ?_
  rintro ⟨⟨hj, _⟩, c, hc, _⟩
  obtain ⟨hlt, _⟩ := List.getElem?_eq_some_iff.1 hc
  omega

theorem rightStops_succ {c : Char} (hc : w[pos + 1]? = some c) (hpass : c ∈ ['F', '+', '-', '$']) :
    rightStops w pos = rightStops w (pos + 1) := by
  have hno : ∀ b, ¬ Matched w (pos + 1) b := by
    intro b hm
    obtain rfl := Option.some.inj (hc.symm.trans hm.opening)
    exact absurd hpass (by decide)
  ext j
  simp only [rightStops, mem_ofPred_eq, visibleAfter_of_not_matched hno]
  refine and_congr_left fun ⟨d, hd, hstop⟩ => or_iff_right ?_
  rintro rfl
  exact hstop (Option.some.inj (hc.symm.trans hd) ▸ hpass)

theorem rightStops_of_matched {b : ℕ} (h : Matched w (pos + 1) b) :
    rightStops w pos = rightStops w b := by
  ext j
  simp only [rightStops, mem_ofPred_eq, visibleAfter_of_matched h]

theorem isLeast_rightStops {c : Char} (hc : w[pos + 1]? = some c)
    (hstop : c ∉ ['F', '+', '-', '$']) (hno : ∀ b, ¬ Matched w (pos + 1) b) :
    IsLeast (rightStops w pos) (pos + 1) :=
  ⟨⟨(visibleAfter_of_not_matched hno _).2 (.inl rfl), c, hc, hstop⟩,
    fun _ hj => Nat.succ_le_of_lt hj.1.1⟩

/-! ## Neighbours -/

variable {pos' : ℕ} {r r' : Except Error (Option Char)}

theorem LeftNeighbour.congr (h : LeftNeighbour w pos r) (hs : leftStops w pos = leftStops w pos') :
    LeftNeighbour w pos' r := by
  cases h with
  | absent h => exact .absent (hs ▸ h)
  | found hi hc hmem => exact .found (hs ▸ hi) hc hmem
  | unmatched hi hc hno => exact .unmatched (hs ▸ hi) hc hno
  | unsupported hi hc hmem => exact .unsupported (hs ▸ hi) hc hmem

theorem RightNeighbour.congr (h : RightNeighbour w pos r)
    (hs : rightStops w pos = rightStops w pos') : RightNeighbour w pos' r := by
  cases h with
  | absent h => exact .absent (hs ▸ h)
  | ended hj hc => exact .ended (hs ▸ hj) hc
  | unclosed hj hc hno => exact .unclosed (hs ▸ hj) hc hno
  | found hj hc hmem => exact .found (hs ▸ hj) hc hmem
  | unsupported hj hc hmem => exact .unsupported (hs ▸ hj) hc hmem

/-- Outside branches the scan to the left remembers no position. -/
theorem leftScan_zero (close close' : ℕ) (l : List (Char × ℕ)) :
    leftScan 0 close l = leftScan 0 close' l := by
  induction l with
  | nil => rfl
  | cons s l ih =>
    obtain ⟨c, i⟩ := s
    simp only [leftScan, ih]

theorem isBinary_iff {c : Char} : isBinary c ↔ c ∈ ['0', '1'] := by simp [isBinary]

theorem isIgnored_iff {c : Char} : isIgnored c ↔ c ∈ ['F', '+', '-', '$'] := by simp [isIgnored]

theorem leftNeighbour_leftContext (w : Word) (pos : ℕ) :
    LeftNeighbour w pos (leftContext w pos) := by
  rw [leftContext_eq]
  -- The scan goes back by one symbol, or from the end of a branch to its begin, so the
  -- induction is over all positions further to the left.
  induction pos using Nat.strong_induction_on with
  | _ pos ih =>
    cases pos with
    | zero => exact .absent (leftStops_zero w)
    | succ pos =>
      by_cases hlen : w.length ≤ pos
      · rw [before_of_length_le hlen]
        exact (ih pos (Nat.lt_succ_self _)).congr (leftStops_of_length_le hlen).symm
      have hc : w[pos]? = some w[pos] := List.getElem?_eq_getElem (not_le.1 hlen)
      generalize w[pos] = c at hc
      rw [before_succ hc, leftScan]
      by_cases hclose : c = ']'
      · subst hclose
        rw [if_pos rfl]
        by_cases hex : ∃ a, IsOpener w a pos
        · obtain ⟨a, ha⟩ := hex
          rw [leftScan_closed ha, leftScan_zero pos 0]
          exact (ih a (ha.lt.trans (Nat.lt_succ_self _))).congr
            (leftStops_of_matched (ha.matched hc)).symm
        · -- The scan has gone into text that is not a branch, and fails there.
          rw [leftScan_unopened (not_le.1 hlen).le (not_exists.1 hex)]
          have hno : ∀ a, ¬ Matched w a pos := fun a hm => hex ⟨a, hm.isOpener⟩
          exact .unmatched (isGreatest_leftStops hc (by decide) hno) hc hno
      · have hno : ∀ a, ¬ Matched w a pos := fun a hm =>
          hclose (Option.some.inj (hc.symm.trans hm.closing))
        rw [if_neg hclose]
        split_ifs with hbin hpass
        · have hmem := isBinary_iff.1 hbin
          exact .found (isGreatest_leftStops hc (by grind) hno) hc hmem
        · rw [isIgnored_iff] at hpass
          exact (ih pos (Nat.lt_succ_self _)).congr (leftStops_succ hc (by grind)).symm
        · rw [isBinary_iff] at hbin
          rw [isIgnored_iff] at hpass
          exact .unsupported (isGreatest_leftStops hc (by grind) hno) hc (by grind)

theorem rightNeighbour_rightContext (w : Word) (pos : ℕ) :
    RightNeighbour w pos (rightContext w pos) := by
  rw [rightContext_eq]
  -- The scan goes ahead by one symbol, or from the begin of a branch to its end, so the
  -- induction is on what is left of the word.
  induction hn : w.length - pos using Nat.strong_induction_on generalizing pos with
  | _ n ih =>
    by_cases hlen : w.length ≤ pos + 1
    · rw [after_of_length_le hlen, rightScan]
      exact .absent (rightStops_of_length_le hlen)
    have hc : w[pos + 1]? = some w[pos + 1] := List.getElem?_eq_getElem (not_le.1 hlen)
    generalize w[pos + 1] = c at hc
    rw [after_of_getElem? hc, rightScan]
    by_cases hopen : c = '['
    · subst hopen
      rw [if_neg (by decide), if_pos rfl]
      by_cases hex : ∃ b, IsCloser w (pos + 1) b
      · obtain ⟨b, hb⟩ := hex
        have hlt := hb.lt
        rw [rightScan_closed hb]
        exact (ih (w.length - b) (by omega) b rfl).congr
          (rightStops_of_matched (hb.matched hc)).symm
      · -- The scan has gone into text that is not a branch, up to the end of the word.
        rw [rightScan_unclosed (not_exists.1 hex)]
        have hno : ∀ b, ¬ Matched w (pos + 1) b := fun b hm => hex ⟨b, hm.isCloser⟩
        exact .unclosed (isLeast_rightStops hc (by decide) hno) hc hno
    · have hno : ∀ b, ¬ Matched w (pos + 1) b := fun b hm =>
        hopen (Option.some.inj (hc.symm.trans hm.opening))
      by_cases hclose : c = ']'
      · subst hclose
        rw [if_pos rfl]
        exact .ended (isLeast_rightStops hc (by decide) hno) hc
      rw [if_neg hclose, if_neg hopen]
      split_ifs with hbin hpass
      · have hmem := isBinary_iff.1 hbin
        exact .found (isLeast_rightStops hc (by grind) hno) hc hmem
      · exact (ih (w.length - (pos + 1)) (by omega) (pos + 1) rfl).congr
          (rightStops_succ hc (isIgnored_iff.1 hpass)).symm
      · rw [isBinary_iff] at hbin
        rw [isIgnored_iff] at hpass
        exact .unsupported (isLeast_rightStops hc hpass hno) hc (by grind)

theorem LeftNeighbour.unique (h : LeftNeighbour w pos r) (h' : LeftNeighbour w pos r') :
    r = r' := by
  -- The last stop and its symbol decide, and the cases exclude each other.
  cases h <;> cases h' <;> grind [IsGreatest.unique, IsGreatest]

theorem RightNeighbour.unique (h : RightNeighbour w pos r) (h' : RightNeighbour w pos r') :
    r = r' := by
  -- The first stop and its symbol decide, and the cases exclude each other.
  cases h <;> cases h' <;> grind [IsLeast.unique, IsLeast]

/-! ## Balanced words -/

/-- The visible positions before `pos` with a variable. -/
def visibleVariables (w : Word) (pos : ℕ) : Set ℕ :=
  {i | VisibleBefore w pos i ∧ ∃ c, w[i]? = some c ∧ c ∈ ['0', '1']}

/-- In a balanced word over the alphabet only variables stop the scan to the left: a `]`
    is the end of a branch that is closed, so it is not visible. -/
theorem leftStops_of_balanced (hw : Balanced w)
    (halpha : ∀ c ∈ w, c ∈ ['0', '1', 'F', '+', '-', '$', '[', ']']) :
    leftStops w pos = visibleVariables w pos := by
  ext i
  refine and_congr_right fun hvis => exists_congr fun c => and_congr_right fun hc => ?_
  have hmem := halpha c (List.mem_of_getElem? hc)
  have hclose : c ≠ ']' := by
    rintro rfl
    obtain ⟨a, hm⟩ := hw.exists_matched hc
    exact hvis.2 ⟨a, i, hm, hvis.1, hm.lt.le, le_rfl⟩
  grind

theorem leftNeighbour_of_balanced (hw : Balanced w)
    (halpha : ∀ c ∈ w, c ∈ ['0', '1', 'F', '+', '-', '$', '[', ']']) :
    LeftNeighbour w pos r ↔ (visibleVariables w pos = ∅ ∧ r = .ok none) ∨
      ∃ i c, IsGreatest (visibleVariables w pos) i ∧ w[i]? = some c ∧ r = .ok (some c) := by
  have hstops : leftStops w pos = visibleVariables w pos := leftStops_of_balanced hw halpha
  constructor
  · intro h
    cases h with
    | absent h => exact .inl ⟨hstops ▸ h, rfl⟩
    | found hi hc hmem => exact .inr ⟨_, _, hstops ▸ hi, hc, rfl⟩
    | unmatched hi hc hno =>
      obtain ⟨a, hm⟩ := hw.exists_matched hc
      exact absurd hm (hno a)
    | unsupported hi hc hmem =>
      obtain ⟨_, d, hd, hvar⟩ := hstops ▸ hi.1
      grind
  · rintro (⟨h, rfl⟩ | ⟨i, c, hi, hc, rfl⟩)
    · exact .absent (hstops ▸ h)
    · obtain ⟨_, d, hd, hvar⟩ := hi.1
      exact .found (hstops ▸ hi) hc (Option.some.inj (hd.symm.trans hc) ▸ hvar)

/-- The contexts of a position, in every word, are what stands next to it once closed
    branches are taken away: to the left out of the branch it stands in, to the right up
    to the end of that branch. In a balanced word over the alphabet the left context is
    the nearest visible variable, if there is one. -/
theorem context_iff_neighbour (w : Word) (pos : ℕ) :
    (∀ r, leftContext w pos = r ↔ LeftNeighbour w pos r) ∧
    (∀ r, rightContext w pos = r ↔ RightNeighbour w pos r) ∧
    (Balanced w → (∀ c ∈ w, c ∈ ['0', '1', 'F', '+', '-', '$', '[', ']']) →
      ∀ r, leftContext w pos = r ↔ (visibleVariables w pos = ∅ ∧ r = .ok none) ∨
        ∃ i c, IsGreatest (visibleVariables w pos) i ∧ w[i]? = some c ∧ r = .ok (some c)) := by
  have hleft : ∀ r, leftContext w pos = r ↔ LeftNeighbour w pos r := fun r =>
    ⟨fun h => h ▸ leftNeighbour_leftContext w pos, (leftNeighbour_leftContext w pos).unique⟩
  have hright : ∀ r, rightContext w pos = r ↔ RightNeighbour w pos r := fun r =>
    ⟨fun h => h ▸ rightNeighbour_rightContext w pos, (rightNeighbour_rightContext w pos).unique⟩
  exact ⟨hleft, hright, fun hw halpha r => (hleft r).trans (leftNeighbour_of_balanced hw halpha)⟩

/-- The branch between two variables is passed over, and the variable inside it has
    nothing to its right. -/
theorem context_iff_neighbour_branch :
    LeftNeighbour ['0', '[', '1', ']', '1'] 4 (.ok (some '0')) ∧
    RightNeighbour ['0', '[', '1', ']', '1'] 2 (.ok none) ∧
    Balanced ['0', '[', '1', ']', '1'] ∧
    ∃ i, IsGreatest (visibleVariables ['0', '[', '1', ']', '1'] 4) i := by
  have hbalanced : Balanced ['0', '[', '1', ']', '1'] :=
    .symbol (by decide) (by decide) (.branch (.symbol (by decide) (by decide) .nil)
      (.symbol (by decide) (by decide) .nil))
  refine ⟨((context_iff_neighbour _ 4).1 _).1 rfl, ((context_iff_neighbour _ 2).2.1 _).1 rfl,
    hbalanced, ?_⟩
  rcases ((context_iff_neighbour _ 4).2.2 hbalanced (by simp) (.ok (some '0'))).1 rfl with
    ⟨_, h⟩ | ⟨i, _, hi, _⟩
  · cases h
  · exact ⟨i, hi⟩

end Lindenmayer.Contextual

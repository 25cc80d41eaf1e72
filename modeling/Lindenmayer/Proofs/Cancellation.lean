import Lindenmayer.Proofs.Normalisation

/-!
# The normal form of turns

Opposite turns that meet are cancelled in one sweep over a word, with what has been read so
far as a stack (`Word.cancelTurns`). What is meant by it is slower: as long as there are two
opposite turns next to each other, such a pair is taken out (`CancelsPair`). The sweep ends
where all such sequences end, in whichever order the pairs are taken out
(`cancelTurns_isNormalForm`).

* `settled_foldl_cancelStep`: the stack of a sweep never holds a pair;
* `cancelStep_cancelStep`: so a pair that is read leaves the stack as it is, also where its
  first turn undoes the turn on top, and to take out a pair does not change where the sweep
  ends (`CancelsPair.cancelTurns_eq`);
* `cancelTurns_of_settled`: a word without pairs passes the sweep as it is.
-/

namespace Lindenmayer

open Word Relation

/-- No turn stands next to an opposite one. -/
def Settled (w : Word) : Prop := ¬ ['+', '-'] <:+: w ∧ ¬ ['-', '+'] <:+: w

variable {a b c : Char} {u v w done : Word}

/-- Only one turn is opposite to a turn. -/
theorem eq_of_opposite (hab : opposite a b) (hbc : opposite b c) : a = c := by
  rcases opposite_iff.1 hab with ⟨rfl, rfl⟩ | ⟨rfl, rfl⟩
  · rcases opposite_iff.1 hbc with ⟨h, -⟩ | ⟨-, rfl⟩
    · cases h
    · rfl
  · rcases opposite_iff.1 hbc with ⟨-, rfl⟩ | ⟨h, -⟩
    · rfl
    · cases h

theorem settled_iff_not_cancelsPair : Settled w ↔ ∀ v, ¬ CancelsPair w v := by
  constructor
  · rintro ⟨hleft, hright⟩ v ⟨u, v, hab⟩
    rcases opposite_iff.1 hab with ⟨rfl, rfl⟩ | ⟨rfl, rfl⟩
    · exact hleft ⟨u, v, by simp⟩
    · exact hright ⟨u, v, by simp⟩
  · refine fun h => ⟨?_, ?_⟩ <;> rintro ⟨u, v, rfl⟩
    · exact h _ (by simpa using CancelsPair.mk (a := '+') (b := '-') u v rfl)
    · exact h _ (by simpa using CancelsPair.mk (a := '-') (b := '+') u v rfl)

theorem settled_iff_isChain : Settled w ↔ w.IsChain fun a b => ¬ opposite a b := by
  rw [settled_iff_not_cancelsPair, List.isChain_iff_forall_rel_of_append_cons_cons]
  constructor
  · rintro h a b u v rfl hab
    exact h _ (.mk u v hab)
  · rintro h v ⟨u, v, hab⟩
    exact h rfl hab

/-! ## The stack of a sweep -/

/-- The word on a stack, the last symbol first, holds no pair. -/
abbrev SettledStack (done : Word) : Prop := done.IsChain fun a b => ¬ opposite b a

theorem settled_cancelStep (h : SettledStack done) (c : Char) :
    SettledStack (cancelStep done c) := by
  cases done with
  | nil => exact List.isChain_singleton c
  | cons d rest =>
    rw [cancelStep]
    split_ifs with hdc
    · exact h.tail
    · exact List.isChain_cons_cons.2 ⟨hdc, h⟩

theorem settled_foldl_cancelStep (h : SettledStack done) (w : Word) :
    SettledStack (w.foldl cancelStep done) := by
  induction w generalizing done with
  | nil => exact h
  | cons c w ih => exact ih (settled_cancelStep h c)

theorem settled_cancelTurns (w : Word) : Settled w.cancelTurns :=
  settled_iff_isChain.2 (List.isChain_reverse.2 (settled_foldl_cancelStep .nil w))

/-- A pair that is read leaves the stack as it is. -/
theorem cancelStep_cancelStep (h : SettledStack done) (hab : opposite a b) :
    cancelStep (cancelStep done a) b = done := by
  cases done with
  | nil => simp [cancelStep, hab]
  | cons d rest =>
    rw [cancelStep]
    split_ifs with hda
    · -- The first turn undoes the turn on top, and the second one puts it back.
      obtain rfl := eq_of_opposite hda hab
      cases rest with
      | nil => rfl
      | cons e rest =>
        have hed : ¬ opposite e d := (List.isChain_cons_cons.1 h).1
        rw [cancelStep, if_neg hed]
    · rw [cancelStep, if_pos hab]

/-- To take out a pair does not change where the sweep ends. -/
theorem CancelsPair.cancelTurns_eq (h : CancelsPair v w) : v.cancelTurns = w.cancelTurns := by
  cases h with
  | mk u₁ u₂ hab =>
    have hstack := settled_foldl_cancelStep .nil u₁
    simp only [cancelTurns, List.foldl_append, List.foldl_cons, cancelStep_cancelStep hstack hab]

theorem cancelTurns_eq_of_cancels (h : ReflTransGen CancelsPair v w) :
    v.cancelTurns = w.cancelTurns := by
  induction h with
  | refl => rfl
  | tail _ hstep ih => exact ih.trans hstep.cancelTurns_eq

theorem foldl_cancelStep_of_settled (done : Word) (h : Settled (done.reverse ++ w)) :
    (w.foldl cancelStep done).reverse = done.reverse ++ w := by
  induction w generalizing done with
  | nil => simp
  | cons c w ih =>
    have hpush : cancelStep done c = c :: done := by
      cases done with
      | nil => rfl
      | cons d rest =>
        rw [settled_iff_isChain, List.isChain_iff_forall_rel_of_append_cons_cons] at h
        have hdc : ¬ opposite d c := @h _ _ rest.reverse w (by simp)
        rw [cancelStep, if_neg hdc]
    rw [List.foldl_cons, hpush, ih (c :: done) (by simpa using h)]
    simp

/-- A word without pairs passes the sweep as it is. -/
theorem cancelTurns_of_settled (h : Settled w) : w.cancelTurns = w :=
  foldl_cancelStep_of_settled [] h

/-! ## Sequences of cancellations -/

theorem CancelsPair.append_right (h : CancelsPair v w) (u : Word) :
    CancelsPair (v ++ u) (w ++ u) := by
  cases h with
  | mk u₁ u₂ hab =>
    rw [List.append_assoc, List.append_assoc]
    exact .mk _ _ hab

/-- Two words one behind the other may be cancelled each on its own first. -/
theorem cancels_append (v w : Word) :
    ReflTransGen CancelsPair (v ++ w) (v.cancelTurns ++ w.cancelTurns) :=
  ((cancels_cancelTurns v).lift (· ++ w) fun _ _ h => h.append_right w).trans
    ((cancels_cancelTurns w).lift (v.cancelTurns ++ ·) fun _ _ h => h.append_left _)

/-- The sweep over a word finds its only normal form. No turn in it stands next to an opposite
    one; it is reached by taking out pairs one at a time; and every sequence of these that
    ends in a word without a pair ends in it. So a word that is cancelled already stays as it
    is, and two words may be cancelled before they are put together. -/
theorem cancelTurns_isNormalForm (w : Word) :
    Settled w.cancelTurns ∧ ReflTransGen CancelsPair w w.cancelTurns ∧
      (∀ v, ReflTransGen CancelsPair w v → Settled v → v = w.cancelTurns) ∧
      w.cancelTurns.cancelTurns = w.cancelTurns ∧
      ∀ v, (w ++ v).cancelTurns = (w.cancelTurns ++ v.cancelTurns).cancelTurns := by
  refine ⟨settled_cancelTurns w, cancels_cancelTurns w, fun v hv hsettled => ?_,
    cancelTurns_of_settled (settled_cancelTurns w),
    fun v => cancelTurns_eq_of_cancels (cancels_append w v)⟩
  rw [cancelTurns_eq_of_cancels hv, cancelTurns_of_settled hsettled]

/-- The second and third turn are taken out first, which the sweep would leave for later. -/
theorem cancelTurns_isNormalForm_inside :
    ReflTransGen CancelsPair ['+', '+', '-', 'F', '-', '+'] ['+', 'F'] ∧ Settled ['+', 'F'] ∧
      ['+', 'F'] = cancelTurns ['+', '+', '-', 'F', '-', '+'] := by
  have hinside : CancelsPair ['+', '+', '-', 'F', '-', '+'] ['+', 'F', '-', '+'] :=
    .mk ['+'] ['F', '-', '+'] rfl
  have hback : CancelsPair ['+', 'F', '-', '+'] ['+', 'F'] := .mk ['+', 'F'] [] rfl
  have hsteps : ReflTransGen CancelsPair ['+', '+', '-', 'F', '-', '+'] ['+', 'F'] :=
    .tail (.single hinside) hback
  have hsettled : Settled ['+', 'F'] := by
    rw [settled_iff_isChain]
    simp [opposite]
  exact ⟨hsteps, hsettled, (cancelTurns_isNormalForm _).2.2.1 _ hsteps hsettled⟩

end Lindenmayer

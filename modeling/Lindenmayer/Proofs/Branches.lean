import Lindenmayer.Proofs.Acceptance
import Lindenmayer.Proofs.Normalisation

/-!
# Branches

At the end of a branch the turtle is where it was at its begin, with the heading it had
there and with the same turtles saved, whatever the branch holds.

* `Recording.saved_of_run`: a walk that closes no more brackets than it opens leaves the
  turtles that were saved before it as they are;
* `AroundBranch.restores`: so a `]` brings back the turtle that its `[` has saved;
* `branch_restores`: the same of a word that compiles, and what follows for the drawing:
  what is left outside a branch does not depend on what the branch holds.
-/

namespace Lindenmayer

open Word

variable {η κ : Type} [Heading η] [Coordinate κ] {unit : η → Point κ} {angle : η}

/-! ## Saved turtles -/

/-- What a command adds to the number of turtles saved. -/
def Command.rise : Command → ℤ
  | .push => 1
  | .pop => -1
  | _ => 0

theorem rise_of_command? {c : Char} {command : Command}
    (h : (Op.ofSymbol c).command? = some command) : command.rise = rise c :=
  of_command? (P := fun c command => command.rise = rise c) (by decide) h

/-- A step leaves the turtles saved at the bottom as they are, unless it restores one of
    them. -/
theorem Walker.saved_of_step {w w' : Walker η κ} {top base : List (Turtle η κ)}
    {i : Instruction} (hstep : w.step unit angle i = .ok w') (hsaved : w.saved = top ++ base)
    (hfloor : 0 ≤ top.length + i.command.rise) :
    ∃ top', w'.saved = top' ++ base ∧ (top'.length : ℤ) = top.length + i.command.rise := by
  rw [step] at hstep
  cases hc : i.command with
  | push =>
    rw [hc] at hstep
    obtain rfl := Except.ok.inj hstep
    exact ⟨w.turtle :: top, by simp [push, hsaved], by simp [Command.rise]⟩
  | pop =>
    rw [hc] at hstep hfloor
    cases top with
    | nil => simp [Command.rise] at hfloor
    | cons t top =>
      simp only [pop, hsaved, List.cons_append] at hstep
      obtain rfl := Except.ok.inj hstep
      exact ⟨top, rfl, by simp [Command.rise]⟩
  | malformed =>
    rw [hc] at hstep
    cases hstep
  | _ =>
    rw [hc] at hstep
    obtain rfl := Except.ok.inj hstep
    exact ⟨top, hsaved, by simp [Command.rise]⟩

namespace Recording

variable {r r' : Recording η κ} {P : Char → Prop} {u x v : Word}

/-- A walk over a text that closes none of the brackets at the bottom leaves the turtles
    saved there as they are. -/
theorem saved_of_run (hx : Composed P x) {position : ℕ} {top base : List (Turtle η κ)}
    (hsaved : r.walker.saved = top ++ base) (hfloor : ∀ q, q <+: x → 0 ≤ top.length + height q)
    (hrun : r.run unit angle (readFrom position x) = .ok r') :
    ∃ top', r'.walker.saved = top' ++ base ∧ (top'.length : ℤ) = top.length + height x := by
  -- Symbol by symbol, the part of the stack above the bottom is as high as the text so far.
  induction hx generalizing position r top with
  | nil =>
    rw [readFrom_nil] at hrun
    obtain rfl : r = r' := Except.ok.inj hrun
    exact ⟨top, hsaved, by simp⟩
  | @symbol c w hc hp hw ih =>
    have hfront : ∀ q, q <+: w → 0 ≤ top.length + (rise c + height q) := fun q hq => by
      have := hfloor (c :: q) (List.cons_prefix_cons.2 ⟨rfl, hq⟩)
      rwa [height_cons] at this
    rcases command?_or_variable hc with ⟨command, hcommand⟩ | hvariable
    · rw [readFrom_command hcommand] at hrun
      obtain ⟨r₁, hstep, hrest⟩ := run_cons_eq_ok_iff.1 hrun
      obtain ⟨w₁, inside, hwalker, -, rfl⟩ := step_eq_ok_iff.1 hstep
      have hrise := rise_of_command? hcommand
      have hfloor₁ := hfront [] List.nil_prefix
      obtain ⟨top₁, hsaved₁, hlength₁⟩ := Walker.saved_of_step hwalker hsaved
        (by simpa [hrise] using hfloor₁)
      obtain ⟨top', hsaved', hlength'⟩ := ih hsaved₁ (fun q hq => by
        have := hfront q hq
        simp only [hlength₁, hrise]
        omega) hrest
      refine ⟨top', hsaved', ?_⟩
      rw [hlength', hlength₁, height_cons, hrise]
      ring
    · have hrise : rise c = 0 := by
        refine rise_eq_zero ?_ ?_ <;> rintro rfl <;> cases hvariable
      rw [readFrom_variable hvariable] at hrun
      obtain ⟨top', hsaved', hlength'⟩ := ih hsaved (fun q hq => by
        have := hfront q hq
        rwa [hrise, zero_add] at this) hrun
      exact ⟨top', hsaved', by rw [hlength', height_cons, hrise, zero_add]⟩
  | @heading literal w d hliteral hread hw ih =>
    -- A heading opens and closes no bracket.
    have hheight := height_neutral (isNeutral_of_mem_heading hliteral)
    rw [readFrom_heading hliteral hread] at hrun
    obtain ⟨r₁, hstep, hrest⟩ := run_cons_eq_ok_iff.1 hrun
    have hsaved₁ : r₁.walker.saved = top ++ base := by
      rw [← Except.ok.inj hstep]
      exact hsaved
    rw [heading_eq_append] at hfloor ⊢
    obtain ⟨top', hsaved', hlength'⟩ := ih hsaved₁ (fun q hq => by
      have := hfloor _ (List.prefix_append_right_inj _ |>.2 hq)
      rwa [height_append, hheight, zero_add] at this) hrest
    exact ⟨top', hsaved', by rw [hlength', height_append, hheight, zero_add]⟩

/-- A walk over balanced text leaves the saved turtles as they are. -/
theorem saved_of_run_balanced (hx : Composed P x) (hbalanced : Balanced x) {position : ℕ}
    (hrun : r.run unit angle (readFrom position x) = .ok r') :
    r'.walker.saved = r.walker.saved := by
  have hfloor : ∀ q, q <+: x → 0 ≤ (([] : List (Turtle η κ)).length : ℤ) + height q := by
    rintro q ⟨rest, rfl⟩
    simpa using hbalanced.height_nonneg
  obtain ⟨top, hsaved, hlength⟩ := saved_of_run hx (List.nil_append _).symm hfloor hrun
  rw [hbalanced.height_eq_zero] at hlength
  obtain rfl : top = [] := List.eq_nil_of_length_eq_zero (by simpa using hlength)
  exact hsaved

/-- What is walked over is composed of headings and symbols. -/
theorem composed_of_run {position : ℕ}
    (h : r.run unit angle (readFrom position x) = .ok r') : Composed (fun _ => True) x := by
  refine composed_of_readFrom fun i (hi : i ∈ readFrom position x) hmalformed => ?_
  obtain ⟨front, back, hsplit⟩ := List.append_of_mem hi
  rw [hsplit] at h
  obtain ⟨r₁, -, hrest⟩ := run_append_eq_ok_iff.1 h
  obtain ⟨r₂, hstep, -⟩ := run_cons_eq_ok_iff.1 hrest
  simp [step, Walker.step, hmalformed] at hstep

/-! ## Around a branch -/

/-- A walk over `u[x]v`, with what it records in front of the branch, in front of the `]`,
    behind that, and in the end. -/
structure AroundBranch (unit : η → Point κ) (angle : η) (r : Recording η κ) (u x v : Word)
    (r₀ r₁ r₂ r' : Recording η κ) : Prop where
  front : r.run unit angle (readFrom 0 u) = .ok r₀
  inside : r₀.run unit angle (readFrom u.length ('[' :: x)) = .ok r₁
  close : r₁.step unit angle ⟨u.length + 1 + x.length, .pop⟩ = .ok r₂
  back : r₂.run unit angle (readFrom (u.length + 1 + x.length + 1) v) = .ok r'

theorem readFrom_open (position : ℕ) (x : Word) :
    readFrom position ('[' :: x) = ⟨position, .push⟩ :: readFrom (position + 1) x :=
  readFrom_command rfl

theorem readFrom_branch (hu : Composed P u) (hx : Composed P x) :
    readFrom 0 (u ++ '[' :: (x ++ ']' :: v)) =
      readFrom 0 u ++ (readFrom u.length ('[' :: x) ++ ⟨u.length + 1 + x.length, .pop⟩ ::
        readFrom (u.length + 1 + x.length + 1) v) := by
  have hpop : (Op.ofSymbol ']').command? = some .pop := rfl
  rw [readFrom_append hu, readFrom_open, readFrom_open, readFrom_append hx,
    readFrom_command hpop, zero_add, List.cons_append]

/-- A branch cuts a stream that is walked over. -/
theorem composed_around_branch {position : ℕ}
    (h : r.run unit angle (readFrom position (u ++ '[' :: (x ++ ']' :: v))) = .ok r') :
    Composed (fun _ => True) u ∧ Composed (fun _ => True) x := by
  obtain ⟨hu, -, hrest⟩ := (composed_of_run h).cut_at (by decide) (by decide) (by decide)
  obtain ⟨hx, -, -⟩ := hrest.cut_at (by decide) (by decide) (by decide)
  exact ⟨hu, hx⟩

theorem exists_aroundBranch
    (h : r.run unit angle (readFrom 0 (u ++ '[' :: (x ++ ']' :: v))) = .ok r') :
    ∃ r₀ r₁ r₂, AroundBranch unit angle r u x v r₀ r₁ r₂ r' := by
  obtain ⟨hu, hx⟩ := composed_around_branch h
  rw [readFrom_branch hu hx] at h
  obtain ⟨r₀, hfront, h⟩ := run_append_eq_ok_iff.1 h
  obtain ⟨r₁, hinside, h⟩ := run_append_eq_ok_iff.1 h
  obtain ⟨r₂, hclose, hback⟩ := run_cons_eq_ok_iff.1 h
  exact ⟨r₀, r₁, r₂, hfront, hinside, hclose, hback⟩

/-- A recording that walks on stands behind what it has walked over as well. -/
theorem Behind.run (h : r.Behind u)
    (hrun : r.run unit angle (readFrom u.length v) = .ok r') : r'.Behind (u ++ v) := by
  have hverdict : Verdict (u ++ v) u.length (u ++ v).length
      (r.run unit angle (readFrom u.length v)) := run_verdict _ v u rfl r h
  rw [hrun] at hverdict
  cases hverdict with
  | accepted _ hbehind => rwa [List.take_length] at hbehind

namespace AroundBranch

variable {r₀ r₁ r₂ : Recording η κ}

/-- The `]` of a branch brings back the turtle in front of it, and what was saved there. -/
theorem restores (h : AroundBranch unit angle r u x v r₀ r₁ r₂ r') (hbalanced : Balanced x) :
    r₂.walker = r₀.walker ∧ r₂.primitives = .restore r₀.position :: r₁.primitives := by
  obtain ⟨r₀', hpush, hinside⟩ := run_cons_eq_ok_iff.1 (readFrom_open _ x ▸ h.inside)
  obtain rfl := Except.ok.inj hpush
  have hsaved := saved_of_run_balanced (composed_of_run hinside) hbalanced hinside
  have hclose := h.close
  simp only [step, Walker.step, Walker.pop, hsaved, Walker.push] at hclose
  obtain rfl := Except.ok.inj hclose
  exact ⟨rfl, rfl⟩

/-- A branch without braces leaves polygons as they are. -/
theorem polygonOpen_eq (h : AroundBranch unit angle r u x v r₀ r₁ r₂ r') (hr : r.Behind [])
    (hbraces : braces x = []) : r₂.polygonOpen = r₀.polygonOpen := by
  have h₀ : r₀.Behind u := hr.run h.front
  have h₁ : r₁.Behind (u ++ '[' :: x) := h₀.run h.inside
  have hsame : braces (u ++ '[' :: x) = braces u := by
    rw [braces_append, braces_cons, hbraces]
    exact List.append_nil _
  obtain ⟨w, inside, -, hmark, rfl⟩ := step_eq_ok_iff.1 h.close
  obtain rfl : r₁.polygonOpen = inside := Option.some.inj hmark
  refine Option.some.inj ?_
  rw [← h₁.polygon, hsame, h₀.polygon]

end AroundBranch

/-! ## What is left outside a branch -/

theorem run_unplaced_eq_ok_iff {l : List Instruction} :
    r.run unit angle (l.map Instruction.unplaced) = .ok r' ↔ r.run unit angle l = .ok r' := by
  rw [← run_unplaced]
  cases r.run unit angle l <;> simp [Except.mapError]

theorem map_unplaced_readFrom (position position' : ℕ) (v : Word) :
    (readFrom position v).map Instruction.unplaced =
      (readFrom position' v).map Instruction.unplaced := by
  have h := congrArg (List.map (Instruction.mk 0)) (map_command_readFrom position position' v)
  rwa [List.map_map, List.map_map] at h

/-- Two recordings that have walked alike since `r` and `s`: they have left the same. -/
structure LeftSame (r s r' s' : Recording η κ) : Prop where
  walker_eq : s'.walker = r'.walker
  polygonOpen_eq : s'.polygonOpen = r'.polygonOpen
  primitives : ∃ left, r'.primitives = left ++ r.primitives ∧ s'.primitives = left ++ s.primitives

theorem LeftSame.step {r s r₁ s₁ r₂ : Recording η κ} {i : Instruction} (h : LeftSame r s r₁ s₁)
    (hstep : r₁.step unit angle i = .ok r₂) :
    ∃ s₂, s₁.step unit angle i = .ok s₂ ∧ LeftSame r s r₂ s₂ := by
  obtain ⟨w, inside, hwalker, hmark, rfl⟩ := step_eq_ok_iff.1 hstep
  obtain ⟨left, hr, hs⟩ := h.primitives
  have hposition : s₁.position = r₁.position := by rw [position, h.walker_eq, position]
  refine ⟨_, step_of_walker_ok (h.walker_eq ▸ hwalker) (h.polygonOpen_eq ▸ hmark), rfl, rfl,
    (leaves r₁.position w.turtle.position i.command).toList ++ left, ?_, ?_⟩
  · rw [hr, List.append_assoc]
  · rw [hs, hposition, List.append_assoc]

/-- What a walk leaves depends on the commands, on the walker and on whether a polygon is
    open. -/
theorem left_of_run {s s' : Recording η κ} {position position' : ℕ}
    (hwalker : s.walker = r.walker) (hopen : s.polygonOpen = r.polygonOpen)
    (hr : r.run unit angle (readFrom position v) = .ok r')
    (hs : s.run unit angle (readFrom position' v) = .ok s') :
    ∃ left, r'.primitives = left ++ r.primitives ∧ s'.primitives = left ++ s.primitives := by
  -- The two walks differ in the positions of their commands only.
  rw [← run_unplaced_eq_ok_iff] at hr hs
  rw [map_unplaced_readFrom position' position] at hs
  obtain ⟨s₁, hs₁, hsame⟩ := foldlM_forward (f := step unit angle) (g := step unit angle)
    (fun _ _ _ _ => LeftSame.step) hr (⟨hwalker, hopen, [], rfl, rfl⟩ : LeftSame r s r s)
  obtain rfl : s₁ = s' := Except.ok.inj (hs₁.symm.trans hs)
  exact hsame.primitives

/-- A walk carries out an instruction, between two states of its recording. -/
def Passes (unit : η → Point κ) (angle : η) (r : Recording η κ) (l : List Instruction)
    (i : Instruction) (before after : Recording η κ) : Prop :=
  ∃ front back, l = front ++ i :: back ∧ r.run unit angle front = .ok before ∧
    before.step unit angle i = .ok after

/-- The walk over a word carries out what the walk over its stream does. -/
theorem Passes.of_stream {w : Word} {i : Instruction} {before after : Recording η κ}
    (h : Passes unit angle r (readFrom 0 (stream w)) i before after) :
    Passes unit angle r (commands w) i before after := by
  obtain ⟨front, back, hsplit, hfront, hstep⟩ := h
  rw [← filter_acts_commands, List.filter_eq_append_iff] at hsplit
  obtain ⟨l₁, l₂, hl, rfl, hrest⟩ := hsplit
  obtain ⟨m₁, m₂, rfl, hidle, -, -⟩ := List.filter_eq_cons_iff.1 hrest
  refine ⟨l₁ ++ m₁, m₂, by rw [hl, List.append_assoc], ?_, hstep⟩
  -- In front of the instruction, only variables are met that the stream does not have.
  rw [← run_filter_acts, List.filter_append, List.filter_eq_nil_iff.2 hidle, List.append_nil]
  exact hfront

variable {w : Word} {r₀ r₁ r₂ : Recording η κ}

/-- A walk around a branch carries out both brackets of it. -/
theorem AroundBranch.passes (h : AroundBranch unit angle r u x v r₀ r₁ r₂ r')
    (hw : stream w = u ++ '[' :: (x ++ ']' :: v)) :
    (∃ after, Passes unit angle r (commands w) ⟨u.length, .push⟩ r₀ after) ∧
      Passes unit angle r (commands w) ⟨u.length + 1 + x.length, .pop⟩ r₁ r₂ := by
  obtain ⟨r₀', hpush, hinside⟩ := run_cons_eq_ok_iff.1 (readFrom_open _ x ▸ h.inside)
  have hsplit : readFrom 0 (stream w) = _ :=
    hw ▸ readFrom_branch (composed_of_run h.front) (composed_of_run hinside)
  constructor
  · rw [readFrom_open, List.cons_append] at hsplit
    exact ⟨r₀', .of_stream ⟨_, _, hsplit, h.front, hpush⟩⟩
  · rw [← List.append_assoc] at hsplit
    exact .of_stream ⟨_, _, hsplit, run_append_eq_ok_iff.2 ⟨r₀, h.front, h.inside⟩, h.close⟩

end Recording

/-! ## Drawings -/

open Recording

variable {w u x v : Word} {originX : κ} {d : Drawing κ}

theorem run_stream_of_compile (h : compile unit w originX angle = .ok d) :
    ∃ r : Recording η κ, Recording.run unit angle (.start ⟨originX, Coordinate.ofInt 0⟩)
      (readFrom 0 (stream w)) = .ok r ∧ d.primitives = r.primitives.reverse := by
  obtain ⟨-, -, r, hr, -, rfl⟩ := compile_eq_ok_iff.1 h
  refine ⟨r, ?_, rfl⟩
  rw [← filter_acts_commands, run_filter_acts]
  exact hr

/-- In the stream of a word that compiles every `]` has a partner. -/
theorem exists_matched_of_compile (h : compile unit w originX angle = .ok d) {b : ℕ}
    (hb : (stream w)[b]? = some ']') : ∃ a, Matched (stream w) a b := by
  obtain ⟨r, hr, -⟩ := run_stream_of_compile h
  obtain ⟨hlt, -⟩ := List.getElem?_eq_some_iff.1 hb
  exact exists_matched_of_height hb (((behind_start _).run hr).height_nonneg _ hlt)

/-- Around a branch of a word that compiles: the states in front of the branch, in front of
    its `]` and behind that, and what is left in these parts of the walk. -/
theorem exists_aroundBranch_of_compile (h : compile unit w originX angle = .ok d)
    (hw : stream w = u ++ '[' :: (x ++ ']' :: v)) :
    ∃ r₀ r₁ r₂ r : Recording η κ,
      AroundBranch unit angle (.start ⟨originX, Coordinate.ofInt 0⟩) u x v r₀ r₁ r₂ r ∧
      d.primitives = r.primitives.reverse := by
  obtain ⟨r, hr, hd⟩ := run_stream_of_compile h
  rw [hw] at hr
  obtain ⟨r₀, r₁, r₂, haround⟩ := exists_aroundBranch hr
  exact ⟨r₀, r₁, r₂, r, haround, hd⟩

/-- What a walk leaves in front of the `[` at one position, between it and the `]` at
    another position, and from there on. -/
structure LeavesAround (unit : η → Point κ) (angle : η) (w : Word) (originX : κ) (a b : ℕ)
    (front inside back : List (Primitive κ)) : Prop where
  opening : ∃ before after, Passes unit angle (.start ⟨originX, Coordinate.ofInt 0⟩) (commands w)
    ⟨a, .push⟩ before after ∧ before.primitives.reverse = front
  closing : ∃ before after, Passes unit angle (.start ⟨originX, Coordinate.ofInt 0⟩) (commands w)
    ⟨b, .pop⟩ before after ∧ before.primitives.reverse = front ++ inside
  drawing : ∃ d, compile unit w originX angle = .ok d ∧
    d.primitives = front ++ (inside ++ back)

theorem leavesAround_of_aroundBranch {r₀ r₁ r₂ r : Recording η κ}
    (haround : AroundBranch unit angle (.start ⟨originX, Coordinate.ofInt 0⟩) u x v r₀ r₁ r₂ r)
    (hw : stream w = u ++ '[' :: (x ++ ']' :: v)) (hbalanced : Balanced x)
    (hcompile : compile unit w originX angle = .ok d)
    (hd : d.primitives = r.primitives.reverse) {left : List (Primitive κ)}
    (hback : r.primitives = left ++ r₂.primitives) :
    ∃ inside, LeavesAround unit angle w originX u.length (u.length + 1 + x.length)
      r₀.primitives.reverse inside (.restore r₀.position :: left.reverse) := by
  obtain ⟨⟨after, hopening⟩, hclosing⟩ := haround.passes hw
  obtain ⟨-, hrestore⟩ := haround.restores hbalanced
  obtain ⟨inside, hinside⟩ := exists_left_of_run haround.inside
  refine ⟨inside.reverse, ⟨r₀, after, hopening, rfl⟩, ⟨r₁, r₂, hclosing, ?_⟩, d, hcompile, ?_⟩
  · rw [hinside, List.reverse_append]
  · rw [hd, hback, hrestore, hinside]
    simp

/-- Every branch restores the turtle. For each `]` in the stream of a word that compiles, the
    walker behind it is the walker in front of its partner, with the same heading, the same
    position and the same turtles saved, and the restore that the `]` leaves carries that
    position. So two words without variables or turns to cancel that compile and differ
    inside one branch only, where brackets are balanced and there are no braces, leave the
    same in front of the branch and from its `]` on. -/
theorem branch_restores (unit : η → Point κ) (originX : κ) (angle : η) :
    (∀ w d, compile unit w originX angle = .ok d → ∀ b, (stream w)[b]? = some ']' →
      ∃ a, Matched (stream w) a b ∧ ∃ r₀ r₀' r₁ r₂ : Recording η κ,
        Passes unit angle (.start ⟨originX, Coordinate.ofInt 0⟩) (commands w) ⟨a, .push⟩ r₀ r₀' ∧
        Passes unit angle (.start ⟨originX, Coordinate.ofInt 0⟩) (commands w) ⟨b, .pop⟩ r₁ r₂ ∧
        r₂.walker = r₀.walker ∧
        (r₁.primitives.reverse ++ [.restore r₀.position]) <+: d.primitives) ∧
    ∀ u x x' v, Balanced x → Balanced x' → braces x = [] → braces x' = [] →
      stream (u ++ '[' :: (x ++ ']' :: v)) = u ++ '[' :: (x ++ ']' :: v) →
      stream (u ++ '[' :: (x' ++ ']' :: v)) = u ++ '[' :: (x' ++ ']' :: v) →
      ∀ d d', compile unit (u ++ '[' :: (x ++ ']' :: v)) originX angle = .ok d →
      compile unit (u ++ '[' :: (x' ++ ']' :: v)) originX angle = .ok d' →
      ∃ front inside inside' back,
        LeavesAround unit angle (u ++ '[' :: (x ++ ']' :: v)) originX u.length
          (u.length + 1 + x.length) front inside back ∧
        LeavesAround unit angle (u ++ '[' :: (x' ++ ']' :: v)) originX u.length
          (u.length + 1 + x'.length) front inside' back := by
  constructor
  · intro w d h b hb
    obtain ⟨a, hm⟩ := exists_matched_of_compile h hb
    obtain ⟨u, x, v, hw, rfl, rfl, hbalanced⟩ := hm.exists_eq
    obtain ⟨r₀, r₁, r₂, r, haround, hd⟩ := exists_aroundBranch_of_compile h hw
    obtain ⟨hwalker, hprimitives⟩ := haround.restores hbalanced
    obtain ⟨⟨r₀', hopening⟩, hclosing⟩ := haround.passes hw
    obtain ⟨left, hback⟩ := exists_left_of_run haround.back
    refine ⟨_, hm, r₀, r₀', r₁, r₂, hopening, hclosing, hwalker, left.reverse, ?_⟩
    rw [hd, hback, hprimitives]
    simp
  · intro u x x' v hx hx' hbraces hbraces' hs hs' d d' h h'
    obtain ⟨r₀, r₁, r₂, r, haround, hd⟩ := exists_aroundBranch_of_compile h hs
    obtain ⟨r₀', r₁', r₂', r', haround', hd'⟩ := exists_aroundBranch_of_compile h' hs'
    -- Both walks come to the branch in the same state, and leave it in the same state but
    -- for what they have left.
    obtain rfl : r₀ = r₀' := Except.ok.inj (haround.front.symm.trans haround'.front)
    have hwalker : r₂'.walker = r₂.walker :=
      (haround'.restores hx').1.trans (haround.restores hx).1.symm
    have hopen : r₂'.polygonOpen = r₂.polygonOpen :=
      (haround'.polygonOpen_eq (behind_start _) hbraces').trans
        (haround.polygonOpen_eq (behind_start _) hbraces).symm
    obtain ⟨left, hback, hback'⟩ := left_of_run hwalker hopen haround.back haround'.back
    obtain ⟨inside, hleaves⟩ := leavesAround_of_aroundBranch haround hs hx h hd hback
    obtain ⟨inside', hleaves'⟩ := leavesAround_of_aroundBranch haround' hs' hx' h' hd' hback'
    exact ⟨_, inside, inside', _, hleaves, hleaves'⟩

/-- What a branch holds is turned the other way and made longer. -/
theorem branch_restores_turned :
    ∃ front inside inside' back,
      LeavesAround (unitStep fun _ => (Point.origin : Point ℚ)) (90 : ℚ)
        ['F', '[', '+', 'F', ']', 'F'] 0 1 4 front inside back ∧
      LeavesAround (unitStep fun _ => Point.origin) (90 : ℚ)
        ['F', '[', '-', 'F', 'F', ']', 'F'] 0 1 5 front inside' back := by
  have hok : ∀ w ∈ [['F', '[', '+', 'F', ']', 'F'], ['F', '[', '-', 'F', 'F', ']', 'F']],
      stream w = w ∧
        (compile (unitStep fun _ => (Point.origin : Point ℚ)) w 0 (90 : ℚ)).toOption.isSome := by
    decide +kernel
  obtain ⟨hstream, hcompile⟩ := hok _ List.mem_cons_self
  obtain ⟨hstream', hcompile'⟩ := hok _ (List.mem_cons_of_mem _ List.mem_cons_self)
  obtain ⟨d, hd⟩ := exists_ok_of_toOption hcompile
  obtain ⟨d', hd'⟩ := exists_ok_of_toOption hcompile'
  have hbalanced : Balanced ['+', 'F'] :=
    .symbol (by decide) (by decide) (.symbol (by decide) (by decide) .nil)
  have hbalanced' : Balanced ['-', 'F', 'F'] :=
    .symbol (by decide) (by decide)
      (.symbol (by decide) (by decide) (.symbol (by decide) (by decide) .nil))
  exact (branch_restores (unitStep fun _ => (Point.origin : Point ℚ)) 0 (90 : ℚ)).2 ['F'] _ _
    ['F'] hbalanced hbalanced' rfl rfl hstream hstream' d d' hd hd'

end Lindenmayer

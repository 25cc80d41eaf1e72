import Lindenmayer.Drawing.Compile
import Lindenmayer.Proofs.Commands

/-!
# Walks and their records

A recorded walk does three things at once, which do not depend on each other: the
turtle walks (`Walker.run`), the braces open and close polygons (`polygonAfter`), and
each command leaves at most one primitive (`Recording.leaves`). `step_eq_ok_iff` says
so of a step, and `run_of_walker_ok` and `run_of_walker_error` of a whole walk.

* `foldlM_agree`: two loops that start in related states and agree at every step
  agree in the end, in the error too;
* `walker_run_agree`: whether a walk goes through depends on the commands and on how
  many turtles are saved, not on where the turtle is;
* `compile_eq_ok_iff`: what it takes for a word to compile, and what it compiles to.
-/

namespace Lindenmayer

/-! ## Loops in step -/

section Agreement

variable {ε σ τ α : Type}

/-- Two outcomes agree if they are the same error, or results that are related. -/
inductive Agree (R : σ → τ → Prop) : Except ε σ → Except ε τ → Prop
  | error (e : ε) : Agree R (.error e) (.error e)
  | ok {s : σ} {t : τ} : R s t → Agree R (.ok s) (.ok t)

variable {R : σ → τ → Prop} {x : Except ε σ} {y : Except ε τ} {s : σ} {t : τ} {e : ε}

theorem Agree.error_iff (h : Agree R x y) : x = .error e ↔ y = .error e := by
  cases h with
  | error => simp
  | ok => simp

theorem Agree.exists_right (h : Agree R x y) (hx : x = .ok s) : ∃ t, y = .ok t ∧ R s t := by
  subst hx
  cases h with
  | ok hst => exact ⟨_, rfl, hst⟩

theorem Agree.exists_left (h : Agree R x y) (hy : y = .ok t) : ∃ s, x = .ok s ∧ R s t := by
  subst hy
  cases h with
  | ok hst => exact ⟨_, rfl, hst⟩

theorem exists_ok_of_toOption (h : x.toOption.isSome) : ∃ s, x = .ok s := by
  cases x with
  | error e => cases h
  | ok s => exact ⟨s, rfl⟩

theorem exists_ok_of_map_toOption {β : Type} {f : σ → β} {b : β} (h : x.toOption.map f = some b) :
    ∃ s, x = .ok s ∧ f s = b := by
  cases x with
  | error e => cases h
  | ok s => exact ⟨s, rfl, Option.some.inj h⟩

theorem foldlM_cons_ok {f : σ → α → Except ε σ} {a : α} {s s' : σ} (h : f s a = .ok s')
    (l : List α) : (a :: l).foldlM f s = l.foldlM f s' := by
  rw [List.foldlM_cons, h]
  rfl

theorem foldlM_cons_error {f : σ → α → Except ε σ} {a : α} {s : σ} (h : f s a = .error e)
    (l : List α) : (a :: l).foldlM f s = .error e := by
  rw [List.foldlM_cons, h]
  rfl

/-- Two loops over the same list agree if their steps on its members do. -/
theorem foldlM_agree_of_mem {f : σ → α → Except ε σ} {g : τ → α → Except ε τ} {l : List α}
    (hstep : ∀ s t, ∀ a ∈ l, R s t → Agree R (f s a) (g t a)) (h : R s t) :
    Agree R (l.foldlM f s) (l.foldlM g t) := by
  induction l generalizing s t with
  | nil => exact .ok h
  | cons a l ih =>
    -- Either both loops stop here, with the same error, or both go on.
    generalize hs : f s a = x
    generalize ht : g t a = y
    have hst : Agree R x y := hs ▸ ht ▸ hstep s t a List.mem_cons_self h
    cases hst with
    | error e => rw [foldlM_cons_error hs, foldlM_cons_error ht]; exact .error e
    | ok h' =>
      rw [foldlM_cons_ok hs, foldlM_cons_ok ht]
      exact ih (fun s t b hb => hstep s t b (List.mem_cons_of_mem _ hb)) h'

/-- Two loops over the same list agree if their steps do. -/
theorem foldlM_agree {f : σ → α → Except ε σ} {g : τ → α → Except ε τ}
    (hstep : ∀ s t a, R s t → Agree R (f s a) (g t a)) (l : List α) (h : R s t) :
    Agree R (l.foldlM f s) (l.foldlM g t) :=
  foldlM_agree_of_mem (fun s t a _ => hstep s t a) h

/-- If every step of one loop can be followed by a step of the other one, so can the
    whole loop. -/
theorem foldlM_forward {f : σ → α → Except ε σ} {g : τ → α → Except ε τ}
    (hstep : ∀ s t a s', R s t → f s a = .ok s' → ∃ t', g t a = .ok t' ∧ R s' t')
    {l : List α} {s' : σ} (hf : l.foldlM f s = .ok s') (h : R s t) :
    ∃ t', l.foldlM g t = .ok t' ∧ R s' t' := by
  induction l generalizing s t with
  | nil =>
    obtain rfl : s = s' := Except.ok.inj hf
    exact ⟨t, rfl, h⟩
  | cons a l ih =>
    cases hs : f s a with
    | error e =>
      rw [foldlM_cons_error hs] at hf
      cases hf
    | ok v =>
      rw [foldlM_cons_ok hs] at hf
      obtain ⟨t', ht', hv⟩ := hstep s t a v h hs
      rw [foldlM_cons_ok ht']
      exact ih hf hv

/-- What every step keeps, the loop keeps. -/
theorem foldlM_preserves {f : σ → α → Except ε σ} {P : σ → Prop}
    (hstep : ∀ s a s', P s → f s a = .ok s' → P s') {l : List α} {s' : σ}
    (hf : l.foldlM f s = .ok s') (h : P s) : P s' := by
  induction l generalizing s with
  | nil =>
    obtain rfl : s = s' := Except.ok.inj hf
    exact h
  | cons a l ih =>
    cases hs : f s a with
    | error e =>
      rw [foldlM_cons_error hs] at hf
      cases hf
    | ok v =>
      rw [foldlM_cons_ok hs] at hf
      exact ih hf (hstep s a v h hs)

end Agreement

variable {η κ : Type} [Heading η] [Coordinate κ] {unit : η → Point κ} {angle : η}

/-! ## Walks without a record -/

/-- Carries out commands one after the other. -/
def Walker.run (unit : η → Point κ) (angle : η) (w : Walker η κ) (l : List Instruction) :
    Except Error (Walker η κ) :=
  l.foldlM (step unit angle) w

theorem Walker.step_agree (unit unit' : η → Point κ) (angle : η) (w w' : Walker η κ)
    (i : Instruction) (h : w.saved.length = w'.saved.length) :
    Agree (fun v v' : Walker η κ => v.saved.length = v'.saved.length)
      (w.step unit angle i) (w'.step unit' angle i) := by
  unfold Walker.step
  cases i.command with
  | push => exact .ok (congrArg Nat.succ h)
  | pop =>
    unfold Walker.pop
    -- Either both walkers have a turtle to restore or none has.
    cases hs : w.saved <;> cases hs' : w'.saved <;> rw [hs, hs'] at h
    · exact .error _
    · cases h
    · cases h
    · exact .ok (Nat.succ.inj h)
  | malformed => exact .error _
  | _ => exact .ok h

/-- Whether a walk goes through, and the error if it does not, depends on the number of
    turtles saved alone. -/
theorem walker_run_agree (unit : η → Point κ) (angle : η) (w w' : Walker η κ)
    (l : List Instruction) (h : w.saved.length = w'.saved.length) :
    Agree (fun v v' : Walker η κ => v.saved.length = v'.saved.length)
      (w.run unit angle l) (w'.run unit angle l) :=
  foldlM_agree (fun v v' i => Walker.step_agree unit unit angle v v' i) l h

/-- A walk that goes through meets no malformed heading. -/
theorem not_malformed_of_walker_run {w w' : Walker η κ} {l : List Instruction}
    (h : w.run unit angle l = .ok w') : ∀ i ∈ l, i.command ≠ .malformed := by
  induction l generalizing w with
  | nil => exact fun _ hi => absurd hi List.not_mem_nil
  | cons j l ih =>
    cases hstep : w.step unit angle j with
    | error e =>
      rw [Walker.run, foldlM_cons_error hstep] at h
      cases h
    | ok v =>
      rw [Walker.run, foldlM_cons_ok hstep] at h
      intro i hi
      rcases List.mem_cons.1 hi with rfl | hi
      · intro hmal
        simp [Walker.step, hmal] at hstep
      · exact ih h i hi

/-! ## Polygons -/

/-- Whether a polygon is open behind braces, if none opens inside another one and none
    that is not open is closed. -/
def polygonAfter (inside : Bool) : Word → Option Bool
  | [] => some inside
  | c :: rest =>
    if c = '{' then if inside then none else polygonAfter true rest
    else if inside then polygonAfter false rest
    else none

theorem polygonAfter_append (inside : Bool) (u v : Word) :
    polygonAfter inside (u ++ v) = (polygonAfter inside u).bind (polygonAfter · v) := by
  induction u generalizing inside with
  | nil => rfl
  | cons c u ih =>
    simp only [List.cons_append, polygonAfter]
    split_ifs <;> simp [ih]

/-- The braces of a word are pairs, one behind the other. -/
def BracesFollow (w : Word) : Prop := ∃ n, braces w = (List.replicate n ['{', '}']).flatten

theorem polygonAfter_of_bracesFollow {w : Word} (h : BracesFollow w) :
    polygonAfter false (braces w) = some false := by
  obtain ⟨n, hn⟩ := h
  rw [hn]
  clear hn
  induction n with
  | zero => rfl
  | succ n ih =>
    rw [List.replicate_succ, List.flatten_cons, polygonAfter_append]
    exact ih

namespace Recording

/-- What a command leaves that takes the turtle from one position to another. -/
def leaves (start stop : Point κ) : Command → Option (Primitive κ)
  | .beginPolygon => some (.polygonBegin start)
  | .endPolygon => some .polygonEnd
  | command => trace? start stop command

variable {r r' : Recording η κ} {i : Instruction}

theorem step_of_walker_error {e : Error} (h : r.walker.step unit angle i = .error e) :
    r.step unit angle i = .error e := by
  rw [step]
  -- The marks of polygons never stop a walk.
  split
  · next hc => simp [Walker.step, hc] at h
  · next hc => simp [Walker.step, hc] at h
  · simp [h]

theorem step_of_walker_ok {w : Walker η κ} {inside : Bool}
    (h : r.walker.step unit angle i = .ok w)
    (hmark : polygonAfter r.polygonOpen i.command.brace?.toList = some inside) :
    r.step unit angle i =
      .ok ⟨w, (leaves r.position w.turtle.position i.command).toList ++ r.primitives, inside⟩ := by
  rw [step]
  split
  · next hc =>
    obtain rfl : r.walker = w := by simpa [Walker.step, hc] using h
    simp only [hc, Command.brace?, Option.toList_some, polygonAfter] at hmark
    cases hopen : r.polygonOpen <;> simp_all [leaves]
  · next hc =>
    obtain rfl : r.walker = w := by simpa [Walker.step, hc] using h
    simp only [hc, Command.brace?, Option.toList_some, polygonAfter] at hmark
    cases hopen : r.polygonOpen <;> simp_all [leaves]
  · next hbegin hend =>
    have hbrace : i.command.brace? = none := by
      cases hc : i.command <;> simp_all [Command.brace?]
    have hleaves : leaves r.position w.turtle.position i.command =
        trace? r.position w.turtle.position i.command := by
      cases hc : i.command <;> simp_all [leaves]
    rw [hbrace] at hmark
    simp only [h, hleaves]
    rw [Option.some.inj hmark]

/-- A brace that does not fit is an error, wherever the turtle is. -/
theorem step_of_mark_none
    (h : polygonAfter r.polygonOpen i.command.brace?.toList = none) :
    r.step unit angle i = .error (.configuration
      (if r.polygonOpen then .polygonNested i.position else .polygonNotOpen i.position)) := by
  cases hc : i.command <;> cases hopen : r.polygonOpen <;>
    simp_all [Command.brace?, polygonAfter, step]

/-- A step walks, opens or closes a polygon, and leaves what its command leaves. -/
theorem step_eq_ok_iff :
    r.step unit angle i = .ok r' ↔ ∃ w inside, r.walker.step unit angle i = .ok w ∧
      polygonAfter r.polygonOpen i.command.brace?.toList = some inside ∧
      r' = ⟨w, (leaves r.position w.turtle.position i.command).toList ++ r.primitives, inside⟩ := by
  constructor
  · intro h
    cases hw : r.walker.step unit angle i with
    | error e =>
      rw [step_of_walker_error hw] at h
      cases h
    | ok w =>
      cases hmark : polygonAfter r.polygonOpen i.command.brace?.toList with
      | none =>
        rw [step_of_mark_none hmark] at h
        cases h
      | some inside =>
        refine ⟨w, inside, rfl, rfl, ?_⟩
        rw [step_of_walker_ok hw hmark] at h
        exact (Except.ok.inj h).symm
  · rintro ⟨w, inside, hw, hmark, rfl⟩
    exact step_of_walker_ok hw hmark

theorem marks_cons (i : Instruction) (l : List Instruction) :
    marks (i :: l) = i.command.brace?.toList ++ marks l := by
  cases h : i.command.brace? <;> simp [marks, h]

theorem run_cons (i : Instruction) (l : List Instruction) :
    r.run unit angle (i :: l) = (r.step unit angle i).bind (·.run unit angle l) := by
  rw [run, List.foldlM_cons]
  rfl

theorem run_cons_eq_ok_iff {l : List Instruction} :
    r.run unit angle (i :: l) = .ok r' ↔
      ∃ r₁, r.step unit angle i = .ok r₁ ∧ r₁.run unit angle l = .ok r' := by
  rw [run_cons]
  cases r.step unit angle i <;> simp [Except.bind]

theorem run_append_eq_ok_iff {l m : List Instruction} :
    r.run unit angle (l ++ m) = .ok r' ↔
      ∃ r₁, r.run unit angle l = .ok r₁ ∧ r₁.run unit angle m = .ok r' := by
  rw [run, List.foldlM_append]
  cases h : List.foldlM (step unit angle) r l with
  | error e => simp [run, h, bind, Except.bind]
  | ok r₁ => simp [run, h, bind, Except.bind]

/-- A walk only adds to what is left. -/
theorem exists_left_of_run {l : List Instruction} (h : r.run unit angle l = .ok r') :
    ∃ left, r'.primitives = left ++ r.primitives := by
  refine foldlM_preserves (P := fun s => ∃ left, s.primitives = left ++ r.primitives) ?_ h
    ⟨[], rfl⟩
  rintro s i s' ⟨left, hs⟩ hstep
  obtain ⟨w, inside, -, -, rfl⟩ := step_eq_ok_iff.1 hstep
  exact ⟨(leaves s.position w.turtle.position i.command).toList ++ left, by
    rw [hs, List.append_assoc]⟩

variable {l : List Instruction} {w : Walker η κ} {inside : Bool}

/-- A recorded walk goes through if the walk does and the braces fit. -/
theorem run_of_walker_ok (h : r.walker.run unit angle l = .ok w)
    (hmarks : polygonAfter r.polygonOpen (marks l) = some inside) :
    ∃ r', r.run unit angle l = .ok r' ∧ r'.walker = w ∧ r'.polygonOpen = inside := by
  -- The marks are cut where the walk is, behind its first command.
  induction l generalizing r with
  | nil => exact ⟨r, rfl, Except.ok.inj h, Option.some.inj hmarks⟩
  | cons i l ih =>
    rw [marks_cons, polygonAfter_append, Option.bind_eq_some_iff] at hmarks
    obtain ⟨between, hmark, hmarks⟩ := hmarks
    cases hstep : r.walker.step unit angle i with
    | error e =>
      rw [Walker.run, foldlM_cons_error hstep] at h
      cases h
    | ok v =>
      rw [Walker.run, foldlM_cons_ok hstep] at h
      rw [run, foldlM_cons_ok (step_of_walker_ok hstep hmark)]
      exact ih h hmarks

/-- Where a recorded walk goes through, the walk does. -/
theorem walker_run_of_run (h : r.run unit angle l = .ok r') :
    r.walker.run unit angle l = .ok r'.walker := by
  have hforward : ∀ (s : Recording η κ) (v : Walker η κ) i s', s.walker = v →
      s.step unit angle i = .ok s' → ∃ v', v.step unit angle i = .ok v' ∧ s'.walker = v' := by
    rintro s v i s' rfl hstep
    obtain ⟨v', inside, hv', -, rfl⟩ := step_eq_ok_iff.1 hstep
    exact ⟨v', hv', rfl⟩
  obtain ⟨v, hv, rfl⟩ := foldlM_forward hforward h rfl
  exact hv

/-- If the braces fit, a recorded walk fails as the walk does. -/
theorem run_of_walker_error {e : Error} (h : r.walker.run unit angle l = .error e)
    (hmarks : polygonAfter r.polygonOpen (marks l) = some inside) :
    r.run unit angle l = .error e := by
  induction l generalizing r with
  | nil => cases h
  | cons i l ih =>
    rw [marks_cons, polygonAfter_append, Option.bind_eq_some_iff] at hmarks
    obtain ⟨between, hmark, hmarks⟩ := hmarks
    cases hstep : r.walker.step unit angle i with
    | error e' =>
      rw [Walker.run, foldlM_cons_error hstep] at h
      obtain rfl : e' = e := Except.error.inj h
      rw [run, foldlM_cons_error (step_of_walker_error hstep)]
    | ok v =>
      rw [Walker.run, foldlM_cons_ok hstep] at h
      rw [run, foldlM_cons_ok (step_of_walker_ok hstep hmark)]
      exact ih h hmarks

end Recording

/-! ## Compiling -/

/-- A word compiles if it is not empty, the angle is not zero, and the walk goes through
    and leaves no polygon open; the drawing is then the record of the walk. -/
theorem compile_eq_ok_iff {w : Word} {originX : κ} {d : Drawing κ} :
    compile unit w originX angle = .ok d ↔ w ≠ [] ∧ Heading.isZero angle = false ∧
      ∃ r : Recording η κ,
        Recording.run unit angle (.start ⟨originX, Coordinate.ofInt 0⟩) (commands w) = .ok r ∧
        r.polygonOpen = false ∧
        d = ⟨r.primitives.reverse,
          Drawing.bounds ⟨originX, Coordinate.ofInt 0⟩ r.primitives.reverse, originX⟩ := by
  rw [compile]
  cases w with
  | nil => simp
  | cons c w =>
    cases hzero : Heading.isZero angle with
    | true => simp
    | false =>
      simp only [List.isEmpty_cons, Bool.false_eq_true, if_false]
      generalize Recording.run unit angle (.start ⟨originX, Coordinate.ofInt 0⟩)
        (commands (c :: w)) = x
      cases x with
      | error e => simp
      | ok r => cases hopen : r.polygonOpen <;> simp [hopen, eq_comm (a := d)]

/-- With braces that follow each other, a word that is not empty compiles if the walk
    goes through, and otherwise fails as the walk does. -/
theorem compile_agree_walker (unit : η → Point κ) {w : Word} (hw : w ≠ [])
    (hangle : Heading.isZero angle = false) (hbraces : BracesFollow w) (originX : κ) :
    Agree (fun (_ : Drawing κ) (_ : Walker η κ) => True) (compile unit w originX angle)
      (Walker.run unit angle (.ofTurtle (.facingEast ⟨originX, Coordinate.ofInt 0⟩))
        (commands w)) := by
  -- The braces that fit are the marks of the commands, and those behind a `(` that opens
  -- no heading, which the walk does not come to.
  obtain ⟨lost, hmarks, hlost⟩ := braces_eq_marks 0 w.cancelTurns
  rw [braces_cancelTurns, ← commands_eq] at hmarks
  have hfit := polygonAfter_of_bracesFollow hbraces
  rw [hmarks, polygonAfter_append, Option.bind_eq_some_iff] at hfit
  obtain ⟨inside, hinside, hrest⟩ := hfit
  generalize hrun : Walker.run unit angle
    (.ofTurtle (.facingEast ⟨originX, Coordinate.ofInt 0⟩)) (commands w) = x
  cases x with
  | error e =>
    have hrecord := Recording.run_of_walker_error (r := .start ⟨originX, Coordinate.ofInt 0⟩)
      hrun hinside
    have hcompile : compile unit w originX angle = .error e := by
      simp [compile, hw, hangle, hrecord]
    rw [hcompile]
    exact .error e
  | ok v =>
    obtain ⟨r, hr, -, hopen⟩ := Recording.run_of_walker_ok
      (r := .start ⟨originX, Coordinate.ofInt 0⟩) hrun hinside
    -- Nothing malformed was met, so no brace is lost and no polygon stays open.
    obtain rfl : lost = [] := hlost (not_malformed_of_walker_run hrun)
    have hclosed : r.polygonOpen = false := hopen.trans (Option.some.inj hrest)
    have hcompile := compile_eq_ok_iff.2 ⟨hw, hangle, r, hr, hclosed, rfl⟩
    rw [hcompile]
    exact .ok trivial

end Lindenmayer

import Lindenmayer.Proofs.Walk

/-!
# Trails

Every primitive of a drawing says where it ends, or does not move the turtle; most say
where they start as well. A list of primitives is a trail (`Trail`) if each starts where
the one before it has left the turtle, so that the starts can be left out and found
again.

The record of a walk is a trail (`Recording.Faithful`), through the returns from
branches and the marks of polygons: what a command leaves starts at the position of the
turtle, and a command that leaves nothing does not move it. So is every drawing that is
compiled (`compile_trail`).
-/

namespace Lindenmayer

variable {η κ : Type}

namespace Primitive

/-- Where a primitive says that it starts. -/
def startsAt? : Primitive κ → Option (Point κ)
  | .segment start _ => some start
  | .travel start _ => some start
  | .restore _ => none
  | .polygonBegin origin => some origin
  | .polygonEnd => none

/-- Where a primitive leaves a turtle that was at `p`. -/
def leadsTo (p : Point κ) : Primitive κ → Point κ
  | .segment _ stop => stop
  | .travel _ stop => stop
  | .restore stop => stop
  | .polygonBegin _ => p
  | .polygonEnd => p

/-- Whether a polygon is open behind a primitive, if `inside` says whether one was
    open before it. -/
def leavesOpen (inside : Bool) : Primitive κ → Bool
  | .segment _ _ => inside
  | .travel _ _ => inside
  | .restore _ => inside
  | .polygonBegin _ => true
  | .polygonEnd => false

end Primitive

/-- The primitives lead from one point to another one, each starting where the one
    before it ends. -/
inductive Trail : Point κ → List (Primitive κ) → Point κ → Prop
  | nil (p : Point κ) : Trail p [] p
  | cons {p q : Point κ} {a : Primitive κ} {l : List (Primitive κ)} :
    (∀ s ∈ a.startsAt?, s = p) → Trail (a.leadsTo p) l q → Trail p (a :: l) q

/-- A trail is continued where it ends. -/
theorem Trail.concat {p q : Point κ} {l : List (Primitive κ)} (h : Trail p l q)
    {a : Primitive κ} (ha : ∀ s ∈ a.startsAt?, s = q) : Trail p (l ++ [a]) (a.leadsTo q) := by
  induction h with
  | nil p => exact .cons ha (.nil _)
  | cons hb _ ih => exact .cons hb (ih ha)

/-! ## The record of a walk -/

namespace Recording

variable {p q : Point κ} {r r' : Recording η κ} {w : Walker η κ}

/-- The record leads from `p` to where the turtle is, and tells whether a polygon is
    open. -/
structure Faithful (p : Point κ) (r : Recording η κ) : Prop where
  trail : Trail p r.primitives.reverse r.position
  polygon : r.primitives.reverse.foldl Primitive.leavesOpen false = r.polygonOpen

theorem Faithful.stay (h : Faithful p r) (hw : w.turtle.position = r.position) :
    Faithful p ⟨w, r.primitives, r.polygonOpen⟩ where
  trail := by
    rw [position, hw]
    exact h.trail
  polygon := h.polygon

theorem Faithful.leave (h : Faithful p r) {a : Primitive κ}
    (ha : ∀ s ∈ a.startsAt?, s = r.position) (hw : w.turtle.position = a.leadsTo r.position) :
    Faithful p ⟨w, a :: r.primitives, a.leavesOpen r.polygonOpen⟩ where
  trail := by
    rw [position, hw, List.reverse_cons]
    exact h.trail.concat ha
  polygon := by
    rw [List.reverse_cons, List.foldl_append, h.polygon]
    rfl

/-- The braces of a walk and the marks it leaves open and close the same polygons. -/
theorem leavesOpen_of_mark {before inside : Bool} {c : Command} (q : Point κ)
    (h : polygonAfter before c.brace?.toList = some inside) :
    (leaves p q c).toList.foldl Primitive.leavesOpen before = inside := by
  cases c with
  | forward drawn => cases drawn <;> exact Option.some.inj h
  | beginPolygon =>
    cases before with
    | false => exact Option.some.inj h
    | true => cases h
  | endPolygon =>
    cases before with
    | false => cases h
    | true => exact Option.some.inj h
  | _ => exact Option.some.inj h

variable [Heading η]

theorem faithful_start (p : Point κ) : Faithful p (start p : Recording η κ) :=
  ⟨.nil p, rfl⟩

variable [Coordinate κ] {unit : η → Point κ} {angle : η}

/-- What a command leaves starts at the turtle and ends where the turtle goes; if it
    leaves nothing, the turtle does not move. -/
theorem leaves_of_walker_step {i : Instruction} (hw : r.walker.step unit angle i = .ok w) :
    match leaves r.position w.turtle.position i.command with
    | none => w.turtle.position = r.position
    | some a => (∀ s ∈ a.startsAt?, s = r.position) ∧
        w.turtle.position = a.leadsTo r.position := by
  rw [Walker.step] at hw
  -- A move and the end of a branch leave the position they lead to. All other commands
  -- keep the position.
  cases hc : i.command with
  | forward drawn => cases drawn <;> simp [leaves, trace?, Primitive.startsAt?, Primitive.leadsTo]
  | pop => simp [leaves, trace?, Primitive.startsAt?, Primitive.leadsTo]
  | malformed => simp [hc] at hw
  | _ =>
    rw [hc] at hw
    obtain rfl := Except.ok.inj hw
    simp [leaves, trace?, Primitive.startsAt?, Primitive.leadsTo, position, Turtle.rotate,
      Turtle.face, Walker.push]

/-- A step keeps the record faithful. -/
theorem Faithful.step {i : Instruction} (h : Faithful p r)
    (hstep : r.step unit angle i = .ok r') : Faithful p r' := by
  obtain ⟨w, inside, hw, hmark, rfl⟩ := step_eq_ok_iff.1 hstep
  have hleaves := leaves_of_walker_step hw
  obtain rfl := leavesOpen_of_mark (p := r.position) w.turtle.position hmark
  generalize leaves r.position w.turtle.position i.command = left at hleaves ⊢
  cases left with
  | none => exact h.stay hleaves
  | some a => exact h.leave hleaves.1 hleaves.2

theorem Faithful.run {l : List Instruction} (h : Faithful p r)
    (hrun : r.run unit angle l = .ok r') : Faithful p r' :=
  foldlM_preserves (fun _ _ _ => Faithful.step) hrun h

end Recording

/-! ## Compiling -/

variable [Heading η] [Coordinate κ] {unit : η → Point κ} {angle : η}

/-- A drawing is a trail from where the turtle starts, and no polygon is open at its
    end. -/
theorem compile_trail {w : Word} {originX : κ} {d : Drawing κ}
    (h : compile unit w originX angle = .ok d) :
    (∃ q, Trail ⟨d.originX, Coordinate.ofInt 0⟩ d.primitives q) ∧
      d.primitives.foldl Primitive.leavesOpen false = false := by
  obtain ⟨-, -, r, hr, hclosed, rfl⟩ := compile_eq_ok_iff.1 h
  have hr := (Recording.faithful_start _).run hr
  exact ⟨⟨_, hr.trail⟩, hr.polygon.trans hclosed⟩

end Lindenmayer

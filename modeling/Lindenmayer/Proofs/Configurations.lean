import Lindenmayer.Document.Configuration
import Lindenmayer.Proofs.Reread
import Lindenmayer.Proofs.RuleSets

/-!
# Configurations in documents

A configuration that is in order can always be read from the document it is written to, and all
of it is read back, but for its angle (`Configuration.ofDocument_toDocument_close`).

The angle is written with digits that determine it. They are read with several roundings,
though, and so another angle may be read, which is close to it
(`Configuration.ofDocument_toDocument_fan`). It is in order as well, because it is neither zero
nor too large. The digits of most angles are few enough to be read without an error.
-/

namespace Lindenmayer

/-! ## Checks -/

theorem unusableAngle?_eq_none_iff {x : Float} : unusableAngle? x = none ↔
    ∃ negative m e, Binary64.ofFloat x = .finite negative m e ∧ 0 < m := by
  rw [unusableAngle?]
  cases hx : Binary64.ofFloat x with
  | notANumber => simp
  | infinite negative => simp
  | finite negative m e => simp [Nat.pos_iff_ne_zero]

/-- What is close to a number is of use as an angle. -/
theorem CloseTo.unusableAngle?_eq_none {x y : Float} (h : CloseTo x y) :
    unusableAngle? y = none := by
  obtain ⟨p, q, -, hy, hsign, -⟩ := h
  cases hfloat : Binary64.ofFloat y with
  | finite negative m e =>
    refine unusableAngle?_eq_none_iff.2 ⟨negative, m, e, hfloat, Nat.pos_of_ne_zero fun hzero => ?_⟩
    rw [hfloat, toRat?_finite, hzero, Nat.cast_zero, zero_mul, mul_zero] at hy
    rw [← Option.some.inj hy, mul_zero] at hsign
    exact lt_irrefl 0 hsign
  | _ =>
    rw [hfloat] at hy
    cases hy

namespace Configuration

/-- A configuration is in order if all of its parts are. -/
theorem validate_iff (c : Configuration) : c.validate = .ok () ↔
    (∃ n, c.generations = .ok n) ∧ c.start.isEmpty = false ∧ unusableAngle? c.angle = none ∧
      c.rules.validate = .ok () := by
  rw [validate]
  cases c.generations with
  | error e => simp [bind, Except.bind]
  | ok n =>
    cases c.start.isEmpty <;> cases unusableAngle? c.angle <;> simp [bind, Except.bind]

/-! ## Reading back -/

variable {c : Configuration} {n : Json.Number}

theorem isWritten_toJson (hn : Json.Number.ofFloat? c.angle = some n) (hwritten : n.IsWritten) :
    c.toJson.IsWritten := by
  have hangle : Json.ofFloat c.angle = .number n := by rw [Json.ofFloat, hn]
  have hlabel : ∀ member ∈ labelMember c.label, member.2.IsWritten := by
    cases c.label with
    | none => simp [labelMember]
    | some label => simpa [labelMember] using .string _
  have hfields : ∀ member ∈ [("name", Json.ofString c.name), ("order", .ofInt c.order.toInt),
      ("angle", .ofFloat c.angle), ("axiom", .ofChars c.start), ("rules", c.rules.toJson)],
      member.2.IsWritten := by
    simpa [hangle] using ⟨.string _, Json.isWritten_ofInt _, .number hwritten, .string _,
      c.rules.isWritten_toJson⟩
  exact Json.isWritten_ofMembers fun member hmember =>
    (List.mem_append.1 hmember).elim (hfields member) (hlabel member)

/-- The value of a configuration is decoded to it, with the angle that is read. -/
theorem ofJson?_toJson {angle : Float} (hn : Json.Number.ofFloat? c.angle = some n)
    (hangle : n.toFloat? = some angle) : ofJson? c.toJson = some { c with angle := angle } := by
  have horder := Json.asInt64?_ofInt c.order
  have hstart := Json.asChars?_ofChars c.start
  have hrules : RuleSet.ofJson? c.rules.toJson = some c.rules :=
    RuleSet.ofJsonWithin?_toJson c.rules (by decide)
  have hnumber : (Json.ofFloat c.angle).asFloat? = some angle := by
    rw [Json.ofFloat, hn]
    exact hangle
  obtain ⟨name, order, degrees, start, rules, label⟩ := c
  cases label <;>
    simp [toJson, ofJson?, Json.ofMembers, labelMember, Json.fields?, Json.field?, Json.ofString,
      Json.asString?, labelOfJson?, horder, hstart, hrules, hnumber]

/-- A configuration in order is read back from the document it is written to. The angle is
    another one at most by a few roundings. If its digits are below `2 ^ 53` and are scaled by no
    more than `10 ^ 22`, it is the same. -/
theorem ofDocument_toDocument_close (c : Configuration) (h : c.validate = .ok ()) :
    ∃ angle, ofDocument c.toDocument = .ok { c with angle := angle } ∧ CloseTo c.angle angle ∧
      ∀ n, Json.Number.ofFloat? c.angle = some n → n.significand < 2 ^ 53 →
        n.power.natAbs ≤ 22 → angle = c.angle := by
  obtain ⟨hgenerations, hstart, husable, hrules⟩ := c.validate_iff.1 h
  obtain ⟨negative, m, e, hfinite, hm⟩ := unusableAngle?_eq_none_iff.1 husable
  obtain ⟨n, angle, hn, hwritten, hread, hclose, hexact⟩ :=
    Json.Number.exists_toFloat? hfinite hm
  have hvalid : { c with angle := angle }.validate = .ok () :=
    (validate_iff _).2 ⟨hgenerations, hstart, hclose.unusableAngle?_eq_none, hrules⟩
  refine ⟨angle, ?_, hclose, fun n' hn' hfew hnear => ?_⟩
  · have hparse : Json.parse? c.toDocument = some c.toJson :=
      Json.parse?_render (isWritten_toJson hn hwritten)
    rw [ofDocument, hparse, Option.bind_some, ofJson?_toJson hn hread]
    simp only [hvalid]
    rfl
  · obtain rfl : n = n' := Option.some.inj (hn.symm.trans hn')
    exact hexact hfew hnear

/-- A square whose sides grow. -/
def square : Configuration :=
  ⟨"Square", 3, 90, "F+F+F+F".toList, .literal [("F".toList, "FF".toList)], some ""⟩

theorem ofDocument_toDocument_close_square :
    square.validate = .ok () ∧ ofDocument square.toDocument = .ok square := by
  have hvalid : square.validate = .ok () := rfl
  obtain ⟨angle, hread, -, hexact⟩ := ofDocument_toDocument_close square hvalid
  have hsame : angle = square.angle :=
    hexact ⟨false, [9, 0], [0], none⟩ (by decide +kernel) (by decide +kernel) (by decide +kernel)
  rw [hsame] at hread
  exact ⟨hvalid, hread⟩

/-- Twenty-six branches in a circle. -/
def fan : Configuration :=
  ⟨"Fan", 1, 360 / 26, "F".toList, .literal [("F".toList, "F+F".toList)], none⟩

/-- The seventeen digits of this angle are read as the angle next to it. -/
theorem ofDocument_toDocument_fan :
    fan.validate = .ok () ∧ ofDocument fan.toDocument ≠ .ok fan := by
  have hread : (ofDocument fan.toDocument).toOption ≠ some fan := by decide +kernel
  exact ⟨rfl, fun h => hread (congrArg Except.toOption h)⟩

end Configuration

end Lindenmayer

import Lindenmayer.Proofs.Brackets
import Lindenmayer.Proofs.Composition
import Lindenmayer.Proofs.Floats

/-!
# The words that compile

What a turtle cannot carry out can be told from the stream of a word alone, position by
position (`Violation`): a `(` that opens no heading, a `]` without a partner, a `{` inside
a polygon and a `}` outside one. The walk over a stream goes through if there is no
violation, and otherwise stops at the first one (`run_verdict`): in front of it the number
of turtles saved is the number of brackets open, and a polygon is open if the last brace
has opened one (`LeavesOpen`).

So a word compiles if it is not empty, the angle is not zero, the stream has no violation
and its braces are closed, and the error is the first of these that fails
(`compile_ok_iff_stream`). The stream has the brackets and the braces of its word, so a
balanced word whose braces follow each other can only fail at a heading
(`exists_drawing_of_bracesFollow`).
-/

namespace Lindenmayer

open Word

/-! ## Violations -/

/-- Whether a polygon is open in front of a position: the last brace before it opens one. -/
def InPolygon (t : Word) (p : ℕ) : Prop := (braces (t.take p)).getLast? = some '{'

/-- Whether a heading can be read behind a position, up to its `)`. -/
def OpensHeading (t : Word) (p : ℕ) : Prop := ∃ d close, headingAt t p = .ok (d, close)

/-- What is wrong at a position of a stream, and the error it is reported as. -/
inductive Violation (t : Word) : ℕ → Error → Prop
  /-- A `(` that opens no heading. -/
  | heading {p : ℕ} : t[p]? = some '(' → ¬ OpensHeading t p →
    Violation t p (.configuration .malformedHeading)
  /-- A `]` without a partner. -/
  | unmatched {p : ℕ} : t[p]? = some ']' → (∀ a, ¬ Matched t a p) →
    Violation t p (.stackUnderflow p)
  /-- A `{` inside a polygon. -/
  | nested {p : ℕ} : t[p]? = some '{' → InPolygon t p →
    Violation t p (.configuration (.polygonNested p))
  /-- A `}` outside every polygon. -/
  | notOpen {p : ℕ} : t[p]? = some '}' → ¬ InPolygon t p →
    Violation t p (.configuration (.polygonNotOpen p))

/-- The violation at the least position. -/
structure FirstViolation (t : Word) (p : ℕ) (e : Error) : Prop where
  violation : Violation t p e
  first : ∀ q < p, ∀ e', ¬ Violation t q e'

variable {t u v rest literal : Word} {p saved : ℕ} {c : Char} {e : Error} {inside : Bool}

theorem Violation.lt (h : Violation t p e) : p < t.length := by
  cases h with
  | _ hsymbol => exact (List.getElem?_eq_some_iff.1 hsymbol).1

theorem Violation.unique {e' : Error} (h : Violation t p e) (h' : Violation t p e') : e = e' := by
  cases h <;> cases h' <;> simp_all

theorem Violation.symbol (h : Violation t p e) : ∃ c ∈ ['(', ']', '{', '}'], t[p]? = some c := by
  cases h with
  | heading hp => exact ⟨_, by decide, hp⟩
  | unmatched hp => exact ⟨_, by decide, hp⟩
  | nested hp => exact ⟨_, by decide, hp⟩
  | notOpen hp => exact ⟨_, by decide, hp⟩

/-! ## What is open -/

/-- Behind `u`, a number of brackets is open and a polygon or none, and nothing has been
    closed that was not open. -/
structure LeavesOpen (u : Word) (saved : ℕ) (inside : Bool) : Prop where
  height_eq : height u = saved
  height_nonneg : ∀ p ≤ u.length, 0 ≤ height (u.take p)
  polygon : polygonAfter false (braces u) = some inside

theorem leavesOpen_nil : LeavesOpen [] 0 false := ⟨rfl, fun _ _ => by simp, rfl⟩

theorem LeavesOpen.concat (h : LeavesOpen u saved inside) {saved' : ℕ} {inside' : Bool}
    (hsaved : (saved' : ℤ) = saved + rise c)
    (hinside : polygonAfter inside (braces [c]) = some inside') :
    LeavesOpen (u ++ [c]) saved' inside' where
  height_eq := by
    rw [height_append, h.height_eq, hsaved, height_cons, height_nil, add_zero]
  height_nonneg p hp := by
    rcases Nat.lt_or_ge u.length p with hlt | hle
    · -- The whole of the longer word, in which as many brackets are open as are saved.
      rw [List.take_of_length_le (by rw [List.length_append, List.length_singleton]; omega),
        height_append, h.height_eq, height_cons, height_nil, add_zero, ← hsaved]
      exact Int.natCast_nonneg saved'
    · rw [List.take_append_of_le_length hle]
      exact h.height_nonneg p hle
  polygon := by
    rw [braces_append, polygonAfter_append, h.polygon]
    exact hinside

/-- A symbol that is neither a bracket nor a brace opens and closes nothing. -/
def isNeutral (c : Char) : Bool := c ∉ ['[', ']', '{', '}']

theorem isNeutral_iff : isNeutral c ↔ c ≠ '[' ∧ c ≠ ']' ∧ c ≠ '{' ∧ c ≠ '}' := by
  simp [isNeutral]

theorem isNeutral_of_isHeadingSymbol (h : isHeadingSymbol c) : isNeutral c := by
  rw [isNeutral_iff]
  refine ⟨?_, ?_, ?_, ?_⟩ <;> rintro rfl <;> revert h <;> decide

theorem isNeutral_of_variable (h : Op.ofSymbol c = .variable) : isNeutral c := by
  rw [isNeutral_iff]
  refine ⟨?_, ?_, ?_, ?_⟩ <;> rintro rfl <;> cases h

theorem isNeutral_of_mem_heading (hliteral : ∀ c ∈ literal, isHeadingSymbol c) :
    ∀ c ∈ '(' :: (literal ++ [')']), isNeutral c := by
  intro c hc
  rcases List.mem_cons.1 hc with rfl | hc
  · decide
  rcases List.mem_append.1 hc with hc | hc
  · exact isNeutral_of_isHeadingSymbol (hliteral c hc)
  · obtain rfl := List.mem_singleton.1 hc
    decide

theorem height_neutral (hv : ∀ c ∈ v, isNeutral c) : height v = 0 := by
  induction v with
  | nil => rfl
  | cons c v ih =>
    obtain ⟨hopen, hclose, -, -⟩ := isNeutral_iff.1 (hv c List.mem_cons_self)
    rw [height_cons, rise_eq_zero hopen hclose, zero_add]
    exact ih fun e he => hv e (List.mem_cons_of_mem _ he)

theorem LeavesOpen.concat_neutral (h : LeavesOpen u saved inside) (hc : isNeutral c) :
    LeavesOpen (u ++ [c]) saved inside := by
  obtain ⟨hopen, hclose, hbegin, hend⟩ := isNeutral_iff.1 hc
  refine h.concat ?_ ?_
  · rw [rise_eq_zero hopen hclose, add_zero]
  · rw [braces_eq_nil]
    · rfl
    · simp [isBrace, hbegin, hend]

theorem LeavesOpen.append_neutral (h : LeavesOpen u saved inside) (hv : ∀ c ∈ v, isNeutral c) :
    LeavesOpen (u ++ v) saved inside := by
  induction v generalizing u with
  | nil => rwa [List.append_nil]
  | cons c v ih =>
    have hc := h.concat_neutral (hv c List.mem_cons_self)
    rw [← List.singleton_append, ← List.append_assoc]
    exact ih hc fun e he => hv e (List.mem_cons_of_mem _ he)

/-- A `]` has a partner if a bracket is open in front of it. -/
theorem LeavesOpen.exists_matched_iff (h : LeavesOpen u saved inside) (rest : Word) :
    (∃ a, Matched (u ++ ']' :: rest) a u.length) ↔ 0 < saved := by
  have hclose : (u ++ ']' :: rest)[u.length]? = some ']' := by simp
  have htake : (u ++ ']' :: rest).take u.length = u := by simp
  constructor
  · rintro ⟨a, hm⟩
    have hle : a ≤ u.length := hm.lt.le
    have hfront := h.height_nonneg a hle
    have hcut := hm.isOpener.take_eq (by simp)
    rw [htake] at hcut
    have hheight := congrArg height hcut
    rw [height_append, height_cons, rise_open, hm.balanced.height_eq_zero, h.height_eq,
      List.take_append_of_le_length hle] at hheight
    omega
  · intro hpos
    refine exists_matched_of_height hclose ?_
    rw [List.take_length_add_append, height_append, h.height_eq, List.take_succ_cons,
      List.take_zero, height_cons, height_nil, rise_close]
    omega

theorem getLast?_of_polygonAfter {w : Word} (h : polygonAfter false w = some inside) :
    inside = true ↔ w.getLast? = some '{' := by
  induction w using List.reverseRecOn with
  | nil =>
    obtain rfl : false = inside := Option.some.inj h
    simp
  | append_singleton w c =>
    rw [polygonAfter_append, Option.bind_eq_some_iff] at h
    obtain ⟨before, -, hc⟩ := h
    rw [List.getLast?_concat]
    by_cases hopen : c = '{'
    · cases before <;> simp_all [polygonAfter]
    · cases before <;> simp_all [polygonAfter]

theorem LeavesOpen.inPolygon_iff (h : LeavesOpen u saved inside) (rest : Word) :
    InPolygon (u ++ rest) u.length ↔ inside = true := by
  rw [InPolygon, List.take_left', getLast?_of_polygonAfter h.polygon]
  rfl

/-! ## Verdicts -/

/-- Inside a heading nothing is wrong. -/
theorem not_violation_of_heading {d : Decimal} (hliteral : ∀ c ∈ literal, isHeadingSymbol c)
    (hread : Decimal.read? literal = some d) (hp : u.length ≤ p)
    (hlt : p < u.length + (literal.length + 2)) :
    ¬ Violation (u ++ '(' :: (literal ++ ')' :: rest)) p e := by
  obtain ⟨q, rfl⟩ := Nat.exists_eq_add_of_le hp
  intro h
  cases q with
  | zero =>
    have hparse := headingAt_heading hliteral hread rest
    cases h with
    | heading _ hno => exact hno ⟨_, _, by rw [headingAt_append, hparse]; rfl⟩
    | _ hsymbol => simp at hsymbol
  | succ q =>
    obtain ⟨c, hc, hget⟩ := h.symbol
    have hshort : (literal ++ [')'])[q]? = some c := by
      rw [getElem?_length_add, heading_eq_append, List.getElem?_append_left (by simp; omega),
        List.getElem?_cons_succ] at hget
      exact hget
    rcases List.mem_append.1 (List.mem_of_getElem? hshort) with hmem | hmem
    · have hheading := hliteral c hmem
      simp only [List.mem_cons, List.not_mem_nil, or_false] at hc
      rcases hc with rfl | rfl | rfl | rfl <;> exact absurd hheading (by decide)
    · obtain rfl := List.mem_singleton.1 hmem
      exact absurd hc (by decide)

variable {η κ : Type}

/-- A recording stands behind a text if it has as many turtles saved as brackets are open
    there, and a polygon open if one is. -/
def Recording.Behind (r : Recording η κ) (u : Word) : Prop :=
  LeavesOpen u r.walker.saved.length r.polygonOpen

theorem Recording.behind_start [Heading η] (p : Point κ) : (start p : Recording η κ).Behind [] :=
  leavesOpen_nil

/-- What comes of the positions of a stream from one on and in front of another one: an
    error if something is wrong there, and then the first thing that is, and otherwise a
    recording that stands behind what has been walked over. -/
inductive Verdict (t : Word) (first last : ℕ) : Except Error (Recording η κ) → Prop
  | rejected {p : ℕ} {e : Error} : first ≤ p → p < last → Violation t p e →
    (∀ q, first ≤ q → q < p → ∀ e', ¬ Violation t q e') → Verdict t first last (.error e)
  | accepted {r : Recording η κ} : (∀ q, first ≤ q → q < last → ∀ e', ¬ Violation t q e') →
    r.Behind (t.take last) → Verdict t first last (.ok r)

/-- The verdicts on two stretches, one behind the other, make up that on both. -/
theorem Verdict.bind {t : Word} {first middle last : ℕ} {x : Except Error (Recording η κ)}
    {f : Recording η κ → Except Error (Recording η κ)} (hx : Verdict t first middle x)
    (hfirst : first ≤ middle) (hlast : middle ≤ last)
    (hf : ∀ r : Recording η κ, r.Behind (t.take middle) → Verdict t middle last (f r)) :
    Verdict t first last (x.bind f) := by
  cases hx with
  | rejected hp hlt hviolation hbefore =>
    exact .rejected hp (hlt.trans_le hlast) hviolation hbefore
  | @accepted r hnone hbehind =>
    change Verdict t first last (f r)
    have hjoin : ∀ stop, (∀ q, middle ≤ q → q < stop → ∀ e', ¬ Violation t q e') →
        ∀ q, first ≤ q → q < stop → ∀ e', ¬ Violation t q e' := by
      intro stop hrest q hq hqstop
      rcases Nat.lt_or_ge q middle with hlt | hge
      · exact hnone q hq hlt
      · exact hrest q hge hqstop
    have hrest : Verdict t middle last (f r) := hf r hbehind
    generalize f r = y at hrest
    cases hrest with
    | rejected hp hlt hviolation hbefore =>
      exact .rejected (hfirst.trans hp) hlt hviolation (hjoin _ hbefore)
    | accepted hnone' hbehind' => exact .accepted (hjoin _ hnone') hbehind'

theorem Verdict.rejected_at (h : Violation (u ++ c :: rest) u.length e) :
    Verdict (η := η) (κ := κ) (u ++ c :: rest) u.length (u.length + 1) (.error e) :=
  .rejected le_rfl (Nat.lt_succ_self _) h fun _ hq hlt => absurd hlt (not_lt.2 hq)

theorem Verdict.accepted_at {r : Recording η κ}
    (hnone : ∀ e, ¬ Violation (u ++ c :: rest) u.length e) (hbehind : r.Behind (u ++ [c])) :
    Verdict (u ++ c :: rest) u.length (u.length + 1) (.ok r) := by
  refine .accepted (fun q hq hlt e => ?_) ?_
  · obtain rfl : q = u.length := by omega
    exact hnone e
  · rwa [List.take_length_add_append]

theorem not_violation_of_symbol (hc : c ∉ ['(', ']', '{', '}']) :
    ¬ Violation (u ++ c :: rest) u.length e := by
  intro h
  obtain ⟨c', hc', hget⟩ := h.symbol
  obtain rfl : c = c' := by simpa using hget
  exact hc hc'

theorem verdict_neutral {r r' : Recording η κ} (h : r.Behind u) (hc : isNeutral c) (hopen : c ≠ '(')
    (hsaved : r'.walker.saved = r.walker.saved) (hpolygon : r'.polygonOpen = r.polygonOpen) :
    Verdict (u ++ c :: rest) u.length (u.length + 1) (.ok r') := by
  refine .accepted_at (fun _ => not_violation_of_symbol ?_) ?_
  · simp [hopen, isNeutral_iff.1 hc]
  · rw [Recording.Behind, hsaved, hpolygon]
    exact h.concat_neutral hc

variable [Heading η] [Coordinate κ] {unit : η → Point κ} {angle : η} {r : Recording η κ}

theorem verdict_push (h : r.Behind u) :
    Verdict (u ++ '[' :: rest) u.length (u.length + 1) (r.step unit angle ⟨u.length, .push⟩) :=
  .accepted_at (fun _ => not_violation_of_symbol (by decide))
    (h.concat (by simp [Walker.push]) rfl)

/-- A `]` goes through if there is a turtle to restore, and so if it has a partner. -/
theorem verdict_pop (h : r.Behind u) :
    Verdict (u ++ ']' :: rest) u.length (u.length + 1) (r.step unit angle ⟨u.length, .pop⟩) := by
  have hpartner := h.exists_matched_iff rest
  simp only [Recording.step, Walker.step, Walker.pop]
  cases hsaved : r.walker.saved with
  | nil =>
    rw [hsaved] at hpartner
    exact .rejected_at (.unmatched (by simp) (not_exists.1 fun ha => by simpa using hpartner.1 ha))
  | cons t saved =>
    rw [hsaved] at hpartner
    refine .accepted_at (fun e hviolation => ?_) (h.concat ?_ rfl)
    · cases hviolation with
      | unmatched _ hno => exact absurd (hpartner.2 (by simp)) (not_exists.2 hno)
      | _ hsymbol => simp at hsymbol
    · simp [hsaved]

theorem verdict_beginPolygon (h : r.Behind u) :
    Verdict (u ++ '{' :: rest) u.length (u.length + 1)
      (r.step unit angle ⟨u.length, .beginPolygon⟩) := by
  have hinside := h.inPolygon_iff ('{' :: rest)
  simp only [Recording.step]
  split
  · next hopen => exact .rejected_at (.nested (by simp) (hinside.2 hopen))
  · next hopen =>
    refine .accepted_at (fun e hviolation => ?_) (h.concat (by simp [rise]) ?_)
    · cases hviolation with
      | nested _ hinside' => exact hopen (hinside.1 hinside')
      | _ hsymbol => simp at hsymbol
    · simp [braces, isBrace, polygonAfter, hopen]

theorem verdict_endPolygon (h : r.Behind u) :
    Verdict (u ++ '}' :: rest) u.length (u.length + 1)
      (r.step unit angle ⟨u.length, .endPolygon⟩) := by
  have hinside := h.inPolygon_iff ('}' :: rest)
  simp only [Recording.step]
  split
  · next hopen =>
    refine .accepted_at (fun e hviolation => ?_) (h.concat (by simp [rise]) ?_)
    · cases hviolation with
      | notOpen _ hinside' => exact hinside' (hinside.2 hopen)
      | _ hsymbol => simp at hsymbol
    · simp [braces, isBrace, polygonAfter, hopen]
  · next hopen => exact .rejected_at (.notOpen (by simp) (mt hinside.1 hopen))

/-- The step on a symbol is the verdict on its position. -/
theorem step_verdict (h : r.Behind u) {command : Command}
    (hc : (Op.ofSymbol c).command? = some command) (rest : Word) :
    Verdict (u ++ c :: rest) u.length (u.length + 1) (r.step unit angle ⟨u.length, command⟩) := by
  refine of_command? (P := fun c command => Verdict (u ++ c :: rest) u.length (u.length + 1)
    (r.step unit angle ⟨u.length, command⟩)) ?_ hc
  simp only [commandTable, List.forall_mem_cons, List.not_mem_nil, false_implies, implies_true,
    and_true]
  -- The turns, the moves and `$` open and close nothing.
  refine ⟨?_, ?_, ?_, ?_, ?_, ?_, verdict_push h, verdict_pop h, verdict_beginPolygon h,
    verdict_endPolygon h⟩
  all_goals exact verdict_neutral h (by decide) (by decide) rfl rfl

theorem verdict_heading (h : r.Behind u) {d : Decimal} (hliteral : ∀ c ∈ literal, isHeadingSymbol c)
    (hread : Decimal.read? literal = some d) (rest : Word) :
    Verdict (u ++ '(' :: (literal ++ ')' :: rest)) u.length (u.length + (literal.length + 2))
      (r.step unit angle ⟨u.length, .face d⟩) := by
  have htake : (u ++ '(' :: (literal ++ ')' :: rest)).take (u.length + (literal.length + 2)) =
      u ++ '(' :: (literal ++ [')']) := by
    rw [heading_eq_append, List.take_length_add_append, List.take_left' (by simp)]
  refine .accepted (fun q hq hlt e => not_violation_of_heading hliteral hread hq hlt) ?_
  rw [htake]
  exact h.append_neutral (isNeutral_of_mem_heading hliteral)

/-- The walk over the rest of a stream is the verdict on it. -/
theorem run_verdict (position : ℕ) (v : Word) :
    ∀ u : Word, u.length = position → ∀ r : Recording η κ, r.Behind u →
      Verdict (u ++ v) position (u ++ v).length (r.run unit angle (readFrom position v)) := by
  induction position, v using readFrom_induction with
  | nil position =>
    rintro u rfl r h
    rw [readFrom_nil, List.append_nil]
    exact .accepted (fun q hq hlt => absurd hlt (not_lt.2 hq)) (by rwa [List.take_length])
  | command position c rest command hc ih =>
    rintro u rfl r h
    rw [readFrom_command hc, Recording.run_cons]
    refine (step_verdict h hc rest).bind (Nat.le_succ _) (by simp) fun r' h' => ?_
    rw [List.take_length_add_append] at h'
    simpa using ih (u ++ [c]) (by simp) r' h'
  | heading position literal tail d hliteral hread ih =>
    rintro u rfl r h
    rw [readFrom_heading hliteral hread, Recording.run_cons]
    refine (verdict_heading h hliteral hread tail).bind (by omega) (by simp) fun r' h' => ?_
    have hlength : (u ++ '(' :: (literal ++ [')'])).length = u.length + (literal.length + 2) := by
      simp
    rw [heading_eq_append, ← List.append_assoc] at h' ⊢
    rw [List.take_left' hlength] at h'
    exact ih _ hlength r' h'
  | malformed position rest hlit =>
    rintro u rfl r h
    rw [readFrom_malformed hlit]
    have hviolation : Violation (u ++ '(' :: rest) u.length (.configuration .malformedHeading) := by
      refine .heading (by simp) ?_
      rintro ⟨d, close, hparse⟩
      simp [headingAt, headingFrom, hlit] at hparse
    exact .rejected le_rfl (by simp) hviolation fun _ hq hlt => absurd hlt (not_lt.2 hq)
  | skip position c rest hc ih =>
    rintro u rfl r h
    rw [readFrom_variable hc]
    have hskip : Verdict (u ++ c :: rest) u.length (u.length + 1) (.ok r) :=
      verdict_neutral h (isNeutral_of_variable hc) (ne_open_of_variable hc) rfl rfl
    refine hskip.bind (f := (·.run unit angle _)) (Nat.le_succ _) (by simp) fun r' h' => ?_
    rw [List.take_length_add_append] at h'
    simpa using ih (u ++ [c]) (by simp) r' h'

/-! ## The language of the turtle -/

theorem exists_firstViolation {t : Word} (h : Violation t p e) : ∃ q e', FirstViolation t q e' := by
  classical
  have hex : ∃ q e', Violation t q e' := ⟨p, e, h⟩
  obtain ⟨e', he'⟩ := Nat.find_spec hex
  exact ⟨Nat.find hex, e', he', fun q hq e'' h' => Nat.find_min hex hq ⟨e'', h'⟩⟩

variable {t : Word} {originX : κ}

theorem verdict_start (unit : η → Point κ) (angle : η) (originX : κ) (t : Word) :
    Verdict t 0 t.length (Recording.run unit angle (.start ⟨originX, Coordinate.ofInt 0⟩)
      (readFrom 0 t)) :=
  run_verdict 0 t [] rfl _ (Recording.behind_start _)

theorem draw_of_firstViolation (unit : η → Point κ) (angle : η) (originX : κ)
    (h : FirstViolation t p e) :
    draw unit (readFrom 0 t) originX angle = .error e := by
  have hrun := verdict_start unit angle originX t
  rw [draw]
  generalize Recording.run unit angle (.start ⟨originX, Coordinate.ofInt 0⟩) (readFrom 0 t) = x
    at hrun
  cases hrun with
  | @rejected q e' hq hlt hviolation hbefore =>
    have hqp : ¬ q < p := fun hqp => h.first q hqp e' hviolation
    have hpq : ¬ p < q := fun hpq => hbefore p (Nat.zero_le p) hpq e h.violation
    obtain rfl : q = p := by omega
    rw [hviolation.unique h.violation]
  | accepted hnone =>
    exact absurd h.violation (hnone p (Nat.zero_le p) h.violation.lt e)

theorem draw_of_not_violation (unit : η → Point κ) (angle : η) (originX : κ)
    (h : ∀ p e, ¬ Violation t p e) :
    ∃ saved inside, LeavesOpen t saved inside ∧
      ((∃ d, draw unit (readFrom 0 t) originX angle = .ok d) ↔ inside = false) ∧
      (inside = true → draw unit (readFrom 0 t) originX angle =
        .error (.configuration .polygonNotClosed)) := by
  have hrun := verdict_start unit angle originX t
  rw [draw]
  generalize Recording.run unit angle (.start ⟨originX, Coordinate.ofInt 0⟩) (readFrom 0 t) = x
    at hrun
  cases hrun with
  | rejected _ _ hviolation => exact absurd hviolation (h _ _)
  | @accepted r _ hbehind =>
    rw [List.take_length] at hbehind
    refine ⟨_, _, hbehind, ?_⟩
    cases hopen : r.polygonOpen <;> simp [hopen]

theorem height_eq_count (w : Word) : height w = (w.count '[' : ℤ) - w.count ']' := by
  induction w with
  | nil => rfl
  | cons c w ih =>
    rw [height_cons, ih, List.count_cons, List.count_cons, rise]
    by_cases hopen : c = '['
    · simp [hopen]
      omega
    · by_cases hclose : c = ']' <;> simp [hopen, hclose]
      omega

theorem eq_flatten_of_polygonAfter : ∀ {w : Word}, (∀ c ∈ w, isBrace c) →
    polygonAfter false w = some false → ∃ n, w = (List.replicate n ['{', '}']).flatten
  | [], _, _ => ⟨0, rfl⟩
  | [c], _, h => by
    by_cases hc : c = '{' <;> simp [polygonAfter, hc] at h
  | c :: c' :: w, hw, h => by
    -- A pair is taken off the front.
    by_cases hc : c = '{'
    · by_cases hc' : c' = '{'
      · simp [polygonAfter, hc, hc'] at h
      · have hclose : c' = '}' := by simpa [isBrace, hc'] using hw c' (by simp)
        subst hc hclose
        obtain ⟨n, hn⟩ := eq_flatten_of_polygonAfter (w := w)
          (fun e he => hw e (List.mem_cons_of_mem _ (List.mem_cons_of_mem _ he))) h
        exact ⟨n + 1, by rw [hn]; rfl⟩
    · simp [polygonAfter, hc] at h

theorem bracesFollow_iff : BracesFollow t ↔ polygonAfter false (braces t) = some false :=
  ⟨polygonAfter_of_bracesFollow,
    eq_flatten_of_polygonAfter fun _ hc => (List.mem_filter.1 hc).2⟩

/-- Nothing is wrong with a stream if its headings can be read and its brackets and braces
    fit. -/
theorem not_violation_of_fit (hopens : ∀ p, t[p]? = some '(' → OpensHeading t p)
    (hcloses : ∀ u, u <+: t → u.count ']' ≤ u.count '[') (hbraces : BracesFollow t) :
    ∀ p e, ¬ Violation t p e := by
  intro p e h
  have hsplit : ∀ c, t[p]? = some c → t = t.take p ++ c :: t.drop (p + 1) := by
    intro c hc
    obtain ⟨hp, rfl⟩ := List.getElem?_eq_some_iff.1 hc
    rw [← List.drop_eq_getElem_cons hp, List.take_append_drop]
  -- Of the braces, those in front of the position tell what the next one may be.
  have hpolygon : ∀ c, t[p]? = some c → isBrace c → (InPolygon t p ↔ c = '}') := by
    intro c hc hbrace
    have hfit := bracesFollow_iff.1 hbraces
    rw [hsplit c hc, braces_append, polygonAfter_append, Option.bind_eq_some_iff] at hfit
    obtain ⟨inside, hinside, hrest⟩ := hfit
    rw [InPolygon, ← getLast?_of_polygonAfter hinside]
    rw [braces_cons, if_pos hbrace] at hrest
    rw [isBrace, decide_eq_true_eq] at hbrace
    rcases hbrace with rfl | rfl <;> cases inside <;> simp [polygonAfter] at hrest ⊢
  have hlt := h.lt
  cases h with
  | heading hp hno => exact hno (hopens p hp)
  | unmatched hp hno =>
    have hcount := hcloses _ (List.take_prefix (p + 1) t)
    refine not_exists.2 hno (exists_matched_of_height hp ?_)
    rw [height_eq_count]
    omega
  | nested hp hinside => exact absurd ((hpolygon _ hp rfl).1 hinside) (by decide)
  | notOpen hp hinside => exact hinside ((hpolygon _ hp rfl).2 rfl)

theorem LeavesOpen.count_le (h : LeavesOpen t saved inside) (hu : u <+: t) :
    u.count ']' ≤ u.count '[' := by
  have hheight := h.height_nonneg u.length hu.length_le
  rw [← List.prefix_iff_eq_take.1 hu, height_eq_count] at hheight
  omega

theorem LeavesOpen.bracesFollow_iff (h : LeavesOpen t saved inside) :
    BracesFollow t ↔ inside = false := by
  rw [Lindenmayer.bracesFollow_iff, h.polygon, Option.some.injEq]

/-- A stream is drawn if its headings can be read and its brackets and braces fit. -/
theorem draw_ok_iff :
    (∃ d, draw unit (readFrom 0 t) originX angle = .ok d) ↔
      (∀ p, t[p]? = some '(' → OpensHeading t p) ∧
      (∀ u, u <+: t → u.count ']' ≤ u.count '[') ∧ BracesFollow t := by
  constructor
  · rintro ⟨d, hd⟩
    have hnone : ∀ p e, ¬ Violation t p e := by
      intro p e h
      obtain ⟨q, e', hfirst⟩ := exists_firstViolation h
      rw [draw_of_firstViolation unit angle originX hfirst] at hd
      cases hd
    obtain ⟨saved, inside, hopen, hok, -⟩ :=
      draw_of_not_violation unit angle originX hnone
    refine ⟨fun p hp => ?_, fun u => hopen.count_le, hopen.bracesFollow_iff.2 (hok.1 ⟨d, hd⟩)⟩
    by_contra hno
    exact hnone _ _ (.heading hp hno)
  · rintro ⟨hopens, hcloses, hbraces⟩
    obtain ⟨saved, inside, hopen, hok, -⟩ := draw_of_not_violation unit angle originX
      (not_violation_of_fit hopens hcloses hbraces)
    exact hok.2 (hopen.bracesFollow_iff.1 hbraces)

/-- What is not drawn fails at the first violation, or leaves a polygon open. -/
theorem draw_error_iff :
    draw unit (readFrom 0 t) originX angle = .error e ↔
      (∃ p, FirstViolation t p e) ∨
      ((∀ p e', ¬ Violation t p e') ∧ ¬ BracesFollow t ∧
        e = .configuration .polygonNotClosed) := by
  by_cases hviolation : ∃ p e', Violation t p e'
  · obtain ⟨p, e', h⟩ := hviolation
    obtain ⟨q, e', hfirst⟩ := exists_firstViolation h
    rw [draw_of_firstViolation unit angle originX hfirst]
    constructor
    · rintro ⟨⟩
      exact .inl ⟨q, hfirst⟩
    · rintro (⟨q', hfirst'⟩ | ⟨hnone, -⟩)
      · rw [← draw_of_firstViolation unit angle originX hfirst,
          draw_of_firstViolation unit angle originX hfirst']
      · exact absurd h (hnone _ _)
  · have hnone : ∀ p e', ¬ Violation t p e' := fun p e' h => hviolation ⟨p, e', h⟩
    obtain ⟨saved, inside, hopen, hok, herror⟩ :=
      draw_of_not_violation unit angle originX hnone
    have hfirst : ¬ ∃ p, FirstViolation t p e := fun ⟨p, hp⟩ => hnone p e hp.violation
    cases inside with
    | false =>
      obtain ⟨d, hd⟩ := hok.2 rfl
      simp [hd, hfirst, hopen.bracesFollow_iff]
    | true =>
      have hfail := herror rfl
      simp [hfail, hfirst, hnone, hopen.bracesFollow_iff, eq_comm]

/-- A turtle accepts its language, and reports the first thing that is wrong. A word compiles
    if it is not empty, the angle is neither of the zeros, and of its stream every `(` opens
    a heading, no part from the start closes more brackets than it opens, and the braces are
    pairs, one behind the other. Otherwise the error is that the word is empty, or else that
    the angle is zero, or else the violation at the least position of the stream, or else
    that a polygon is not closed. A `[` may be left open. -/
theorem compile_ok_iff_stream (unit : Float → Point κ) (w : Word) (originX : κ) (angle : Float) :
    ((∃ d, compile unit w originX angle = .ok d) ↔
      w ≠ [] ∧ ¬ (angle = 0.0 ∨ angle = -0.0) ∧
      (∀ p, (stream w)[p]? = some '(' → OpensHeading (stream w) p) ∧
      (∀ u, u <+: stream w → u.count ']' ≤ u.count '[') ∧ BracesFollow (stream w)) ∧
    ∀ e, compile unit w originX angle = .error e ↔
      (w = [] ∧ e = .configuration .emptyWord) ∨
      (w ≠ [] ∧ (angle = 0.0 ∨ angle = -0.0) ∧ e = .configuration .zeroAngle) ∨
      (w ≠ [] ∧ ¬ (angle = 0.0 ∨ angle = -0.0) ∧ ∃ p, FirstViolation (stream w) p e) ∨
      (w ≠ [] ∧ ¬ (angle = 0.0 ∨ angle = -0.0) ∧ (∀ p e', ¬ Violation (stream w) p e') ∧
        ¬ BracesFollow (stream w) ∧ e = .configuration .polygonNotClosed) := by
  rw [← isZero_iff]
  by_cases hw : w = []
  · simpa [compile, hw] using fun e => eq_comm
  by_cases hangle : Heading.isZero angle = true
  · simpa [compile, hw, hangle] using fun e => eq_comm
  rw [compile_eq_draw hw (Bool.eq_false_of_not_eq_true hangle), draw_ok_iff]
  simp [hw, hangle, draw_error_iff]

/-- The variable is taken out before the `]` is met, which moves to the second position. -/
theorem compile_ok_iff_stream_behindVariable :
    compile floatStep ['X', 'F', ']', '{'] 0 90 = .error (.stackUnderflow 1) ∧
    ∃ p, FirstViolation (stream ['X', 'F', ']', '{']) p (.stackUnderflow 1) := by
  have hfail : compile floatStep ['X', 'F', ']', '{'] 0 90 = .error (.stackUnderflow 1) := by
    decide +kernel
  refine ⟨hfail, ?_⟩
  rcases ((compile_ok_iff_stream _ _ _ _).2 _).1 hfail with
    ⟨h, -⟩ | ⟨-, -, h⟩ | ⟨-, -, hfirst⟩ | ⟨-, -, -, -, h⟩
  · cases h
  · cases h
  · exact hfirst
  · cases h

/-! ## Balanced words -/

theorem Word.Balanced.count_le {w : Word} (h : Balanced w) (hu : u <+: w) :
    u.count ']' ≤ u.count '[' := by
  obtain ⟨v, rfl⟩ := hu
  have hheight := h.height_nonneg
  rw [height_eq_count] at hheight
  omega

/-- Whether a symbol is a bracket. -/
def isBracket (c : Char) : Bool := c = '[' ∨ c = ']'

theorem lasting_bracket : Lasting (Option.guard isBracket) := by
  refine lasting_guard (by decide) (by decide) fun c hc => ?_
  simp only [isBracket, decide_eq_true_eq] at hc
  rcases hc with rfl | rfl <;> decide

/-- The stream of a balanced word closes no bracket that it has not opened. -/
theorem count_le_of_prefix_stream {w : Word} (h : Balanced w) (hu : u <+: stream w) :
    u.count ']' ≤ u.count '[' := by
  -- The brackets of the stream are those of the word, so its parts have the brackets of parts.
  have hbrackets : u.filter isBracket <+: w.filter isBracket :=
    filter_stream lasting_bracket w ▸ hu.filter isBracket
  obtain ⟨v, hv, heq⟩ := List.prefix_filter_iff.1 hbrackets
  have hcount : ∀ c, isBracket c → u.count c = v.count c := by
    intro c hc
    rw [← List.count_filter hc, heq, List.count_filter hc]
  rw [hcount '[' rfl, hcount ']' rfl]
  exact h.count_le hv

variable {unit : η → Point κ} {angle : η} {w : Word}

/-- A balanced word whose braces follow each other is drawn if every `(` of its stream opens a
    heading. -/
theorem exists_drawing_of_bracesFollow (hne : w ≠ []) (hw : Balanced w) (hbraces : BracesFollow w)
    (hopens : ∀ p, (stream w)[p]? = some '(' → OpensHeading (stream w) p)
    (hangle : Heading.isZero angle = false) : ∃ d, compile unit w originX angle = .ok d := by
  rw [compile_eq_draw hne hangle, draw_ok_iff]
  refine ⟨hopens, fun u => count_le_of_prefix_stream hw, ?_⟩
  rwa [BracesFollow, braces_stream]

/-- A balanced word without braces is drawn if every `(` of its stream opens a heading. -/
theorem exists_drawing (unit : η → Point κ) {w : Word} (hne : w ≠ []) (hw : Balanced w)
    (hbraces : ∀ c ∈ w, ¬ isBrace c)
    (hopens : ∀ p, (stream w)[p]? = some '(' → OpensHeading (stream w) p) (originX : κ) {angle : η}
    (hangle : Heading.isZero angle = false) :
    ∃ d, compile unit w originX angle = .ok d :=
  exists_drawing_of_bracesFollow hne hw ⟨0, braces_eq_nil hbraces⟩ hopens hangle

end Lindenmayer

import Lindenmayer.Proofs.ContextFree

/-!
# Words with polygons

Rules may put polygons into a word. Then it takes more than well-formed replacements to keep the
word one that can be drawn (`Drawable`), since the sides of a polygon are rewritten as well, and
what is put in there must not begin another polygon; and rules that erase symbols must not erase
the whole word. So it is told which symbols the sides of polygons consist of, whose replacements
consist of such symbols again, and which symbols leave one of their kind whenever they are
replaced (`Replaceable`). A drawable word with a symbol of that kind (`Vital`) stays one
(`Substituted.vital`), and it is drawn (`Drawable.exists_drawing`).

All this is told from start and rules, symbol by symbol, so it can be decided.
-/

namespace Lindenmayer

open Word

/-! ## Polygons -/

/-- Whether the braces of a word are pairs, one behind the other, with symbols of `sides` between
    them. The word may begin inside a polygon. -/
def polygonsFit (sides : List Char) : Bool → Word → Bool
  | inside, [] => !inside
  | false, c :: w => c ≠ '}' && polygonsFit sides (c = '{') w
  | true, c :: w =>
    if c = '}' then polygonsFit sides false w
    else c ≠ '{' && sides.contains c && polygonsFit sides true w

variable {sides alive : List Char} {inside : Bool} {u w y : Word}

theorem polygonsFit_append (hu : polygonsFit sides inside u) (v : Word) :
    polygonsFit sides inside (u ++ v) = polygonsFit sides false v := by
  induction u generalizing inside with
  | nil =>
    cases inside with
    | false => rfl
    | true => simp [polygonsFit] at hu
  | cons c u ih =>
    cases inside with
    | false =>
      simp only [polygonsFit, Bool.and_eq_true, decide_eq_true_eq] at hu
      simp [polygonsFit, hu.1, ih hu.2]
    | true =>
      rw [polygonsFit] at hu
      rw [List.cons_append, polygonsFit]
      split_ifs at hu ⊢ with hc
      · exact ih hu
      · simp only [Bool.and_eq_true] at hu
        simp only [hu.1, Bool.and_self, Bool.true_and]
        exact ih hu.2

/-- What consists of sides goes on with the polygon that it is put into. -/
theorem polygonsFit_sides (hu : ∀ c ∈ u, c ∈ sides ∧ ¬ isBrace c) (v : Word) :
    polygonsFit sides true (u ++ v) = polygonsFit sides true v := by
  induction u with
  | nil => rfl
  | cons c u ih =>
    obtain ⟨⟨hside, hbrace⟩, hu⟩ := List.forall_mem_cons.1 hu
    simp only [isBrace, decide_eq_true_eq, not_or] at hbrace
    simp [polygonsFit, hside, hbrace, ih hu]

theorem polygonAfter_of_polygonsFit (h : polygonsFit sides inside w) :
    polygonAfter inside (braces w) = some false := by
  induction w generalizing inside with
  | nil =>
    cases inside with
    | false => rfl
    | true => simp [polygonsFit] at h
  | cons c w ih =>
    cases inside with
    | false =>
      simp only [polygonsFit, Bool.and_eq_true, decide_eq_true_eq] at h
      by_cases hc : c = '{' <;> simp_all [braces_cons, isBrace, polygonAfter]
    | true =>
      rw [polygonsFit] at h
      split_ifs at h with hc
      · simp_all [braces_cons, isBrace, polygonAfter]
      · simp_all [braces_cons, isBrace]

theorem bracesFollow_of_polygonsFit (h : polygonsFit sides false w) : BracesFollow w :=
  bracesFollow_iff.2 (polygonAfter_of_polygonsFit h)

/-! ## Drawable words -/

/-- A word that can be drawn if it is not empty. -/
@[mk_iff]
structure Drawable (sides : List Char) (w : Word) : Prop where
  balanced : Balanced w
  tidy : Tidy w
  polygons : polygonsFit sides false w

/-- A symbol and a word that may be put in its place. -/
@[mk_iff]
structure Replaceable (sides alive : List Char) (c : Char) (x : Word) : Prop where
  plain : IsPlain c
  drawable : Drawable sides x
  /-- In a polygon only sides are put. -/
  sides : c ∈ sides → ∀ d ∈ x, d ∈ sides ∧ ¬ isBrace d
  /-- What keeps a word alive is not lost. -/
  alive : c ∈ alive → ∃ d ∈ x, d ∈ alive

instance : DecidablePred (Drawable sides) := fun _ => decidable_of_iff' _ (drawable_iff ..)

instance (c : Char) : DecidablePred (Replaceable sides alive c) :=
  fun _ => decidable_of_iff' _ (replaceable_iff ..)

theorem Substituted.polygonsFit (h : Substituted (Replaceable sides alive) w y)
    (hw : polygonsFit sides inside w) : polygonsFit sides inside y := by
  induction h generalizing inside with
  | nil => exact hw
  | @keep c w y _ ih =>
    cases inside with
    | false =>
      simp only [Lindenmayer.polygonsFit, Bool.and_eq_true, decide_eq_true_eq] at hw ⊢
      exact ⟨hw.1, ih hw.2⟩
    | true =>
      rw [Lindenmayer.polygonsFit] at hw ⊢
      split_ifs at hw ⊢ with hc
      · exact ih hw
      · rw [Bool.and_eq_true] at hw ⊢
        exact ⟨hw.1, ih hw.2⟩
  | @replace c w x y hx _ ih =>
    have hopen : c ≠ '{' := hx.plain.ne (by decide)
    have hclose : c ≠ '}' := hx.plain.ne (by decide)
    cases inside with
    | false =>
      simp only [Lindenmayer.polygonsFit, Bool.and_eq_true, decide_eq_true_eq, hopen,
        decide_false] at hw
      rw [polygonsFit_append hx.drawable.polygons]
      exact ih hw.2
    | true =>
      simp only [Lindenmayer.polygonsFit, if_neg hclose, Bool.and_eq_true, List.contains_iff_mem]
        at hw
      rw [polygonsFit_sides (hx.sides hw.1.2)]
      exact ih hw.2

/-- What may be put in the place of symbols leaves a word drawable. -/
theorem Substituted.drawable (h : Substituted (Replaceable sides alive) w y)
    (hw : Drawable sides w) : Drawable sides y where
  balanced := h.balanced hw.balanced fun _ _ hx =>
    ⟨hx.plain.ne (by decide), hx.plain.ne (by decide), hx.drawable.balanced⟩
  tidy := h.composed hw.tidy fun _ _ hx => ⟨hx.plain.ne (by decide), hx.plain.ne (by decide),
    hx.plain.not_isHeadingSymbol, hx.drawable.tidy⟩
  polygons := h.polygonsFit hw.polygons

/-- A drawable word is drawn: in its stream the headings are as they were. -/
theorem Drawable.exists_drawing {η κ : Type} [Heading η] [Coordinate κ] (h : Drawable sides w)
    (hne : w ≠ []) (unit : η → Point κ) (originX : κ) {angle : η}
    (hangle : Heading.isZero angle = false) : ∃ d, compile unit w originX angle = .ok d :=
  exists_drawing_of_bracesFollow hne h.balanced (bracesFollow_of_polygonsFit h.polygons)
    (wellWritten_of_tidy (tidy_stream h.tidy)).opens hangle

/-! ## Words that last -/

/-- A drawable word with a symbol that keeps it alive. -/
@[mk_iff]
structure Vital (sides alive : List Char) (w : Word) : Prop where
  drawable : Drawable sides w
  alive : ∃ c ∈ w, c ∈ alive

instance : DecidablePred (Vital sides alive) := fun _ => decidable_of_iff' _ (vital_iff ..)

theorem Vital.ne_nil (h : Vital sides alive w) : w ≠ [] := by
  obtain ⟨c, hc, -⟩ := h.alive
  exact List.ne_nil_of_mem hc

theorem Substituted.vital (h : Substituted (Replaceable sides alive) w y)
    (hw : Vital sides alive w) : Vital sides alive y where
  drawable := h.drawable hw.drawable
  alive := h.exists_mem hw.alive fun _ _ hx => hx.alive

end Lindenmayer

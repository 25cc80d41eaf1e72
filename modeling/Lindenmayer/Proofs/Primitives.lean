import Lindenmayer.Proofs.Acceptance
import Lindenmayer.Proofs.Arrows
import Lindenmayer.Proofs.Trail

/-!
# The primitives of a word

Of the symbols of a word, five leave a primitive each, of a kind of their own
(`Primitive.Kind`); all others leave nothing. Whatever happens to a word on the way to its
drawing, nothing is lost, added or put elsewhere (`map_kind_of_compile`): turns that cancel
and variables that are taken out are none of the five, and headings are not written with
them.

So the drawing can be told from the word, up to its points: how its polygons follow each
other (`bracesFollow_of_compile`), how many there are (`polygonCount_eq_count`), and which of
its segments are lines (`Leaves.segments`).
-/

namespace Lindenmayer

open Word

variable {η κ : Type}

/-! ## Kinds -/

/-- The kinds of primitives. -/
inductive Primitive.Kind
  | segment
  | travel
  | restore
  | polygonBegin
  | polygonEnd
  deriving DecidableEq, Repr

namespace Primitive

/-- The kind of a primitive. -/
def kind : Primitive κ → Kind
  | .segment _ _ => .segment
  | .travel _ _ => .travel
  | .restore _ => .restore
  | .polygonBegin _ => .polygonBegin
  | .polygonEnd => .polygonEnd

/-- The kind of primitive that a symbol leaves; `none` for a symbol that leaves nothing. -/
def Kind.ofSymbol? : Char → Option Kind
  | 'F' => some .segment
  | 'f' => some .travel
  | ']' => some .restore
  | '{' => some .polygonBegin
  | '}' => some .polygonEnd
  | _ => none

/-- The symbol that leaves primitives of a kind. -/
def Kind.symbol : Kind → Char
  | .segment => 'F'
  | .travel => 'f'
  | .restore => ']'
  | .polygonBegin => '{'
  | .polygonEnd => '}'

theorem Kind.ofSymbol?_eq_some_iff {c : Char} {k : Kind} :
    Kind.ofSymbol? c = some k ↔ c = k.symbol := by
  constructor
  · intro h
    unfold Kind.ofSymbol? at h
    split at h <;> simp only [Option.some.injEq, reduceCtorEq] at h
    all_goals subst h; rfl
  · rintro rfl
    cases k <;> rfl

/-- Whether primitives of a kind are marks of polygons. -/
def Kind.isMark (k : Kind) : Bool := k = .polygonBegin ∨ k = .polygonEnd

end Primitive

open Primitive (Kind)

/-- The kind of primitive that a command leaves. -/
def Command.kind? : Command → Option Kind
  | .forward true => some .segment
  | .forward false => some .travel
  | .pop => some .restore
  | .beginPolygon => some .polygonBegin
  | .endPolygon => some .polygonEnd
  | _ => none

theorem tellsSame_kind : TellsSame Kind.ofSymbol? Command.kind? where
  left := rfl
  right := rfl
  idle c hc := by
    refine Option.eq_none_iff_forall_ne_some.2 fun k hk => ?_
    obtain rfl := Kind.ofSymbol?_eq_some_iff.1 hk
    cases k <;> cases hc
  command := by decide
  opening := rfl
  face _ := rfl
  passed _ := rfl
  malformed := rfl

/-! ## The record of a walk -/

section

variable [Heading η] [Coordinate κ] {unit : η → Point κ} {angle : η}

namespace Recording

variable {r r' : Recording η κ} {l : List Instruction}

omit [Coordinate κ] in
theorem kind_leaves (p q : Point κ) (c : Command) :
    (leaves p q c).map Primitive.kind = c.kind? := by
  cases c with
  | forward drawn => cases drawn <;> rfl
  | _ => rfl

/-- Each command leaves a primitive of its kind, behind those that were left before. -/
theorem map_kind_of_step {i : Instruction} (h : r.step unit angle i = .ok r') :
    r'.primitives.reverse.map Primitive.kind =
      r.primitives.reverse.map Primitive.kind ++ i.command.kind?.toList := by
  obtain ⟨w, inside, -, -, rfl⟩ := step_eq_ok_iff.1 h
  rw [← kind_leaves r.position w.turtle.position]
  cases leaves r.position w.turtle.position i.command <;> simp

theorem map_kind_of_run (h : r.run unit angle l = .ok r') :
    r'.primitives.reverse.map Primitive.kind =
      r.primitives.reverse.map Primitive.kind ++ l.filterMap (·.command.kind?) := by
  induction l generalizing r with
  | nil =>
    obtain rfl : r = r' := Except.ok.inj h
    simp
  | cons i l ih =>
    obtain ⟨r₁, hstep, hrest⟩ := run_cons_eq_ok_iff.1 h
    rw [ih hrest, map_kind_of_step hstep, List.append_assoc]
    cases hkind : i.command.kind? <;> simp [hkind]

end Recording

/-! ## The drawing of a word -/

variable {w : Word} {originX : κ} {d : Drawing κ}

/-- The primitives of a drawing are, kind by kind, the symbols of its word that leave one. -/
theorem map_kind_of_compile (h : compile unit w originX angle = .ok d) :
    d.primitives.map Primitive.kind = w.filterMap Kind.ofSymbol? := by
  obtain ⟨-, -, r, hr, -, rfl⟩ := compile_eq_ok_iff.1 h
  -- The walk has gone through, so no `(` has kept anything from being read.
  obtain ⟨lost, hlost, hnone⟩ := tellsSame_kind.filterMap_commandsFrom 0 w.cancelTurns
  rw [hnone (not_malformed_of_walker_run (Recording.walker_run_of_run hr)), List.append_nil,
    tellsSame_kind.filterMap_cancelTurns] at hlost
  rw [Recording.map_kind_of_run hr, hlost]
  rfl

/-- In a word that compiles the braces are pairs, one behind the other. -/
theorem bracesFollow_of_compile (h : compile unit w originX angle = .ok d) : BracesFollow w := by
  obtain ⟨hne, hangle, -⟩ := compile_eq_ok_iff.1 h
  rw [compile_eq_draw hne hangle] at h
  obtain ⟨-, -, n, hn⟩ := draw_ok_iff.1 ⟨d, h⟩
  exact ⟨n, braces_stream w ▸ hn⟩

end

/-! ## Polygons -/

variable {w : Word} {l : List (Primitive κ)}

/-- The marks of polygons are left by braces. -/
theorem filter_isMark_filterMap (w : Word) :
    (w.filterMap Kind.ofSymbol?).filter Kind.isMark = (braces w).filterMap Kind.ofSymbol? := by
  rw [braces, List.filterMap_filter, List.filter_filterMap]
  refine List.filterMap_congr fun c _ => ?_
  cases hc : Kind.ofSymbol? c with
  | none => simp
  | some k =>
    obtain rfl := Kind.ofSymbol?_eq_some_iff.1 hc
    cases k <;> rfl

/-- Of braces that are pairs, one behind the other, there are as many pairs as `{`. -/
theorem BracesFollow.braces_eq (h : BracesFollow w) :
    braces w = (List.replicate (w.count '{') ['{', '}']).flatten := by
  obtain ⟨n, hn⟩ := h
  have hcount : w.count '{' = n := by
    rw [← List.count_filter (p := isBrace) rfl, ← braces, hn]
    simp [List.count_flatten]
  rw [hcount, hn]

theorem polygonCount_eq_count (h : l.map Primitive.kind = w.filterMap Kind.ofSymbol?) :
    l.countP Drawing.beginsPolygon = w.count '{' := by
  have hbegins : (Drawing.beginsPolygon : Primitive κ → Bool) =
      (· == .polygonBegin) ∘ Primitive.kind := by
    funext a
    cases a <;> rfl
  calc l.countP Drawing.beginsPolygon
      = (w.filterMap Kind.ofSymbol?).count .polygonBegin := by
        rw [hbegins, ← List.countP_map, h, List.count]
    _ = w.countP fun c => Kind.ofSymbol? c == some .polygonBegin := List.count_filterMap
    _ = w.count '{' := List.countP_congr fun c _ => by
        rw [beq_iff_eq, Kind.ofSymbol?_eq_some_iff, beq_iff_eq]
        rfl

/-! ## Lines -/

instance (w : Word) (p : ℕ) : Decidable (InPolygon w p) := inferInstanceAs (Decidable (_ = _))

/-- The positions of the `F` of a word outside braces. -/
def freeDraws (w : Word) : List ℕ :=
  (List.range w.length).filter fun p => w[p]? = some 'F' ∧ ¬ InPolygon w p

/-- How many primitives are left in front of a position: the index of the primitive that the
    symbol there leaves. -/
def primitiveIndex (w : Word) (p : ℕ) : ℕ := ((w.take p).filterMap Kind.ofSymbol?).length

theorem inPolygon_append_left {p : ℕ} (hp : p ≤ w.length) (v : Word) :
    InPolygon (w ++ v) p ↔ InPolygon w p := by
  rw [InPolygon, InPolygon, List.take_append_of_le_length hp]

theorem primitiveIndex_append_left {p : ℕ} (hp : p ≤ w.length) (v : Word) :
    primitiveIndex (w ++ v) p = primitiveIndex w p := by
  rw [primitiveIndex, primitiveIndex, List.take_append_of_le_length hp]

theorem freeDraws_concat (w : Word) (c : Char) :
    freeDraws (w ++ [c]) =
      freeDraws w ++ if c = 'F' ∧ ¬ InPolygon w w.length then [w.length] else [] := by
  have hfront : (List.range w.length).filter (fun p => (w ++ [c])[p]? = some 'F' ∧
      ¬ InPolygon (w ++ [c]) p) = freeDraws w := by
    refine List.filter_congr fun p hp => ?_
    have hlt := List.mem_range.1 hp
    simp only [List.getElem?_append_left hlt, inPolygon_append_left hlt.le]
  rw [freeDraws, List.length_append, List.length_singleton, List.range_succ, List.filter_append,
    hfront, List.filter_singleton]
  simp [inPolygon_append_left le_rfl]

theorem segmentsInto_append (inside : Bool) (l m : List (Primitive κ)) :
    Drawing.segmentsInto [] inside (l ++ m) = Drawing.segmentsInto [] inside l ++
      Drawing.segmentsInto [] (l.foldl Primitive.leavesOpen inside) m := by
  induction l generalizing inside with
  | nil => rfl
  | cons a l ih =>
    rw [List.cons_append, List.foldl_cons]
    cases a with
    | segment start stop =>
      cases inside with
      | true => exact ih true
      | false =>
        have hfront : ∀ k : List (Primitive κ), Drawing.segmentsInto [] false
            (.segment start stop :: k) = (start, stop) :: Drawing.segmentsInto [] false k :=
          Drawing.segmentsInto_eq [(start, stop)] false
        rw [hfront, hfront, ih false]
        rfl
    | travel start stop => exact ih inside
    | restore stop => exact ih inside
    | polygonBegin origin => exact ih true
    | polygonEnd => exact ih false

/-- A word leaves primitives, kind by kind: its last symbol leaves nothing, or the last of
    them. -/
inductive Leaves : Word → List (Primitive κ) → Prop
  | nil : Leaves [] []
  | silent {w : Word} {l : List (Primitive κ)} {c : Char} : Kind.ofSymbol? c = none →
    Leaves w l → Leaves (w ++ [c]) l
  | primitive {w : Word} {l : List (Primitive κ)} (a : Primitive κ) : Leaves w l →
    Leaves (w ++ [a.kind.symbol]) (l ++ [a])

theorem leaves_of_map_kind (h : l.map Primitive.kind = w.filterMap Kind.ofSymbol?) :
    Leaves w l := by
  induction w using List.reverseRecOn generalizing l with
  | nil =>
    obtain rfl := List.map_eq_nil_iff.1 h
    exact .nil
  | append_singleton w c ih =>
    rw [List.filterMap_append] at h
    cases hc : Kind.ofSymbol? c with
    | none => exact .silent hc (ih (by simpa [hc] using h))
    | some k =>
      obtain ⟨l, last, rfl, hw, hlast⟩ := List.map_eq_append_iff.1 h
      obtain ⟨a, rfl, rfl⟩ : ∃ a, last = [a] ∧ a.kind = k := by
        simpa [hc, List.map_eq_singleton_iff] using hlast
      obtain rfl := Kind.ofSymbol?_eq_some_iff.1 hc
      exact .primitive a (ih hw)

theorem Leaves.length_eq (h : Leaves w l) : l.length = primitiveIndex w w.length := by
  rw [primitiveIndex, List.take_length]
  induction h with
  | nil => rfl
  | silent hc _ ih => simpa [List.filterMap_append, hc] using ih
  | primitive a _ ih =>
    have hkind : Kind.ofSymbol? a.kind.symbol = some a.kind := Kind.ofSymbol?_eq_some_iff.2 rfl
    simp [List.filterMap_append, hkind, ih]

/-- A polygon is open behind primitives if the last brace of their word opens one. -/
theorem Leaves.leavesOpen_iff (h : Leaves w l) :
    l.foldl Primitive.leavesOpen false = true ↔ InPolygon w w.length := by
  rw [InPolygon, List.take_length]
  induction h with
  | nil => simp [braces]
  | @silent w l c hc _ ih =>
    have hbrace : ¬ isBrace c := by
      intro hbrace
      simp only [isBrace, decide_eq_true_eq] at hbrace
      rcases hbrace with rfl | rfl <;> cases hc
    rw [ih, braces_append, braces_eq_nil (w := [c]) (by simpa using hbrace), List.append_nil]
  | primitive a _ ih =>
    rw [List.foldl_append, braces_append]
    cases a with
    | polygonBegin origin =>
      simp [Primitive.leavesOpen, braces, isBrace, Primitive.kind, Kind.symbol]
    | polygonEnd => simp [Primitive.leavesOpen, braces, isBrace, Primitive.kind, Kind.symbol]
    | _ =>
      rw [braces_eq_nil (w := [_]) (by simp [isBrace, Primitive.kind, Kind.symbol]),
        List.append_nil]
      exact ih

/-- What is left by the symbol at a position of a word is still left by it when the word goes
    on. -/
theorem getElem?_primitiveIndex_append {p : ℕ} {a : Primitive κ} (hp : p ≤ w.length)
    (h : l[primitiveIndex w p]? = some a) (v : Word) (m : List (Primitive κ)) :
    (l ++ m)[primitiveIndex (w ++ v) p]? = some a := by
  obtain ⟨hlt, -⟩ := List.getElem?_eq_some_iff.1 h
  rw [primitiveIndex_append_left hp, List.getElem?_append_left hlt, h]

/-- The lines of a drawing are the segments that are left by the `F` outside braces, in
    order. -/
theorem Leaves.segments (h : Leaves w l) :
    List.Forall₂ (fun p s => p < w.length ∧ l[primitiveIndex w p]? = some (.segment s.1 s.2))
      (freeDraws w) (Drawing.segmentsInto [] false l) := by
  induction h with
  | nil => exact .nil
  | @silent w l c hc _ ih =>
    have hdraws : freeDraws (w ++ [c]) = freeDraws w := by
      rw [freeDraws_concat, if_neg, List.append_nil]
      rintro ⟨rfl, -⟩
      cases hc
    rw [hdraws]
    refine ih.imp fun p s ⟨hp, hs⟩ => ⟨by simp; omega, ?_⟩
    simpa using getElem?_primitiveIndex_append hp.le hs [c] []
  | @primitive w l a hw ih =>
    simp only [segmentsInto_append, freeDraws_concat, ← hw.leavesOpen_iff]
    refine List.rel_append (ih.imp fun p s ⟨hp, hs⟩ =>
      ⟨by simp; omega, getElem?_primitiveIndex_append hp.le hs _ _⟩) ?_
    have hindex : (l ++ [a])[primitiveIndex (w ++ [a.kind.symbol]) w.length]? = some a := by
      rw [primitiveIndex_append_left le_rfl, ← hw.length_eq, List.getElem?_concat_length]
    cases a with
    | segment start stop =>
      cases l.foldl Primitive.leavesOpen false with
      | true => exact .nil
      | false => exact .cons ⟨by simp, hindex⟩ .nil
    | _ => exact .nil

/-! ## Drawings -/

variable [Heading η] [Coordinate κ]

/-- No primitive is lost, added or put elsewhere. The primitives of a drawing are, kind by kind,
    the symbols of its word that leave one; each starts where the one before it has left the
    turtle, and the first at the point where the turtle starts. The marks of polygons are
    pairs, one behind the other, as many as the word has `{`, and the lines of the drawing are
    the segments left by the `F` outside braces, one for each and in order. -/
theorem primitives_follow_word (unit : η → Point κ) {w : Word} {originX : κ} {angle : η}
    {d : Drawing κ} (h : compile unit w originX angle = .ok d) :
    d.primitives.map Primitive.kind = w.filterMap Kind.ofSymbol? ∧
    (∃ q, Trail ⟨originX, Coordinate.ofInt 0⟩ d.primitives q) ∧
    (d.primitives.map Primitive.kind).filter Kind.isMark =
      (List.replicate d.polygonCount [Kind.polygonBegin, Kind.polygonEnd]).flatten ∧
    d.polygonCount = w.count '{' ∧
    List.Forall₂ (fun p s => d.primitives[primitiveIndex w p]? = some (.segment s.1 s.2))
      (freeDraws w) d.segments := by
  have hkinds := map_kind_of_compile h
  have hcount : d.polygonCount = w.count '{' := polygonCount_eq_count hkinds
  obtain ⟨-, -, r, hr, -, hd⟩ := compile_eq_ok_iff.1 h
  refine ⟨hkinds, ⟨r.position, ?_⟩, ?_, hcount, ?_⟩
  · rw [hd]
    exact ((Recording.faithful_start _).run hr).trail
  · rw [hkinds, filter_isMark_filterMap, (bracesFollow_of_compile h).braces_eq, hcount,
      List.filterMap_flatten, List.map_replicate]
    rfl
  · exact (leaves_of_map_kind hkinds).segments.imp fun p s hs => hs.2

/-- The variable and the turns leave nothing, nor does the heading, and the `F` in braces is
    no line. -/
theorem primitives_follow_word_aroundPolygon :
    ∃ d, compile floatStep ['X', '+', '-', '(', '0', ')', '{', 'F', '}', 'F'] 0 90 = .ok d ∧
      d.primitives.map Primitive.kind = [.polygonBegin, .segment, .polygonEnd, .segment] ∧
      d.polygonCount = 1 ∧
      List.Forall₂ (fun i s => d.primitives[i]? = some (.segment s.1 s.2)) [3] d.segments := by
  have hok : (compile floatStep
      ['X', '+', '-', '(', '0', ')', '{', 'F', '}', 'F'] 0 90).toOption.isSome := by
    decide +kernel
  have hindices : (freeDraws ['X', '+', '-', '(', '0', ')', '{', 'F', '}', 'F']).map
      (primitiveIndex ['X', '+', '-', '(', '0', ')', '{', 'F', '}', 'F']) = [3] := by
    decide
  obtain ⟨d, hd⟩ := exists_ok_of_toOption hok
  obtain ⟨hkinds, -, -, hcount, hsegments⟩ := primitives_follow_word floatStep hd
  exact ⟨d, hd, hkinds, hcount, hindices ▸ List.forall₂_map_left_iff.2 hsegments⟩

end Lindenmayer

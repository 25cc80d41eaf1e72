import Lindenmayer.Drawing

/-!
# Canvases

Several drawings side by side, each with a caption, and the bounds of them all.
-/

namespace Lindenmayer

/-- A drawing with its place on a canvas. -/
structure Subplot (κ : Type) where
  drawing : Drawing κ
  originX : κ
  /-- The caption below the drawing; empty for none. -/
  label : String
  deriving DecidableEq, Repr

/-- Subplots from left to right. -/
structure Canvas (κ : Type) where
  subplots : List (Subplot κ)
  bbox : BoundingBox κ
  deriving DecidableEq, Repr

/-- Whether some subplot has a caption. -/
def Canvas.hasLabels {κ : Type} (c : Canvas κ) : Bool := c.subplots.any (!·.label.isEmpty)

end Lindenmayer

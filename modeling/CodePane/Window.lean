import CodePane.Grid

/-!
# The window

The visible area: its size, how far the content behind it is scrolled, and which place its client
has been told last. The window does not know the content; the limits of scrolling are passed in.
-/

namespace CodePane

/-- The visible area. -/
structure Window where
  width : Int
  height : Int
  scroll : Scroll
  reported : Scroll
  deriving DecidableEq, Repr

namespace Window

def ofSize (width height : Int) : Window := ⟨max width 0, max height 0, .zero, .zero⟩

def resize (w : Window) (width height : Int) : Window :=
  { w with width := max width 0, height := max height 0 }

/-! ## Scrolling -/

/-- Brings a line to the top, at most `limit`. -/
def scrollToLine (w : Window) (line limit : Nat) : Window :=
  { w with scroll := { w.scroll with topLine := min line limit } }

/-- Scrolls by some lines, negative ones upwards, from the first line to `limit`. -/
def scrollByLines (w : Window) (delta : Int) (limit : Nat) : Window :=
  w.scrollToLine (w.scroll.topLine + delta).toNat limit

/-- Scrolls horizontally to `pixels`, from 0 to `limit`. -/
def scrollToPixel (w : Window) (pixels limit : Int) : Window :=
  { w with scroll := { w.scroll with left := max 0 (min pixels (max limit 0)) } }

/-- Scrolls as few lines as possible to bring a line into view. -/
def revealLine (w : Window) (line visible limit : Nat) : Window :=
  let visible := max visible 1
  let top := w.scroll.topLine
  w.scrollToLine
    (if line < top then line
      else if top + visible ≤ line then line + 1 - visible
      else top)
    limit

/-- The offset that brings pixel column `x` of the content into view: to the edge of the gutter if
it is hidden on the left, and `margin` pixels inside if it is hidden on the right. -/
def columnOffset (w : Window) (x gutter margin : Int) : Int :=
  let shown := x - w.scroll.left
  if shown < gutter then x - gutter
  else if w.width ≤ shown then x - (w.width - margin)
  else w.scroll.left

/-- The same, as far as all of its differences are pixel quantities. -/
def columnOffset? (w : Window) (x gutter margin : Int) : Option Int := do
  let shown ← Pixel.sub? x w.scroll.left
  if shown < gutter then Pixel.sub? x gutter
  else if w.width ≤ shown then
    let edge ← Pixel.sub? w.width margin
    Pixel.sub? x edge
  else some w.scroll.left

/-- Scrolls horizontally to bring pixel column `x` of the content into view. -/
def revealColumn (w : Window) (x gutter margin limit : Int) : Window :=
  w.scrollToPixel (max 0 (w.columnOffset x gutter margin)) limit

/-- `revealColumn`, or nothing where it has no offset. -/
def revealColumn? (w : Window) (x gutter margin limit : Int) : Option Window :=
  (w.columnOffset? x gutter margin).map fun left => w.scrollToPixel (max 0 left) limit

/-! ## Changes -/

/-- Where the content is scrolled to, if that is not what was told last, and the window after
telling it. -/
def reportScroll (w : Window) : Option Scroll × Window :=
  if w.scroll = w.reported then (none, w)
  else (some w.scroll, { w with reported := w.scroll })

end Window

end CodePane

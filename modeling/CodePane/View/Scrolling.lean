import CodePane.Keyboard
import CodePane.View.Basic

/-!
# Scrolling a view

1. `scrollToLine`, `scrollToPixel`, `scrollToValue`: scrolling to a place.
2. `scrollByLines`, `scrollByPixels`, `turnWheel`, `scrollByPage`: scrolling by steps.
3. `reveal`: scrolling as little as possible to make a position visible.
-/

namespace CodePane.View

variable [CharWidths]

/-! ## To a place -/

def scrollToLine (v : View) (line : Nat) : View :=
  { v with window := v.window.scrollToLine line v.topLimit }

/-- Brings the line of a position to the top. -/
def scrollToPosition (v : View) (pos : Nat) : View := v.scrollToLine (v.lineNumber pos)

def scrollToPixel (v : View) (pixels : Int) : View :=
  { v with window := v.window.scrollToPixel pixels v.leftLimit }

/-- Scrolls to where the vertical scrollbar stands at a value. -/
def scrollToValue (v : View) (value : Nat) : View :=
  v.scrollToLine
    (Scrollbar.askedTopLine { v.verticalBar with value := value } v.numLines v.rows)

/-! ## By steps -/

/-- Scrolls by some lines, negative ones upwards. -/
def scrollByLines (v : View) (delta : Int) : View :=
  { v with window := v.window.scrollByLines delta v.topLimit }

/-- Scrolls horizontally by some pixels, unless the content fits. -/
def scrollByPixels (v : View) (delta : Int) : View :=
  if v.contentWidth ≤ v.window.width then v
  else v.scrollToPixel (Pixel.clamp (v.window.scroll.left + delta))

/-- One step of the wheel: Ctrl scrolls further, and Shift scrolls horizontally, by as many pixels
as the lines are high. -/
def turnWheel (v : View) (d : Direction) (m : Modifiers) : View :=
  let scroll := v.settings.scroll
  let lines := (if m.ctrl then scroll.wheelLinesAccelerated else scroll.wheelLines).toNat
  if m.shift then v.scrollByPixels (d.signed (v.grid.rowTop lines))
  else v.scrollByLines (d.signed lines)

def scrollByPage (v : View) (d : Direction) : View := v.scrollByLines (d.signed v.rows)

/-! ## To a position -/

/-- Scrolls as little as possible to make a position visible. -/
def reveal (v : View) (pos : Nat) : View :=
  let pos := v.snap pos
  let window := v.window.revealLine (v.lineNumber pos) v.rows v.topLimit
  { v with
    window := window.revealColumn (v.pixelOf pos).x (v.grid.gutterPixels v.numLines)
      v.settings.scroll.horizontalMargin.toInt32.toInt v.leftLimit }

end CodePane.View

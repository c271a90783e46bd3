import CodePane.View.Scrolling

/-!
# Caret and selection of a view

1. `placeCaret`, `selectBetween`, `selectAndReveal`, `selectEverything`, `selectWord`: placing the
   caret and selecting.
2. `stepCaret`, `moveByLines`, `moveToEdge`, `moveByPage`: moves of the caret, which reveal it.
3. `pointerDown`, `pointerMoved`, `pointerUp`: the pointer.
-/

namespace CodePane.View

variable [CharWidths]

/-! ## Selecting -/

/-- Moves the caret and leaves the selection alone. -/
def placeCaret (v : View) (pos : Nat) : View :=
  { v with cursor := v.cursor.place (v.snap pos) }

/-- Two positions in order and widened to whole codepoints. -/
def snapSpan (v : View) (a b : Nat) : Nat × Nat :=
  (Text.floorBoundary v.text (min a b), Text.ceilBoundary v.text (max a b))

/-- Selects all between two positions. The fixed end of extending moves stays. -/
def selectBetween (v : View) (a b : Nat) : View :=
  let (start, stop) := v.snapSpan a b
  { v with cursor := v.cursor.selectSpan start stop false }

/-- Selects all between two positions, with the first as fixed end, and reveals the caret. -/
def selectAndReveal (v : View) (a b : Nat) : View :=
  let (start, stop) := v.snapSpan a b
  reveal { v with cursor := v.cursor.selectSpan start stop true } stop

def selectEverything (v : View) : View :=
  { v with cursor := v.cursor.selectSpan 0 v.text.length true }

def deselect (v : View) : View := { v with cursor := v.cursor.deselect }

/-- Selects the word at a position; between words nothing is selected. -/
def selectWord (v : View) (pos : Nat) : View :=
  let (start, stop) := Text.wordAround v.text pos
  v.selectAndReveal start stop

/-! ## Moves -/

def moveAndReveal (v : View) (pos : Nat) (extend : Bool) : View :=
  reveal { v with cursor := v.cursor.move pos extend } pos

/-- Forgets the pixel column that vertical moves aim at. -/
def forgetGoal (v : View) : View := { v with cursor := v.cursor.forgetGoal }

/-- The codepoint boundary next to the caret. -/
def nextToCaret (v : View) : Direction → Nat
  | .backward => Text.stepBack v.text v.cursor.caret
  | .forward => Text.stepForward v.text v.cursor.caret

/-- Moves the caret by one codepoint. -/
def stepCaret (v : View) (d : Direction) (extend : Bool) : View :=
  v.forgetGoal.moveAndReveal (v.nextToCaret d) extend

/-- The pixel row on which a move by some lines ends. -/
def rowAfter (v : View) (lines : Int) : Int :=
  let last := v.grid.rowTop (v.numLines - 1)
  let distance := v.grid.rowTop lines.natAbs
  let y := Pixel.clamp ((v.pixelOf v.cursor.caret).y + if lines < 0 then -distance else distance)
  max 0 (min y last)

/-- Moves the caret by some lines, negative ones upwards, to the pixel column where the first of
several such moves began. -/
def moveByLines (v : View) (lines : Int) (extend : Bool) : View :=
  let goal := v.cursor.goal.getD (v.pixelOf v.cursor.caret).x
  let pos := v.positionAt ⟨Pixel.clamp goal, v.rowAfter lines⟩
  moveAndReveal { v with cursor := v.cursor.aimAt goal } pos extend

/-- An end of the caret's line or of the whole text. -/
def edge (v : View) (d : Direction) (whole : Bool) : Nat :=
  let line := Text.lineNumber v.text v.cursor.caret
  match whole, d with
  | true, .backward => 0
  | true, .forward => v.text.length
  | false, .backward => Text.startOfLine v.text line
  | false, .forward => Text.endOfLine v.text line

/-- Moves the caret to an end of its line or of the whole text. -/
def moveToEdge (v : View) (d : Direction) (whole extend : Bool) : View :=
  v.forgetGoal.moveAndReveal (v.edge d whole) extend

/-- Moves the caret by as many lines as are visible. -/
def moveByPage (v : View) (d : Direction) (extend : Bool) : View :=
  v.moveByLines (d.signed v.rows) extend

/-! ## The pointer -/

/-- The primary button goes down at a pixel of the window. -/
def pointerDown (v : View) (p : Point) : View :=
  { v with cursor := v.cursor.beginDrag (v.windowPositionAt p) }

/-- The pointer moves, which extends the selection while dragging. -/
def pointerMoved (v : View) (p : Point) : View :=
  if v.cursor.dragging then
    let pos := v.windowPositionAt p
    reveal { v with cursor := v.cursor.dragTo pos } pos
  else v

/-- The primary button goes up, which ends a drag. -/
def pointerUp (v : View) (p : Point) : View :=
  if v.cursor.dragging then
    let pos := v.windowPositionAt p
    { v with cursor := (v.cursor.dragTo pos).endDrag (some pos) }
  else v

end CodePane.View

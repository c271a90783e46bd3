import CodePane.Cursor
import CodePane.Drawing
import CodePane.Scrollbar
import CodePane.Text.Word
import CodePane.TextKind
import CodePane.Window

/-!
# Views

A view shows one text: its tokens, its grid and theme, how far it is scrolled, and the cursor.

1. `View`: the state.
2. Sizes and limits of scrolling that follow from the state.
3. `View.ofSettings`, `View.load` and the other changes of what is shown and how.
4. What the view answers: pixels, scrollbars, selected text, drawings.
-/

namespace CodePane

/-- The state of a view. The width of the widest line and the gutter is kept, since measuring it
reads the whole text. -/
structure View where
  text : Text
  kind : TextKind
  tokens : List Token
  grid : Grid
  contentWidth : Int
  theme : Theme
  settings : Settings
  window : Window
  cursor : Cursor

/-- A direction of a step. -/
inductive Direction where
  | backward
  | forward
  deriving DecidableEq, Repr

namespace Direction

/-- A count of steps with the sign of a direction. -/
def signed (d : Direction) (n : Int) : Int :=
  match d with
  | .backward => -n
  | .forward => n

end Direction

namespace View

variable [CharWidths]

/-! ## Sizes and limits -/

def numLines (v : View) : Nat := Text.numLines v.text

/-- How many whole lines are visible. -/
def rows (v : View) : Nat := v.grid.rowsIn v.window.height

/-- How many cells are visible beside the gutter. -/
def columns (v : View) : Nat := v.grid.columnsIn v.window.width v.numLines

def contentHeight (v : View) : Int := v.grid.contentHeight v.text

/-- The greatest top line: the last lines fill the window. -/
def topLimit (v : View) : Nat := v.numLines - v.rows

/-- The greatest horizontal offset: the widest line ends at the right edge. -/
def leftLimit (v : View) : Int := max (v.contentWidth - v.window.width) 0

/-- The offset at which a position counts: inside the text, at the start of its codepoint. -/
def snap (v : View) (pos : Nat) : Nat := Text.floorBoundary v.text pos

/-- The line of a position. -/
def lineNumber (v : View) (pos : Nat) : Nat := Text.lineNumber v.text (v.snap pos)

/-! ## What is shown -/

/-- Keeps the scrolling inside their limits. -/
def keepInLimits (v : View) : View :=
  let s := v.window.scroll
  { v with window := (v.window.scrollToLine s.topLine v.topLimit).scrollToPixel s.left v.leftLimit }

/-- Measures the content anew. -/
def remeasure (v : View) : View :=
  keepInLimits { v with contentWidth := v.grid.contentWidth v.text }

/-- The view of an empty text. -/
def ofSettings (s : Settings) : View :=
  remeasure {
    text := []
    kind := .source
    tokens := []
    grid := ⟨.fallback s.cell, s.gutter⟩
    contentWidth := 0
    theme := .ofOverrides s.colors
    settings := s
    window := .ofSize 0 0
    cursor := .initial }

/-- Shows another text from its start, with the tokens of its kind. -/
def load (v : View) (text : Text) (kind : TextKind) : View :=
  let v := remeasure { v with
    text := text
    kind := kind
    tokens := Coverage.ofTokens (kind.tokenize text) text.length
    cursor := .initial }
  { v with window := (v.window.scrollToLine 0 0).scrollToPixel 0 0 }

/-- Replaces all tokens. -/
def recolor (v : View) (tokens : List Token) : View :=
  { v with tokens := Coverage.ofTokens tokens v.text.length }

/-- Lays tokens over the present ones. -/
def highlight (v : View) (tokens : List Token) : View :=
  { v with tokens := Coverage.lay v.tokens tokens v.text.length }

/-- Shows the text in cells of another size. -/
def withCells (v : View) (c : CellSize) : View :=
  remeasure { v with grid := { v.grid with cell := c } }

/-- Shows the text in cells of a font's size. -/
def fitFont (v : View) (m : FontMeasure) : View :=
  v.withCells (.measure m v.settings.cell)

/-- Shows or hides the gutter. -/
def showGutter (v : View) (enabled : Bool) : View :=
  remeasure { v with grid := { v.grid with gutter := { v.grid.gutter with enabled } } }

/-- Shows the text in other colours. -/
def withTheme (v : View) (t : Theme) : View := { v with theme := t }

/-- Gives the window another size. -/
def resize (v : View) (width height : Int) : View :=
  keepInLimits { v with window := v.window.resize width height }

/-! ## Answers -/

def pixelOf (v : View) (pos : Nat) : Point := v.grid.pixelOf v.text pos

/-- The pixel of a position in the window. -/
def windowPixelOf (v : View) (pos : Nat) : Point :=
  v.grid.toWindow v.window.scroll (v.pixelOf pos)

def positionAt (v : View) (p : Point) : Nat := v.grid.positionAt v.text p

/-- The position under a pixel of the window. -/
def windowPositionAt (v : View) (p : Point) : Nat :=
  v.positionAt (v.grid.ofWindow v.window.scroll p)

/-- How the scrollbars map the content. -/
def scale (v : View) : ScrollScale := .ofSettings v.settings.scroll

def verticalBar (v : View) : Scrollbar :=
  v.scale.vertical v.window.scroll.topLine v.numLines v.rows

def horizontalBar (v : View) : Scrollbar :=
  v.scale.horizontal v.window.scroll.left v.window.width v.contentWidth

def selection (v : View) : Option (Nat × Nat) := v.cursor.selection.range

def selectedBytes (v : View) : Text :=
  match v.selection with
  | some (start, stop) => Text.between v.text start stop
  | none => []

/-- The position of the first character of the top line. -/
def topPosition (v : View) : Nat := Text.startOfLine v.text v.window.scroll.topLine

/-- What is to be drawn inside an area of the window. -/
def draw (v : View) (clip : Rect) : Drawing :=
  Scene.draw {
    text := v.text
    tokens := v.tokens
    grid := v.grid
    theme := v.theme
    scroll := v.window.scroll
    width := v.window.width
    height := v.window.height
    selection := v.selection
    caret := v.cursor.caret } clip

/-- What is to be drawn in the whole window. -/
def drawAll (v : View) : Drawing :=
  v.draw ⟨0, 0, v.window.width, v.window.height⟩

end View

end CodePane

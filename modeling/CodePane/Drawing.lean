import CodePane.Grid
import CodePane.Coverage

/-!
# Drawings

What is to be drawn in the visible area, in pixels of the window: for each row the selection, the
pieces and the gutter, and at last the caret.

1. `pieces`: a line cut at the borders of tokens.
2. `Scene.placedPieces`: the pieces side by side, each with its place and colour.
3. `Scene.selectionArea`, `Scene.caretArea`: the selection on a line, and the caret.
4. `Scene.draw`: the drawing of an area.
-/

namespace CodePane

/-! ## Pieces of a line -/

/-- Part of a line that is drawn in one colour and style. -/
structure Piece where
  start : Nat
  stop : Nat
  tokenClass : TokenClass
  style : Style
  deriving DecidableEq, Repr

/-- The piece of a span, none if the span is empty. -/
def piece (start stop : Nat) (c : TokenClass) (s : Style) : List Piece :=
  if start < stop then [⟨start, stop, c, s⟩] else []

/-- The part `[pos, stop)` of a line, which began at `start`, cut at the borders of tokens. Gaps
between tokens have the default class. -/
def pieces (start stop pos : Nat) : List Token → List Piece
  | [] => piece pos stop .default .plain
  | t :: rest =>
    let a := max t.start start
    let b := min t.stop stop
    piece pos a .default .plain ++ piece a b t.tokenClass t.style ++ pieces start stop b rest

/-! ## Drawings -/

/-- A piece with its place and colour. -/
structure PlacedPiece where
  piece : Piece
  x : Int
  width : Int
  color : Color
  deriving DecidableEq, Repr

/-- One row of a drawing. The label is the line's number, counted from one. -/
structure DrawnRow where
  line : Nat
  y : Int
  label : Option Nat
  gutter : Option Rect
  selection : Option Rect
  pieces : List PlacedPiece
  deriving DecidableEq, Repr

/-- What is to be drawn. -/
structure Drawing where
  rows : List DrawnRow
  caret : Option Rect
  deriving DecidableEq, Repr

/-- What a drawing is made from. -/
structure Scene where
  text : Text
  tokens : List Token
  grid : Grid
  theme : Theme
  scroll : Scroll
  width : Int
  height : Int
  selection : Option (Nat × Nat)
  caret : Nat

namespace Scene

variable [CharWidths]

/-- The pixel of an offset in the window. -/
def pixelOf (s : Scene) (pos : Nat) : Point :=
  s.grid.toWindow s.scroll (s.grid.pixelOf s.text pos)

/-! ## Text -/

/-- Pieces side by side from pixel column `x` on, in increasing order, when the text from offset
`pos` on is given. -/
def place (s : Scene) (x : Int) (pos : Nat) (text : Text) : List Piece → List PlacedPiece
  | [] => []
  | p :: rest =>
    let text := text.drop (p.start - pos)
    let width := s.grid.widthOf (Text.columnsFrom p.stop p.start text)
    ⟨p, x, width, s.theme.color p.tokenClass⟩ ::
      s.place (Pixel.clamp (x + width)) p.start text rest

/-- A piece reaches into the columns of an area. -/
def meets (clip : Rect) (p : PlacedPiece) : Bool :=
  clip.x < Pixel.clamp (p.x + p.width) && p.x < clip.right

/-- The pieces of the line `[start, stop)` inside an area. -/
def placedPieces (s : Scene) (start stop : Nat) (clip : Rect) : List PlacedPiece :=
  (s.place (s.pixelOf start).x start (s.text.drop start)
    (pieces start stop start (Coverage.touching s.tokens start stop))).filter (meets clip)

/-! ## Selection and caret -/

/-- The selection on a line `[start, stop)` whose top is `y`. A selection that goes on in the next
line takes one more cell. -/
def selectionArea (s : Scene) (line start stop : Nat) (y : Int) : Option Rect :=
  match s.selection with
  | none => none
  | some (a, b) =>
    let goesOn := line + 1 < Text.numLines s.text ∧ stop < b
    let first := max a start
    let last := min b stop
    if b ≤ start ∨ stop < a ∨ (last ≤ first ∧ ¬goesOn) then none
    else
      let left := (s.pixelOf first).x
      let right := (s.pixelOf last).x + if goesOn then s.grid.columnPixels else 0
      some ⟨left, y, right - left, s.grid.rowPixels⟩

/-- The caret: a bar of two pixels, two pixels off the top and the bottom of its line, unless that
line is off the window. -/
def caretArea (s : Scene) : Option Rect :=
  let height := s.grid.rowPixels
  let p := s.pixelOf s.caret
  if p.y + height ≤ 0 ∨ s.height ≤ p.y then none
  else some ⟨p.x, p.y + 2, 2, max (height - 4) 1⟩

/-! ## The drawing -/

/-- The row of a line, unless it is off an area. -/
def row? (s : Scene) (clip : Rect) (line : Nat) : Option DrawnRow :=
  let height := s.grid.rowPixels
  let y := s.grid.rowTop (line - s.scroll.topLine)
  let gutter := s.grid.gutterPixels (Text.numLines s.text)
  let start := Text.startOfLine s.text line
  let stop := Text.endOfLine s.text line
  if Rect.overlaps ⟨0, y, s.width, height⟩ clip then
    some {
      line := line
      y := y
      label := if 0 < gutter then some (line + 1) else none
      gutter := if 0 < gutter then some ⟨0, y, gutter, height⟩ else none
      selection := s.selectionArea line start stop y
      pieces := s.placedPieces start stop clip }
  else none

/-- The lines that can be visible: those that fit and one that may be cut off. -/
def shownLines (s : Scene) : List Nat :=
  let first := s.scroll.topLine
  let last := min (first + s.grid.rowsIn s.height + 1) (Text.numLines s.text)
  List.range' first (last - first)

/-- What is to be drawn inside an area. -/
def draw (s : Scene) (clip : Rect) : Drawing :=
  ⟨s.shownLines.filterMap (s.row? clip), s.caretArea.filter (Rect.overlaps · clip)⟩

end Scene

end CodePane

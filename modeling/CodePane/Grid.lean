import CodePane.Pixel
import CodePane.Settings.Basic
import CodePane.Text.Line
import CodePane.Text.Width

/-!
# The grid

Where a text stands in pixels: line below line, each a row of cells of one size, behind a gutter for
the line numbers.

1. `CellSize`, `CellSize.measure?`: the size of a cell, and the one that a font asks for.
2. `Grid.gutterPixels`, `Grid.contentWidth`, `Grid.contentHeight`: sizes.
3. `Grid.pixelOf`, `Grid.positionAt`: from an offset to its pixel and back, in pixels of the
   whole content; `Grid.positionAt?`: the way back, which cells without width do not have.
4. `Grid.toWindow`, `Grid.ofWindow`: between pixels of the content and of the window.
-/

namespace CodePane

/-! ## Cells -/

/-- The size of a cell. Cells without width can be asked for, but no line fits a window if it is not
at least one pixel high. -/
structure CellSize where
  width : Nat
  height : Nat
  height_pos : 0 < height

/-- What a font says about itself, as far as it can be measured: the advance of the letter M, the
ascent and the descent. -/
structure FontMeasure where
  advance : Option Nat
  ascent : Option Nat
  descent : Option Nat
  deriving DecidableEq, Repr

namespace CellSize

/-- Cells of a given size, at least one pixel each way. -/
def ofSize (width height : Nat) : CellSize :=
  ⟨max width 1, max height 1, by omega⟩

def fallback (f : FallbackCell) : CellSize := ofSize f.width.toNat f.height.toNat

/-- Cells as wide as the advance and as high as ascent and descent together; what is unknown or
zero comes from the fallback. -/
def measure (m : FontMeasure) (f : FallbackCell) : CellSize :=
  let width := match m.advance with
    | some w => if 0 < w then w else f.width.toNat
    | none => f.width.toNat
  let height := match m.ascent, m.descent with
    | some a, some d => if 0 < a + d then a + d else f.height.toNat
    | _, _ => f.height.toNat
  ofSize width height

/-- `measure`, if ascent and descent together are no more than a size can be. -/
def measure? (m : FontMeasure) (f : FallbackCell) : Option CellSize :=
  match m.ascent, m.descent with
  | some a, some d => if a + d < UInt32.size then some (measure m f) else none
  | _, _ => some (measure m f)

end CellSize

/-- How far the content is scrolled: the line on top, and the pixels to the left of the window. -/
structure Scroll where
  topLine : Nat
  left : Int
  deriving DecidableEq, Repr

namespace Scroll

def zero : Scroll := ⟨0, 0⟩

end Scroll

/-- The cells and the gutter. -/
structure Grid where
  cell : CellSize
  gutter : GutterSettings

namespace Grid

variable [CharWidths]

/-! ## Sizes -/

/-- The width of a cell in pixels. -/
def columnPixels (g : Grid) : Int := Pixel.ofNat g.cell.width

/-- The height of a line in pixels. -/
def rowPixels (g : Grid) : Int := Pixel.ofNat g.cell.height

/-- The width of a number of cells. -/
def widthOf (g : Grid) (columns : Nat) : Int :=
  Pixel.clamp (Pixel.ofNat columns * g.columnPixels)

/-- The top of a line. -/
def rowTop (g : Grid) (line : Nat) : Int := Pixel.clamp (Pixel.ofNat line * g.rowPixels)

def digitCount (n : Nat) : Nat := (Nat.toDigits 10 n).length

/-- The width of the gutter: room for the greatest line number and the padding, or nothing. -/
def gutterPixels (g : Grid) (numLines : Nat) : Int :=
  if g.gutter.enabled then
    let digits := max (digitCount (max numLines 1)) g.gutter.minDigits.toNat
    g.widthOf (min (digits + g.gutter.paddingCells.toNat) (UInt32.size - 1))
  else 0

/-- How many whole lines fit into a height; at least one. -/
def rowsIn (g : Grid) (height : Int) : Nat := (max (max height 0 / g.rowPixels) 1).toNat

/-- How many cells fit beside the gutter. -/
def columnsIn (g : Grid) (width : Int) (numLines : Nat) : Nat :=
  (max (Pixel.clamp (width - g.gutterPixels numLines)) 0 / g.columnPixels).toNat

def widthOfLine (g : Grid) (text : Text) (line : Nat) : Int :=
  g.widthOf (Text.columns text (Text.startOfLine text line) (Text.endOfLine text line))

/-- The number of cells of the widest line. -/
def widestColumns (text : Text) : Nat :=
  (Text.lines text).foldl (fun widest line => max widest (Text.columns line 0 line.length)) 0

/-- The width of the widest line and the gutter. -/
def contentWidth (g : Grid) (text : Text) : Int :=
  Pixel.clamp (g.widthOf (widestColumns text) + g.gutterPixels (Text.numLines text))

/-- The height of all lines. -/
def contentHeight (g : Grid) (text : Text) : Int := g.rowTop (Text.numLines text)

/-! ## Offsets and pixels -/

/-- The top left pixel of the codepoint at an offset. -/
def pixelOf (g : Grid) (text : Text) (pos : Nat) : Point :=
  let pos := Text.floorBoundary text pos
  let line := Text.lineNumber text pos
  let columns := Text.columns text (Text.startOfLine text line) pos
  ⟨Pixel.clamp (g.gutterPixels (Text.numLines text) + g.widthOf columns), g.rowTop line⟩

/-- The first of a line's codepoints that reaches beyond cell `target`, if the first of them
stands at cell `column`. -/
def codepointReaching (target column : Nat) : List (Nat × Codepoint) → Option Nat
  | [] => none
  | (pos, c) :: rest =>
    let next := column + Text.charCells c.char
    if target < next then some pos else codepointReaching target next rest

/-- The line of a pixel row: the first line above the content, the last one below it. -/
def lineAt (g : Grid) (text : Text) (y : Int) : Nat :=
  min (max y 0 / g.rowPixels).toNat (Text.numLines text - 1)

/-- The cell of a pixel column: the first one in and before the gutter. -/
def columnAt (g : Grid) (text : Text) (x : Int) : Nat :=
  (max (Pixel.clamp (x - g.gutterPixels (Text.numLines text))) 0 / g.columnPixels).toNat

/-- The offset of the codepoint under a pixel. Left of a line this is the line's start, right of it
the line's end. -/
def positionAt (g : Grid) (text : Text) (p : Point) : Nat :=
  let line := g.lineAt text p.y
  let stop := Text.endOfLine text line
  (codepointReaching (g.columnAt text p.x) 0
    (Text.codepoints text (Text.startOfLine text line) stop)).getD stop

/-- `positionAt`, except right of the gutter where cells have no width: no cell is there. -/
def positionAt? (g : Grid) (text : Text) (p : Point) : Option Nat :=
  if g.cell.width = 0 ∧ g.gutterPixels (Text.numLines text) < p.x then none
  else some (g.positionAt text p)

/-! ## The window -/

/-- A pixel of the content as a pixel of the window. -/
def toWindow (g : Grid) (s : Scroll) (p : Point) : Point :=
  ⟨Pixel.clamp (p.x - s.left), Pixel.clamp (p.y - g.rowTop s.topLine)⟩

/-- A pixel of the window as a pixel of the content. -/
def ofWindow (g : Grid) (s : Scroll) (p : Point) : Point :=
  ⟨Pixel.clamp (p.x + s.left), Pixel.clamp (p.y + g.rowTop s.topLine)⟩

end Grid

end CodePane

import CodePane.Theme

/-!
# Settings

What a user can set, with its defaults. Counts and sizes are 32-bit words.
-/

namespace CodePane

/-- Scrolling: the least visible share of a text for which the scrollbar counts lines, the range of
the scrollbar of longer texts, the lines of a wheel step, the margin kept to the right of a revealed
position, and the step of the horizontal scrollbar. -/
structure ScrollSettings where
  minFraction : Float := 0.05
  maxUnits : UInt32 := 2000
  wheelLines : UInt32 := 3
  wheelLinesAccelerated : UInt32 := 10
  horizontalMargin : UInt32 := 40
  horizontalIncrement : UInt32 := 10
  deriving BEq

/-- The gutter with the line numbers: whether it is shown, for how many digits it has room at
least, and how many cells of padding it has. -/
structure GutterSettings where
  enabled : Bool := true
  minDigits : UInt32 := 2
  paddingCells : UInt32 := 2
  deriving DecidableEq, Repr

/-- The size of a cell where the font cannot be measured. -/
structure FallbackCell where
  width : UInt32 := 8
  height : UInt32 := 16
  deriving DecidableEq, Repr

structure Settings where
  scroll : ScrollSettings := {}
  gutter : GutterSettings := {}
  cell : FallbackCell := {}
  colors : Overrides := .empty
  deriving BEq

end CodePane

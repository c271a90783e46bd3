import CodePane.Text.Codepoint

/-!
# Display width

How many cells of a fixed-width grid a codepoint takes. Some blocks have a fixed width. The rest is
left to a table of the Unicode widths, of which nothing else is asked.

1. `CharWidths`: such a table.
2. `inTable`: ranges of values.
3. `charCells`: the width of a character.
4. `columns`: the width of a range of a text, codepoint by codepoint.
-/

namespace CodePane

/-- A table of the Unicode widths. -/
class CharWidths where
  /-- How many cells a character takes, if the table knows. -/
  cells? : Char → Option Nat

namespace Text

/-- Blocks that never take a cell: combining marks, joiners, variation selectors and the
modifiers of skin tone. -/
def zeroWidthBlocks : Array (Nat × Nat) :=
  #[(0x0300, 0x036F), (0x1AB0, 0x1AFF), (0x1DC0, 0x1DFF), (0x200C, 0x200D), (0x20D0, 0x20FF),
    (0xFE00, 0xFE0F), (0xFE20, 0xFE2F), (0x1F3FB, 0x1F3FF), (0xE0100, 0xE01EF)]

/-- Blocks that always take two cells: Hangul, the CJK scripts, the fullwidth forms, pictographs
and emoticons. -/
def doubleWidthBlocks : Array (Nat × Nat) :=
  #[(0x1100, 0x115F), (0x2E80, 0xA4CF), (0xAC00, 0xD7A3), (0xF900, 0xFAFF), (0xFF01, 0xFF60),
    (0xFFE0, 0xFFE6), (0x1F300, 0x1F64F), (0x1F900, 0x1F9FF)]

/-- A value inside one of the ranges `[first, last)` of a table, which is halved so many times. -/
def searchTable (table : Array (Nat × Nat)) (v : Nat) : (halvings first last : Nat) → Bool
  | 0, _, _ => false
  | halvings + 1, first, last =>
    let middle := (first + last) / 2
    match table[middle]? with
    | none => false
    | some (low, high) =>
      if v < low then searchTable table v halvings first middle
      else if high < v then searchTable table v halvings (middle + 1) last
      else true

/-- A value inside one of the ranges of a table, which are in increasing order. -/
def inTable (table : Array (Nat × Nat)) (v : Nat) : Bool :=
  searchTable table v (table.size.log2 + 1) 0 table.size

variable [CharWidths]

/-- The number of cells that a character takes: none for a control, one for printable ASCII, and
for the rest what the blocks and the table say, else one. -/
def charCells (c : Char) : Nat :=
  let v := c.toNat
  if inTable zeroWidthBlocks v then 0
  else if v < 0x20 then 0
  else if v < 0x7F then 1
  else if v < 0xA0 then 0
  else if inTable doubleWidthBlocks v then 2
  else (CharWidths.cells? c).getD 1

/-- The number of cells up to offset `stop`, when the text from offset `pos` on is given. -/
def columnsFrom (stop pos : Nat) (text : Text) : Nat :=
  (codepointsFrom stop pos text).foldr (fun (_, c) cells => charCells c.char + cells) 0

/-- The number of cells between two offsets of a line. -/
def columns (text : Text) (start stop : Nat) : Nat := columnsFrom stop start (text.drop start)

end Text

end CodePane

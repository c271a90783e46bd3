import CodePane.Halving
import CodePane.Text.Byte

/-!
# The index of a text's lines

The offsets at which the lines start are kept in a list. The line of an offset is looked up by
halving, the start and the end of a line by its number.
-/

namespace CodePane.Text

/-- The offsets at which lines start: that of the text, and the one behind every line feed. -/
def starts (text : Text) : List Nat :=
  0 :: (text.zipIdx.filter fun x => x.1 == Byte.lineFeed).map fun x => x.2 + 1

/-- The line of an offset, the last one if the offset is behind the text. -/
def lineNumber? (text : Text) (pos : Nat) : Option Nat :=
  (partitionPoint? (fun start => some (decide (start ≤ min pos text.length))) (starts text)).map
    (· - 1)

/-- The start of a line; a number past the last line means the last line. -/
def startOfLine? (text : Text) (line : Nat) : Option Nat :=
  (starts text)[min line ((starts text).length - 1)]?

/-- The end of a line: the line feed in front of the next start, or the end of the text. -/
def indexedEnd (text : Text) (line : Nat) : Nat :=
  match (starts text)[min line ((starts text).length - 1) + 1]? with
  | some next => next - 1
  | none => text.length

end CodePane.Text

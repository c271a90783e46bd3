import CodePane.Text.Byte

/-!
# Lines of a text

A line feed ends a line, so a text that ends in one has an empty last line, and there is always at
least one line.

1. `lines`: the lines themselves, without their line feeds.
2. `numLines`, `lineNumber`, `startOfLine`, `endOfLine`: lines by number. A number past the last
   line means the last line.
-/

namespace CodePane.Text

/-- The lines of a text, without the line feeds between them. -/
def lines (text : Text) : List Text :=
  text.foldr
    (fun b acc =>
      if b = Byte.lineFeed then [] :: acc
      else match acc with
        | line :: others => (b :: line) :: others
        | [] => [[b]])
    [[]]

def numLines (text : Text) : Nat := text.count Byte.lineFeed + 1

theorem lines_ne_nil (text : Text) : lines text ≠ [] := by
  cases text with
  | nil => simp [lines]
  | cons b rest =>
    simp only [lines, List.foldr_cons]
    repeat' split
    all_goals simp

theorem lines_cons (b : UInt8) (rest : Text) :
    lines (b :: rest) =
      if b = Byte.lineFeed then [] :: lines rest
      else match lines rest with
        | line :: others => (b :: line) :: others
        | [] => [[b]] :=
  rfl

theorem length_lines (text : Text) : (lines text).length = numLines text := by
  induction text with
  | nil => rfl
  | cons b rest ih =>
    rw [lines_cons]
    unfold numLines at ih ⊢
    rw [List.count_cons]
    split
    · next hb => simp [hb, ih]
    · next hb =>
      cases hl : lines rest with
      | nil => exact absurd hl (lines_ne_nil rest)
      | cons line others => simp_all

/-- The line of an offset: the number of line feeds before it. -/
def lineNumber (text : Text) (pos : Nat) : Nat := (text.take pos).count Byte.lineFeed

/-- The start of the line that comes `line` lines after the one that starts at `start`, or of the
last line, when the text from offset `pos` on is given. -/
def startOfLineFrom (start pos : Nat) : (line : Nat) → Text → Nat
  | line + 1, b :: rest =>
    if b = Byte.lineFeed then startOfLineFrom (pos + 1) (pos + 1) line rest
    else startOfLineFrom start (pos + 1) (line + 1) rest
  | _, _ => start

/-- The offset where a line begins. -/
def startOfLine (text : Text) (line : Nat) : Nat := startOfLineFrom 0 0 line text

/-- The offset where a line ends: its line feed, or the end of the text. -/
def endOfLine (text : Text) (line : Nat) : Nat :=
  let start := startOfLine text line
  start + countWhile (· != Byte.lineFeed) (text.drop start)

end CodePane.Text

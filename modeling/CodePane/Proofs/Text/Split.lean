import CodePane.Proofs.Text.Lines
import Mathlib.Data.Nat.Count

/-!
# Cutting a text into lines

Line feeds cut a text into its lines and are all that the cut takes away. Every offset belongs to
one line, which can be found in three ways: by counting the line feeds before it, by the start and
the end that surround it, and as the last line that starts no later.

1. `lineBytes_eq_takeWhile`, `lines_eq_map_lineBytes`, `intercalate_lines`: the lines, and the text
   joined from them.
2. `lineNumber_eq_count`: the line feeds before an offset.
3. `startOfLine_succ`, `endOfLine_lt_startOfLine`, `isGreatest_lineNumber`: the starts in order.
4. `lines_split_text`: all of it together.
-/

namespace CodePane.Text

variable {text : Text} {pos line other : Nat}

/-! ## Cutting and joining -/

theorem lineBytes_eq_takeWhile (text : Text) (line : Nat) :
    lineBytes text line = (text.drop (startOfLine text line)).takeWhile (· != Byte.lineFeed) := by
  have hlength := (boundary_endOfLine text line).le_length
  rw [lineBytes, between, Nat.min_eq_left hlength, endOfLine, Nat.add_sub_cancel_left,
    take_countWhile]

theorem lineFeed_notMem_lineBytes (text : Text) (line : Nat) :
    Byte.lineFeed ∉ lineBytes text line := by
  rw [lineBytes_eq_takeWhile]
  intro hmem
  exact absurd (List.mem_takeWhile_imp hmem) (by decide)

theorem lines_eq_splitOn (text : Text) : lines text = text.splitOn Byte.lineFeed := by
  induction text with
  | nil => rfl
  | cons b rest ih =>
    rw [lines_cons, List.splitOn_cons_eq_if_modifyHead, ← ih]
    simp only [beq_iff_eq]
    split
    · rfl
    · obtain ⟨first, others, hlines⟩ := List.exists_cons_of_ne_nil (lines_ne_nil rest)
      rw [hlines, List.modifyHead_cons]

theorem lines_eq_map_lineBytes (text : Text) :
    lines text = (List.range (numLines text)).map (lineBytes text) := by
  apply List.ext_getElem?
  intro line
  rw [List.getElem?_map]
  rcases Nat.lt_or_ge line (numLines text) with hline | hline
  · rw [getElem?_lines hline, List.getElem?_range hline, Option.map_some]
  · rw [List.getElem?_eq_none (by rw [length_lines]; exact hline),
      List.getElem?_eq_none (by rw [List.length_range]; exact hline), Option.map_none]

theorem intercalate_lines (text : Text) :
    [Byte.lineFeed].intercalate ((List.range (numLines text)).map (lineBytes text)) = text := by
  rw [← lines_eq_map_lineBytes, lines_eq_splitOn, List.intercalate_splitOn]

/-! ## Line feeds before an offset -/

theorem lineNumber_eq_count (text : Text) (pos : Nat) :
    lineNumber text pos = Nat.count (fun i => text[i]? = some Byte.lineFeed) pos := by
  induction pos with
  | zero => rw [lineNumber_zero, Nat.count_zero]
  | succ pos ih => rw [lineNumber_succ, Nat.count_succ, ih]

theorem lineNumber_of_length_le (h : text.length ≤ pos) :
    lineNumber text pos = numLines text - 1 := by
  rw [lineNumber, List.take_of_length_le h, numLines, Nat.add_sub_cancel]

/-! ## Starts in order -/

theorem startOfLine_succ (hline : line + 1 < numLines text) :
    startOfLine text (line + 1) = endOfLine text line + 1 := by
  have hfeed := (getElem?_endOfLine_iff (Nat.lt_of_succ_lt hline)).mpr hline
  have hlt : endOfLine text line < text.length := (List.getElem?_eq_some_iff.mp hfeed).1
  have hnumber := lineNumber_endOfLine (Nat.lt_of_succ_lt hline)
  have hbehind : lineNumber text (endOfLine text line + 1) = line + 1 := by
    rw [lineNumber_succ, if_pos hfeed, hnumber]
  obtain ⟨hstart, hend⟩ := (lineNumber_eq_iff hline hlt).mp hbehind
  -- the line feed belongs to the line before it
  have hafter : ¬ startOfLine text (line + 1) ≤ endOfLine text line := by
    intro hle
    have := (lineNumber_eq_iff hline (Nat.le_of_lt hlt)).mpr ⟨hle, by omega⟩
    omega
  omega

theorem endOfLine_lt_startOfLine (hlt : line < other) (hother : other < numLines text) :
    endOfLine text line < startOfLine text other := by
  induction hlt with
  | refl =>
    rw [startOfLine_succ hother]
    exact Nat.lt_succ_self _
  | @step middle _ ih =>
    have hmiddle := ih (Nat.lt_of_succ_lt hother)
    have hwithin := startOfLine_le_endOfLine text middle
    rw [startOfLine_succ hother]
    omega

theorem isGreatest_lineNumber (text : Text) (pos : Nat) :
    IsGreatest {line | line < numLines text ∧ startOfLine text line ≤ pos}
      (lineNumber text pos) := by
  have hnumber := lineNumber_lt_numLines text pos
  rcases Nat.lt_or_ge text.length pos with hbehind | hpos
  · have hlength := (boundary_startOfLine text (lineNumber text pos)).le_length
    refine ⟨⟨hnumber, by omega⟩, ?_⟩
    rintro line ⟨hline, -⟩
    rw [lineNumber_of_length_le (Nat.le_of_lt hbehind)]
    omega
  · refine ⟨⟨hnumber, startOfLine_lineNumber_le hpos⟩, ?_⟩
    rintro line ⟨hline, hstart⟩
    apply Nat.le_of_not_lt
    intro hlt
    have hnext := endOfLine_lt_startOfLine hlt hline
    have hend := le_endOfLine_lineNumber hpos
    omega

/-! ## All of it together -/

/-- **Lines split a text without loss.** No line holds a line feed, and joined by line feeds the
lines are the text again. The line of an offset is the number of line feeds before it, the one line
that surrounds it and the last one that starts no later; behind the text it is the last line. -/
theorem lines_split_text (text : Text) :
    (∀ line < numLines text, Byte.lineFeed ∉ lineBytes text line) ∧
    [Byte.lineFeed].intercalate ((List.range (numLines text)).map (lineBytes text)) = text ∧
    (∀ pos ≤ text.length,
      lineNumber text pos = Nat.count (fun i => text[i]? = some Byte.lineFeed) pos ∧
      {line | line < numLines text ∧ startOfLine text line ≤ pos ∧ pos ≤ endOfLine text line} =
        {lineNumber text pos} ∧
      IsGreatest {line | line < numLines text ∧ startOfLine text line ≤ pos}
        (lineNumber text pos)) ∧
    ∀ pos, text.length < pos → lineNumber text pos = numLines text - 1 := by
  refine ⟨fun line _ => lineFeed_notMem_lineBytes text line, intercalate_lines text, ?_,
    fun pos hpos => lineNumber_of_length_le (Nat.le_of_lt hpos)⟩
  intro pos hpos
  refine ⟨lineNumber_eq_count text pos, ?_, isGreatest_lineNumber text pos⟩
  ext line
  constructor
  · rintro ⟨hline, hsurrounds⟩
    exact ((lineNumber_eq_iff hline hpos).mpr hsurrounds).symm
  · rintro rfl
    have hline := lineNumber_lt_numLines text pos
    exact ⟨hline, (lineNumber_eq_iff hline hpos).mp rfl⟩

/-- A line feed belongs to the line that it ends; the last one opens an empty line. -/
example :
    let text : Text := [0x61, 0x0A, 0x0A, 0x62, 0x0A]
    (List.range (numLines text)).map (lineBytes text) = [[0x61], [], [0x62], []] ∧
      (List.range 7).map (lineNumber text) = [0, 0, 1, 2, 2, 3, 3] := by
  decide

end CodePane.Text

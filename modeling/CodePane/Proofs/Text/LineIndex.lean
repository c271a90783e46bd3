import CodePane.Proofs.Halving
import CodePane.Proofs.Text.Split
import CodePane.Text.LineIndex

/-!
# Lines by their index

1. `starts_cons`, `length_starts`, `getElem?_starts`: the index holds the start of each line.
2. `splitsAt_starts`: the starts that do not come after an offset.
3. `indexed_lines`: what is looked up in the index is what a scan of the text finds.
-/

namespace CodePane.Text

variable {text : Text} {pos line : Nat}

theorem starts_cons (b : UInt8) (rest : Text) :
    starts (b :: rest) = 0 :: (if b = Byte.lineFeed then starts rest else (starts rest).tail).map
      (· + 1) := by
  unfold starts
  have hplaces : rest.zipIdx 1 = rest.zipIdx.map fun x => (x.1, 1 + x.2) :=
    List.zipIdx_eq_map_add
  rw [List.zipIdx_cons, Nat.zero_add, hplaces, List.tail_cons]
  by_cases hb : b = Byte.lineFeed
  · rw [if_pos hb, List.filter_cons_of_pos (by simpa using hb), List.map_cons, List.map_cons,
      List.filter_map, List.map_map, List.map_map]
    congr 2
    exact List.map_congr_left fun x _ => congrArg (· + 1) (Nat.add_comm 1 x.2)
  · rw [if_neg hb, List.filter_cons_of_neg (by simpa using hb), List.filter_map, List.map_map,
      List.map_map]
    congr 1
    exact List.map_congr_left fun x _ => congrArg (· + 1) (Nat.add_comm 1 x.2)

theorem length_starts (text : Text) : (starts text).length = numLines text := by
  induction text with
  | nil => rfl
  | cons b rest ih =>
    have hpos : 0 < (starts rest).length := Nat.zero_lt_succ _
    rw [starts_cons, numLines_cons, List.length_cons, List.length_map]
    by_cases hb : b = Byte.lineFeed
    · rw [if_pos hb, if_pos hb, ih]
    · rw [if_neg hb, if_neg hb, List.length_tail, ← ih]
      omega

/-- **The index holds each start at the number of its line.** -/
theorem getElem?_starts (hline : line < numLines text) :
    (starts text)[line]? = some (startOfLine text line) := by
  induction text generalizing line with
  | nil =>
    have hline : line = 0 := by simpa [numLines] using hline
    rw [hline]
    rfl
  | cons b rest ih =>
    rw [numLines_cons] at hline
    rw [starts_cons]
    cases line with
    | zero => rw [List.getElem?_cons_zero, startOfLine_zero]
    | succ line =>
      rw [List.getElem?_cons_succ, List.getElem?_map]
      by_cases hb : b = Byte.lineFeed
      · subst hb
        rw [if_pos rfl] at hline ⊢
        rw [ih (by omega), Option.map_some, startOfLine_cons_feed]
      · rw [if_neg hb] at hline ⊢
        rw [List.getElem?_tail, ih hline, Option.map_some, startOfLine_cons hb hline]

/-- The starts up to an offset are those of its line and of the lines before. -/
theorem splitsAt_starts (hpos : pos ≤ text.length) :
    SplitsAt (· ≤ pos) (starts text) (lineNumber text pos + 1) where
  le := by
    rw [length_starts]
    exact lineNumber_lt_numLines text pos
  passed x hx := by
    obtain ⟨line, hline⟩ := List.mem_iff_getElem?.mp hx
    have hlt := (List.getElem?_eq_some_iff.mp hline).1
    rw [List.length_take, length_starts] at hlt
    rw [List.getElem?_take_of_lt (by omega), getElem?_starts (by omega)] at hline
    obtain rfl := Option.some.inj hline
    have hstart := startOfLine_lineNumber_le hpos
    rcases Nat.lt_or_eq_of_le (by omega : line ≤ lineNumber text pos) with hbefore | rfl
    · have hends := endOfLine_lt_startOfLine hbefore (lineNumber_lt_numLines text pos)
      have hwithin := startOfLine_le_endOfLine text line
      exact decide_eq_true (by omega)
    · exact decide_eq_true hstart
  failed x hx := by
    obtain ⟨n, hn⟩ := List.mem_iff_getElem?.mp hx
    have hlt := (List.getElem?_eq_some_iff.mp hn).1
    rw [List.length_drop, length_starts] at hlt
    rw [List.getElem?_drop, getElem?_starts (by omega)] at hn
    obtain rfl := Option.some.inj hn
    have hends : endOfLine text (lineNumber text pos) <
        startOfLine text (lineNumber text pos + 1 + n) :=
      endOfLine_lt_startOfLine (by omega) (by omega)
    have hwithin := le_endOfLine_lineNumber hpos
    rw [decide_eq_true_eq]
    omega

/-! ## Numbers past the last line -/

theorem startOfLineFrom_zero (start pos : Nat) (text : Text) :
    startOfLineFrom start pos 0 text = start := by
  cases text <;> rfl

theorem startOfLineFrom_min (start pos line : Nat) (text : Text) :
    startOfLineFrom start pos (min line (text.count Byte.lineFeed)) text =
      startOfLineFrom start pos line text := by
  induction text generalizing start pos line with
  | nil => cases line <;> rfl
  | cons b rest ih =>
    cases line with
    | zero => rw [Nat.zero_min]
    | succ line =>
      by_cases hb : b = Byte.lineFeed
      · subst hb
        rw [List.count_cons_self, Nat.add_min_add_right, startOfLineFrom, startOfLineFrom,
          if_pos rfl, if_pos rfl, ih]
      · rw [List.count_cons_of_ne hb]
        have hrest := ih start (pos + 1) (line + 1)
        cases hmin : min (line + 1) (rest.count Byte.lineFeed) with
        | zero =>
          rw [hmin] at hrest
          rw [startOfLineFrom_zero] at hrest ⊢
          rw [startOfLineFrom, if_neg hb]
          exact hrest
        | succ line' =>
          rw [hmin] at hrest
          rw [startOfLineFrom, startOfLineFrom, if_neg hb, if_neg hb, hrest]

theorem startOfLine_min (text : Text) (line : Nat) :
    startOfLine text (min line (numLines text - 1)) = startOfLine text line :=
  startOfLineFrom_min 0 0 line text

theorem endOfLine_min (text : Text) (line : Nat) :
    endOfLine text (min line (numLines text - 1)) = endOfLine text line := by
  unfold endOfLine
  rw [startOfLine_min]

/-! ## Lookups -/

theorem lineNumber?_eq (text : Text) (pos : Nat) :
    lineNumber? text pos = some (lineNumber text pos) := by
  have hsplit := splitsAt_starts (Nat.min_le_right pos text.length)
  have hplace := partitionPoint?_eq hsplit fun _ _ => rfl
  have hnumber : lineNumber text (min pos text.length) = lineNumber text pos := by
    unfold lineNumber
    rw [← List.take_eq_take_min]
  rw [lineNumber?, hplace, Option.map_some, Nat.add_sub_cancel, hnumber]

theorem startOfLine?_eq (text : Text) (line : Nat) :
    startOfLine? text line = some (startOfLine text line) := by
  have hlines : 0 < numLines text := Nat.zero_lt_succ _
  rw [startOfLine?, length_starts, getElem?_starts (by omega), startOfLine_min]

/-- The start of the next line comes right after the line feed; behind the last line there is
none. -/
theorem indexedEnd_eq (text : Text) (line : Nat) : indexedEnd text line = endOfLine text line := by
  have hlines : 0 < numLines text := Nat.zero_lt_succ _
  rw [indexedEnd, length_starts, ← endOfLine_min]
  generalize hlast : min line (numLines text - 1) = last
  rcases Nat.lt_or_ge (last + 1) (numLines text) with hmore | hend
  · rw [getElem?_starts hmore, startOfLine_succ hmore]
    rfl
  · have hnone : (starts text)[last + 1]? = none :=
      List.getElem?_eq_none (by rwa [length_starts])
    have hline : lineNumber text text.length = last := by
      rw [lineNumber_of_length_le (Nat.le_refl _)]
      omega
    have hends := le_endOfLine_lineNumber (Nat.le_refl text.length)
    rw [hline] at hends
    rw [hnone]
    exact Nat.le_antisymm hends (boundary_endOfLine text last).le_length

/-- **The index agrees with the text.** The line of an offset, the start and the end of a line are
found in the index as a scan of the text finds them. -/
theorem indexed_lines (text : Text) :
    (∀ pos, lineNumber? text pos = some (lineNumber text pos)) ∧
      ∀ line, startOfLine? text line = some (startOfLine text line) ∧
        indexedEnd text line = endOfLine text line :=
  ⟨lineNumber?_eq text, fun line => ⟨startOfLine?_eq text line, indexedEnd_eq text line⟩⟩

end CodePane.Text

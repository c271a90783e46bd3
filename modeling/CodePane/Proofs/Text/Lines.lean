import CodePane.Proofs.Text.Boundary

/-!
# Lines by number

A line can be looked up by its number, and a text can be cut into the list of its lines. Both ways
give the same lines, and an offset is in the line whose start and end surround it.

1. `startOfLine_cons_feed`, `startOfLine_cons`, `endOfLine_cons_feed`, `endOfLine_cons`: what one
   more byte in front does to the starts and the ends.
2. `lineNumber_eq_iff`: the line of an offset, by starts and ends.
   `lineNumber_startOfLine`, `lineNumber_endOfLine`: a start and an end are in their line.
   `getElem?_endOfLine_iff`: what stands behind a line.
3. `getElem?_lines`: the list of lines, by starts and ends.
-/

namespace CodePane.Text

variable {text rest : Text} {b : UInt8} {pos line : Nat}

/-! ## Numbers of lines -/

theorem numLines_cons (b : UInt8) (rest : Text) :
    numLines (b :: rest) = numLines rest + if b = Byte.lineFeed then 1 else 0 := by
  unfold numLines
  rw [List.count_cons]
  simp only [beq_iff_eq]
  omega

theorem lineNumber_zero (text : Text) : lineNumber text 0 = 0 := rfl

theorem lineNumber_cons_succ (b : UInt8) (rest : Text) (pos : Nat) :
    lineNumber (b :: rest) (pos + 1) =
      lineNumber rest pos + if b = Byte.lineFeed then 1 else 0 := by
  unfold lineNumber
  rw [List.take_succ_cons, List.count_cons]
  simp only [beq_iff_eq]

theorem lineNumber_succ (text : Text) (pos : Nat) :
    lineNumber text (pos + 1) =
      lineNumber text pos + if text[pos]? = some Byte.lineFeed then 1 else 0 := by
  unfold lineNumber
  rw [List.take_add_one, List.count_append]
  cases text[pos]? with
  | none => rfl
  | some b =>
    rw [Option.toList_some, List.count_singleton]
    simp only [Option.some.injEq, beq_iff_eq]

theorem lineNumber_lt_numLines (text : Text) (pos : Nat) : lineNumber text pos < numLines text :=
  Nat.lt_succ_of_le ((List.take_sublist pos text).count_le Byte.lineFeed)

/-! ## Starts -/

theorem startOfLine_zero (text : Text) : startOfLine text 0 = 0 := by
  unfold startOfLine startOfLineFrom
  rfl

theorem startOfLineFrom_add (start pos line n : Nat) (text : Text) :
    startOfLineFrom (start + n) (pos + n) line text = startOfLineFrom start pos line text + n := by
  induction text generalizing start pos line with
  | nil => cases line <;> rfl
  | cons b rest ih =>
    cases line with
    | zero => rfl
    | succ line =>
      unfold startOfLineFrom
      rw [Nat.add_right_comm pos n 1]
      by_cases hb : b = Byte.lineFeed
      · rw [if_pos hb, if_pos hb]
        exact ih (pos + 1) (pos + 1) line
      · rw [if_neg hb, if_neg hb]
        exact ih start (pos + 1) (line + 1)

theorem startOfLineFrom_of_lt (start start' pos : Nat) (hline : line + 1 < numLines text) :
    startOfLineFrom start pos (line + 1) text = startOfLineFrom start' pos (line + 1) text := by
  induction text generalizing pos line with
  | nil => exact absurd hline (by simp [numLines])
  | cons b rest ih =>
    rw [numLines_cons] at hline
    unfold startOfLineFrom
    by_cases hb : b = Byte.lineFeed
    · rw [if_pos hb, if_pos hb]
    · rw [if_neg hb] at hline
      rw [if_neg hb, if_neg hb]
      exact ih (pos + 1) hline

theorem startOfLine_cons_feed (rest : Text) (line : Nat) :
    startOfLine (Byte.lineFeed :: rest) (line + 1) = startOfLine rest line + 1 := by
  unfold startOfLine
  rw [startOfLineFrom, if_pos rfl]
  exact startOfLineFrom_add 0 0 line 1 rest

theorem startOfLine_cons (hb : b ≠ Byte.lineFeed) (hline : line + 1 < numLines rest) :
    startOfLine (b :: rest) (line + 1) = startOfLine rest (line + 1) + 1 := by
  unfold startOfLine
  rw [startOfLineFrom, if_neg hb, startOfLineFrom_of_lt 0 1 _ hline]
  exact startOfLineFrom_add 0 0 (line + 1) 1 rest

/-! ## Ends -/

theorem startOfLine_le_endOfLine (text : Text) (line : Nat) :
    startOfLine text line ≤ endOfLine text line :=
  Nat.le_add_right _ _

theorem endOfLine_nil (line : Nat) : endOfLine [] line = 0 := by
  cases line <;> rfl

theorem endOfLine_cons_feed_zero (rest : Text) : endOfLine (Byte.lineFeed :: rest) 0 = 0 := by
  unfold endOfLine
  simp only [startOfLine_zero, List.drop_zero]
  rw [countWhile_cons_of_neg (by decide)]

theorem endOfLine_cons_feed (rest : Text) (line : Nat) :
    endOfLine (Byte.lineFeed :: rest) (line + 1) = endOfLine rest line + 1 := by
  unfold endOfLine
  simp only [startOfLine_cons_feed, List.drop_succ_cons]
  omega

theorem endOfLine_cons (hb : b ≠ Byte.lineFeed) (hline : line < numLines rest) :
    endOfLine (b :: rest) line = endOfLine rest line + 1 := by
  unfold endOfLine
  cases line with
  | zero =>
    simp only [startOfLine_zero, List.drop_zero]
    rw [countWhile_cons_of_pos (by simpa using hb)]
    omega
  | succ line =>
    simp only [startOfLine_cons hb hline, List.drop_succ_cons]
    omega

theorem eq_lineFeed_of_endOfLine (h : text[endOfLine text line]? = some b) :
    b = Byte.lineFeed := by
  unfold endOfLine at h
  rw [← List.getElem?_drop] at h
  simpa using countWhile_stops h

/-! ## The line of an offset -/

/-- **An offset is in the line whose start and end surround it.** -/
theorem lineNumber_eq_iff (hline : line < numLines text) (hpos : pos ≤ text.length) :
    lineNumber text pos = line ↔ startOfLine text line ≤ pos ∧ pos ≤ endOfLine text line := by
  induction text generalizing pos line with
  | nil =>
    have hline : line = 0 := by simpa [numLines] using hline
    have hpos : pos = 0 := Nat.le_zero.mp hpos
    rw [hline, hpos, endOfLine_nil, startOfLine_zero, lineNumber_zero]
    exact ⟨fun _ => ⟨Nat.le_refl 0, Nat.le_refl 0⟩, fun _ => rfl⟩
  | cons b rest ih =>
    rw [numLines_cons] at hline
    rw [List.length_cons] at hpos
    by_cases hb : b = Byte.lineFeed
    · subst hb
      rw [if_pos rfl] at hline
      cases line with
      | zero =>
        rw [startOfLine_zero, endOfLine_cons_feed_zero]
        cases pos with
        | zero => exact ⟨fun _ => ⟨Nat.le_refl 0, Nat.le_refl 0⟩, fun _ => rfl⟩
        | succ pos =>
          rw [lineNumber_cons_succ, if_pos rfl]
          omega
      | succ line =>
        rw [startOfLine_cons_feed, endOfLine_cons_feed]
        cases pos with
        | zero =>
          rw [lineNumber_zero]
          omega
        | succ pos =>
          have hrest : lineNumber rest pos = line ↔ _ := ih (by omega) (by omega)
          rw [lineNumber_cons_succ, if_pos rfl]
          omega
    · rw [if_neg hb] at hline
      cases pos with
      | zero =>
        rw [lineNumber_zero]
        cases line with
        | zero =>
          rw [startOfLine_zero]
          omega
        | succ line =>
          rw [startOfLine_cons hb hline]
          omega
      | succ pos =>
        rw [lineNumber_cons_succ, if_neg hb, endOfLine_cons hb hline, Nat.add_zero,
          ih hline (by omega)]
        cases line with
        | zero =>
          rw [startOfLine_zero, startOfLine_zero]
          omega
        | succ line =>
          rw [startOfLine_cons hb hline]
          omega

theorem startOfLine_lineNumber_le (hpos : pos ≤ text.length) :
    startOfLine text (lineNumber text pos) ≤ pos :=
  ((lineNumber_eq_iff (lineNumber_lt_numLines text pos) hpos).mp rfl).1

theorem le_endOfLine_lineNumber (hpos : pos ≤ text.length) :
    pos ≤ endOfLine text (lineNumber text pos) :=
  ((lineNumber_eq_iff (lineNumber_lt_numLines text pos) hpos).mp rfl).2

theorem lineNumber_startOfLine (hline : line < numLines text) :
    lineNumber text (startOfLine text line) = line :=
  (lineNumber_eq_iff hline (boundary_startOfLine text line).le_length).mpr
    ⟨Nat.le_refl _, startOfLine_le_endOfLine text line⟩

theorem lineNumber_endOfLine (hline : line < numLines text) :
    lineNumber text (endOfLine text line) = line :=
  (lineNumber_eq_iff hline (boundary_endOfLine text line).le_length).mpr
    ⟨startOfLine_le_endOfLine text line, Nat.le_refl _⟩

/-- A line is ended by a line feed unless it is the last one. -/
theorem getElem?_endOfLine_iff (hline : line < numLines text) :
    text[endOfLine text line]? = some Byte.lineFeed ↔ line + 1 < numLines text := by
  have hnumber := lineNumber_endOfLine hline
  constructor
  · intro hfeed
    have hnext : lineNumber text (endOfLine text line + 1) = line + 1 := by
      rw [lineNumber_succ, if_pos hfeed, hnumber]
    rw [← hnext]
    exact lineNumber_lt_numLines text _
  · intro hmore
    cases hbyte : text[endOfLine text line]? with
    | some b => rw [eq_lineFeed_of_endOfLine hbyte]
    | none =>
      -- the line goes on to the end of the text, so all line feeds are before it
      rw [lineNumber, List.take_of_length_le (List.getElem?_eq_none_iff.mp hbyte)] at hnumber
      unfold numLines at hmore
      omega

/-! ## The list of lines -/

/-- The bytes of a line, without its line feed. -/
def lineBytes (text : Text) (line : Nat) : Text :=
  between text (startOfLine text line) (endOfLine text line)

theorem between_cons_succ (b : UInt8) (rest : Text) (start stop : Nat) :
    between (b :: rest) (start + 1) (stop + 1) = between rest start stop := by
  unfold between
  rw [List.drop_succ_cons, List.length_cons, Nat.add_min_add_right, Nat.add_sub_add_right]

theorem between_cons_zero (b : UInt8) (rest : Text) (stop : Nat) :
    between (b :: rest) 0 (stop + 1) = b :: between rest 0 stop := by
  unfold between
  rw [List.drop_zero, List.length_cons, Nat.add_min_add_right, Nat.sub_zero, List.take_succ_cons,
    List.drop_zero, Nat.sub_zero]

theorem between_zero (text : Text) : between text 0 0 = [] := by
  unfold between
  rw [Nat.zero_min, Nat.sub_zero, List.take_zero]

/-- **The list of lines holds each line at its number.** -/
theorem getElem?_lines (hline : line < numLines text) :
    (lines text)[line]? = some (lineBytes text line) := by
  unfold lineBytes
  induction text generalizing line with
  | nil =>
    have hline : line = 0 := by simpa [numLines] using hline
    rw [hline]
    rfl
  | cons b rest ih =>
    rw [numLines_cons] at hline
    rw [lines_cons]
    by_cases hb : b = Byte.lineFeed
    · subst hb
      rw [if_pos rfl] at hline ⊢
      cases line with
      | zero =>
        rw [startOfLine_zero, endOfLine_cons_feed_zero, between_zero, List.getElem?_cons_zero]
      | succ line =>
        rw [startOfLine_cons_feed, endOfLine_cons_feed, between_cons_succ, List.getElem?_cons_succ]
        exact ih (by omega)
    · rw [if_neg hb] at hline ⊢
      have hrest := ih hline
      obtain ⟨first, others, hlines⟩ := List.exists_cons_of_ne_nil (lines_ne_nil rest)
      rw [hlines] at hrest ⊢
      cases line with
      | zero =>
        rw [startOfLine_zero, List.getElem?_cons_zero] at hrest
        rw [startOfLine_zero, endOfLine_cons hb hline, between_cons_zero, ← Option.some.inj hrest,
          List.getElem?_cons_zero]
      | succ line =>
        rw [List.getElem?_cons_succ] at hrest
        rw [startOfLine_cons hb hline, endOfLine_cons hb hline, between_cons_succ,
          List.getElem?_cons_succ, hrest]

end CodePane.Text

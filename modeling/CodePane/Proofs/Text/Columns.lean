import CodePane.Proofs.Text.Boundary
import CodePane.Proofs.Text.Lines
import CodePane.Text.Width

/-!
# Columns of a line

The cells between two offsets are counted codepoint by codepoint. At boundaries the counts add up,
and a line has as many cells when it stands alone as it has inside its text, because no codepoint
reaches over a line feed.

1. `codepoints_of_lt`, `columns_of_lt`: the first codepoint of a range.
2. `Closes`, `decodeLead_append`: a codepoint in front of what no longer belongs to it.
3. `columns_add`, `columns_mono`: adjacent ranges.
4. `columns_lineBytes`: a line alone.
-/

namespace CodePane.Text

variable {text : Text} {pos start middle stop : Nat} {c : Codepoint}

/-! ## The first codepoint -/

theorem codepoints_of_le (text : Text) (h : stop ≤ pos) : codepoints text pos stop = [] := by
  unfold codepoints
  cases text.drop pos with
  | nil => rw [codepointsFrom]
  | cons lead rest => rw [codepointsFrom, if_neg (by omega)]

theorem codepoints_of_lt (hc : codepointAt text pos = some c) (h : pos < stop) :
    codepoints text pos stop = (pos, c) :: codepoints text (pos + c.size) stop := by
  obtain ⟨lead, rest, hdrop, rfl⟩ := drop_of_codepointAt hc
  have hsize := decodeLead_size_pos lead rest
  have hrest : rest.drop ((decodeLead lead rest).size - 1) =
      text.drop (pos + (decodeLead lead rest).size) := by
    obtain ⟨k, hk⟩ := Nat.exists_eq_add_one.mpr hsize
    rw [← List.drop_drop, hdrop, hk, List.drop_succ_cons, Nat.add_sub_cancel]
  unfold codepoints
  rw [hdrop, codepointsFrom, if_pos h]
  simp only [hrest]

/-! ## A codepoint in front of others -/

/-- No continuation byte begins `tail`, so no codepoint before it takes a byte of it. -/
def Closes (tail : Text) : Prop := ∀ b, tail.head? = some b → b < 0x80

theorem matched_append {low high : UInt8} (hlow : 0x80 ≤ low) {tail : Text} (h : Closes tail)
    (owed : Nat) (rest : Text) :
    matched low high owed (rest ++ tail) = matched low high owed rest := by
  induction owed generalizing low high rest with
  | zero =>
    cases rest ++ tail <;> cases rest <;> rfl
  | succ owed ih =>
    cases rest with
    | nil =>
      cases tail with
      | nil => rfl
      | cons b tail =>
        have hb : ¬ (low ≤ b ∧ b ≤ high) := fun hb =>
          UInt8.not_lt.mpr (UInt8.le_trans hlow hb.1) (h b rfl)
        rw [List.nil_append, matched, if_neg hb]
        rfl
    | cons b rest =>
      rw [List.cons_append, matched, matched, ih (UInt8.le_refl _)]

theorem decodeLead_append {tail : Text} (h : Closes tail) (lead : UInt8) (rest : Text) :
    decodeLead lead (rest ++ tail) = decodeLead lead rest := by
  unfold decodeLead
  split
  · rfl
  · next a ha =>
    rw [matched_append (announced_range ha).1 h]
    by_cases hall : matched a.low a.high a.owed rest = a.owed
    · have hlength := matched_le_length a.low a.high a.owed rest
      rw [if_pos hall, if_pos hall, List.take_append_of_le_length (by omega)]
    · rw [if_neg hall, if_neg hall]

variable [CharWidths]

theorem columns_eq (text : Text) (start stop : Nat) :
    columns text start stop =
      (codepoints text start stop).foldr (fun (_, c) cells => charCells c.char + cells) 0 :=
  rfl

theorem columns_of_le (text : Text) (h : stop ≤ pos) : columns text pos stop = 0 := by
  rw [columns_eq, codepoints_of_le text h]
  rfl

theorem columns_of_lt (hc : codepointAt text pos = some c) (h : pos < stop) :
    columns text pos stop = charCells c.char + columns text (pos + c.size) stop := by
  rw [columns_eq, codepoints_of_lt hc h, List.foldr_cons, columns_eq]

/-! ## Adjacent ranges -/

/-- **At a boundary a range falls into two whose cells add up.** The induction steps over the
codepoints of the first one. -/
theorem columns_add (hstart : Boundary text start) (hmiddle : Boundary text middle)
    (hle : start ≤ middle) (hstop : middle ≤ stop) :
    columns text start stop = columns text start middle + columns text middle stop := by
  induction hn : middle - start using Nat.strongRecOn generalizing start with
  | ind n ih =>
    rcases Nat.eq_or_lt_of_le hle with rfl | hlt
    · rw [columns_of_le text (Nat.le_refl start), Nat.zero_add]
    · have hlength := hmiddle.le_length
      obtain ⟨c, hc⟩ := codepointAt_of_lt (Nat.lt_of_lt_of_le hlt hlength)
      have hsize := codepointAt_size_pos hc
      have hnext := hmiddle.codepoint_le hstart hc hlt
      have hrest := ih (middle - (start + c.size)) (by omega) (.step hstart hc) hnext rfl
      rw [columns_of_lt hc (Nat.lt_of_lt_of_le hlt hstop), columns_of_lt hc hlt, hrest,
        Nat.add_assoc]

theorem columns_step (hstart : Boundary text start) (hmiddle : Boundary text middle)
    (hle : start ≤ middle) (hc : codepointAt text middle = some c) :
    columns text start (middle + c.size) = columns text start middle + charCells c.char := by
  have hsize := codepointAt_size_pos hc
  rw [columns_add hstart hmiddle hle (Nat.le_add_right _ _), columns_of_lt hc (by omega),
    columns_of_le text (Nat.le_refl _), Nat.add_zero]

theorem columns_mono (hstart : Boundary text start) (hmiddle : Boundary text middle)
    (hle : start ≤ middle) (hstop : middle ≤ stop) :
    columns text start middle ≤ columns text start stop := by
  rw [columns_add hstart hmiddle hle hstop]
  exact Nat.le_add_right _ _

/-- The cells up to a boundary and those of the codepoint there fit into what reaches beyond it. -/
theorem columns_add_charCells_le (hstart : Boundary text start) (hmiddle : Boundary text middle)
    (hle : start ≤ middle) (hlt : middle < stop) (hc : codepointAt text middle = some c) :
    columns text start middle + charCells c.char ≤ columns text start stop := by
  rw [columns_add hstart hmiddle hle (Nat.le_of_lt hlt), columns_of_lt hc hlt]
  omega

/-! ## A line alone -/

theorem columnsFrom_append {tail : Text} (h : Closes tail) (body : Text) (pos : Nat) :
    columnsFrom (pos + body.length) pos (body ++ tail) =
      columnsFrom (pos + body.length) pos body := by
  unfold columnsFrom
  induction hn : body.length using Nat.strongRecOn generalizing body pos with
  | ind n ih =>
    subst hn
    cases body with
    | nil =>
      rw [List.nil_append, List.length_nil, Nat.add_zero, codepointsFrom]
      cases tail with
      | nil => rw [codepointsFrom]
      | cons b tail => rw [codepointsFrom, if_neg (Nat.lt_irrefl pos)]
    | cons lead rest =>
      have hpos := decodeLead_size_pos lead rest
      have hle := decodeLead_size_le lead rest
      have hlt : pos < pos + (lead :: rest).length := by
        rw [List.length_cons]
        omega
      rw [List.cons_append, codepointsFrom, codepointsFrom, if_pos hlt, if_pos hlt]
      simp only [decodeLead_append h]
      generalize decodeLead lead rest = c at hpos hle
      have hstop : pos + (lead :: rest).length =
          pos + c.size + (rest.drop (c.size - 1)).length := by
        rw [List.length_cons, List.length_drop]
        omega
      rw [List.drop_append_of_le_length (by omega), hstop, List.foldr_cons, List.foldr_cons]
      congr 1
      exact ih _ (by rw [List.length_drop, List.length_cons]; omega) _ _ rfl

/-- The cells of a range do not depend on where it stands. -/
theorem columnsFrom_add (n stop pos : Nat) (text : Text) :
    columnsFrom (stop + n) (pos + n) text = columnsFrom stop pos text := by
  unfold columnsFrom
  induction pos, text using codepointsFrom.induct stop with
  | case1 pos => rw [codepointsFrom, codepointsFrom]
  | case2 pos lead rest hlt c ih =>
    rw [codepointsFrom, codepointsFrom, if_pos hlt, if_pos (Nat.add_lt_add_right hlt n)]
    simp only [List.foldr_cons]
    rw [Nat.add_right_comm pos n]
    exact congrArg _ ih
  | case3 pos lead rest hge =>
    rw [codepointsFrom, codepointsFrom, if_neg hge, if_neg (by omega)]

/-- **A line has as many cells alone as inside its text.** -/
theorem columns_lineBytes (text : Text) (line : Nat) :
    columns (lineBytes text line) 0 (lineBytes text line).length =
      columns text (startOfLine text line) (endOfLine text line) := by
  have hle := startOfLine_le_endOfLine text line
  have hlength := (boundary_endOfLine text line).le_length
  have hbytes : lineBytes text line =
      (text.drop (startOfLine text line)).take (endOfLine text line - startOfLine text line) := by
    unfold lineBytes between
    rw [Nat.min_eq_left hlength]
  have hcount : (lineBytes text line).length = endOfLine text line - startOfLine text line := by
    rw [lineBytes, length_between, Nat.min_eq_left hlength]
  have hsplit : text.drop (startOfLine text line) =
      lineBytes text line ++ text.drop (endOfLine text line) := by
    rw [hbytes, show endOfLine text line =
      startOfLine text line + (endOfLine text line - startOfLine text line) by omega,
      ← List.drop_drop, Nat.add_sub_cancel_left, List.take_append_drop]
  have hcloses : Closes (text.drop (endOfLine text line)) := by
    intro b hb
    rw [List.head?_drop] at hb
    rw [eq_lineFeed_of_endOfLine hb]
    decide
  have hstop : startOfLine text line + (lineBytes text line).length = endOfLine text line := by
    omega
  calc columns (lineBytes text line) 0 (lineBytes text line).length
      = columnsFrom (lineBytes text line).length 0 (lineBytes text line) := rfl
    _ = columnsFrom (startOfLine text line + (lineBytes text line).length)
          (startOfLine text line) (lineBytes text line) := by
        rw [← columnsFrom_add (startOfLine text line), Nat.zero_add, Nat.add_comm]
    _ = columnsFrom (startOfLine text line + (lineBytes text line).length)
          (startOfLine text line)
          (lineBytes text line ++ text.drop (endOfLine text line)) :=
        (columnsFrom_append hcloses _ _).symm
    _ = columns text (startOfLine text line) (endOfLine text line) := by
        rw [hstop, ← hsplit]
        rfl

end CodePane.Text

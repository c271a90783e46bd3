import CodePane.Proofs.Drawing
import CodePane.Proofs.Grid.Rows
import CodePane.Text.WidthTable
import CodePane.View.Operation

/-!
# Which rows are drawn

A drawing goes through the lines that fit into the window and one more. That is enough: the row of
any line further down begins below the window, so the lines of a drawing are all those whose rows
meet the area that is drawn.

1. `Scene.mem_lines_iff`, `Scene.lines_increasing`: the lines of a drawing.
2. `Grid.digitCount_mono`, `Grid.le_gutterPixels`: the gutter has room for the numbers of all lines.
3. `View.rows_of_drawing`: the lines of a drawing, with their labels.
-/

namespace CodePane

/-! ## Lines -/

namespace Scene

theorem le_of_overlaps {s : Scene} {clip : Rect} {line : Nat}
    (hbottom : clip.bottom ≤ s.height)
    (h : (s.grid.rowArea s.scroll s.width line).overlaps clip = true) :
    line ≤ s.scroll.topLine + s.grid.rowsIn s.height := by
  refine Nat.le_of_not_lt fun hbelow => ?_
  have hend := s.grid.lt_rowsIn_succ_mul s.height
  have hle := Int.mul_le_mul_of_nonneg_right
    (show (s.grid.rowsIn s.height + 1 : Int) ≤ line - s.scroll.topLine by omega)
    s.grid.rowPixels_nonneg
  unfold Rect.overlaps Grid.rowArea at h
  simp only [Bool.and_eq_true, decide_eq_true_eq] at h
  omega

/-- The rows of the lines that are gone through stand in the range of pixels. -/
theorem rowTop_of_mem_shownLines {s : Scene} {line : Nat}
    (hheight : s.height ≤ Pixel.greatest) (h : line ∈ s.shownLines) :
    s.grid.rowTop (line - s.scroll.topLine) = (s.grid.rowArea s.scroll s.width line).y := by
  obtain ⟨htop, -, hlast⟩ := mem_shownLines_iff.mp h
  have hcount : ((line - s.scroll.topLine : Nat) : Int) = line - s.scroll.topLine := by omega
  rw [Grid.rowTop_of_le_rowsIn hheight (by omega), hcount]
  rfl

variable [CharWidths] {s : Scene} {clip : Rect} {line : Nat} {row : DrawnRow}

theorem isSome_row?_iff : (s.row? clip line).isSome = true ↔
    Rect.overlaps ⟨0, s.grid.rowTop (line - s.scroll.topLine), s.width, s.grid.rowPixels⟩ clip =
      true := by
  unfold row?
  simp only
  split
  · next hmeets => exact iff_of_true rfl hmeets
  · next hmeets => exact iff_of_false Bool.false_ne_true hmeets

theorem gutter_of_row?_eq_some (h : s.row? clip line = some row)
    (hgutter : 0 < s.grid.gutterPixels (Text.numLines s.text)) :
    row.label = some (line + 1) ∧
      row.gutter =
        some ⟨0, row.y, s.grid.gutterPixels (Text.numLines s.text), s.grid.rowPixels⟩ := by
  unfold row? at h
  simp only [if_pos hgutter] at h
  split at h
  · obtain rfl := Option.some.inj h
    exact ⟨rfl, rfl⟩
  · cases h

/-- **No visible row is missed or invented.** -/
theorem mem_lines_iff (hheight : s.height ≤ Pixel.greatest) (hbottom : clip.bottom ≤ s.height) :
    line ∈ (s.draw clip).rows.map (·.line) ↔
      s.scroll.topLine ≤ line ∧ line < Text.numLines s.text ∧
        (s.grid.rowArea s.scroll s.width line).overlaps clip = true := by
  have hdrawn (hshown : line ∈ s.shownLines) : (s.row? clip line).isSome = true ↔
      (s.grid.rowArea s.scroll s.width line).overlaps clip = true := by
    rw [isSome_row?_iff, rowTop_of_mem_shownLines hheight hshown]
    rfl
  constructor
  · intro h
    obtain ⟨row, hrow, rfl⟩ := List.mem_map.mp h
    obtain ⟨line, hshown, hsome⟩ := List.mem_filterMap.mp hrow
    obtain ⟨rfl, -, -⟩ := row?_eq_some hsome
    have hlines := mem_shownLines hshown
    exact ⟨hlines.1, hlines.2, (hdrawn hshown).mp (Option.isSome_of_eq_some hsome)⟩
  · rintro ⟨htop, hline, hmeets⟩
    have hshown : line ∈ s.shownLines :=
      mem_shownLines_iff.mpr ⟨htop, hline, le_of_overlaps hbottom hmeets⟩
    obtain ⟨row, hsome⟩ := Option.isSome_iff_exists.mp ((hdrawn hshown).mpr hmeets)
    obtain ⟨rfl, -, -⟩ := row?_eq_some hsome
    exact List.mem_map_of_mem (List.mem_filterMap.mpr ⟨_, hshown, hsome⟩)

theorem lines_increasing (s : Scene) (clip : Rect) :
    ((s.draw clip).rows.map (·.line)).Pairwise (· < ·) := by
  refine List.pairwise_map.mpr (List.pairwise_filterMap.mpr ?_)
  refine (List.pairwise_lt_range' 1).imp fun {a b} hlt row hrow row' hrow' => ?_
  rw [(row?_eq_some hrow).1, (row?_eq_some hrow').1]
  exact hlt

end Scene

/-! ## The gutter -/

namespace Grid

theorem digitCount_mono {m n : Nat} (h : m ≤ n) : digitCount m ≤ digitCount n := by
  have hpos : 0 < digitCount n := Nat.length_toDigits_pos
  refine (Nat.length_toDigits_le_iff (by decide) hpos).mpr (Nat.lt_of_le_of_lt h ?_)
  exact (Nat.length_toDigits_le_iff (by decide) hpos).mp (Nat.le_refl _)

theorem le_gutterPixels {g : Grid} (henabled : g.gutter.enabled = true) {line numLines : Nat}
    (hline : line < numLines) :
    min ((digitCount (line + 1) + g.gutter.paddingCells.toNat : Nat) * g.columnPixels)
      Pixel.greatest ≤ g.gutterPixels numLines := by
  have hdigits : digitCount (line + 1) ≤ digitCount (max numLines 1) :=
    digitCount_mono (by omega)
  -- the greatest number of cells is more than there are pixels
  have hcells (cells : Nat) : g.widthOf (min cells (UInt32.size - 1)) = g.widthOf cells := by
    have hcount : Pixel.ofNat (min cells (UInt32.size - 1)) = Pixel.ofNat cells := by
      unfold Pixel.ofNat Pixel.greatest UInt32.size
      omega
    unfold widthOf
    rw [hcount]
  unfold gutterPixels
  rw [if_pos henabled, hcells, ← widthOf_eq_min]
  exact g.widthOf_mono (by omega)

theorem gutterPixels_pos {g : Grid} (henabled : g.gutter.enabled = true)
    (hcellWidth : 0 < g.cell.width) {line numLines : Nat} (hline : line < numLines) :
    0 < g.gutterPixels numLines := by
  have hroom := le_gutterPixels henabled hline
  have hdigit : 0 < digitCount (line + 1) := Nat.length_toDigits_pos
  have hcells := Int.mul_pos
    (show (0 : Int) < (digitCount (line + 1) + g.gutter.paddingCells.toNat : Nat) by omega)
    (columnPixels_pos hcellWidth)
  unfold Pixel.greatest at hroom
  omega

end Grid

/-! ## Views -/

namespace View

/-- **No visible row is missed or invented.** The lines of a drawing are, in increasing order, those
whose rows meet the area, down to the row that the bottom of the window cuts off. Behind a gutter,
which is there if cells have a width, each of them is labelled with its number in decimal digits,
counted from one, for which the gutter has room besides its padding. -/
theorem rows_of_drawing [CharWidths] {v : View} {clip : Rect}
    (hheight : v.window.height ≤ Pixel.greatest) (hbottom : clip.bottom ≤ v.window.height) :
    let rows := (v.draw clip).rows
    (rows.map (·.line)).Pairwise (· < ·) ∧
      (∀ line, line ∈ rows.map (·.line) ↔
        v.window.scroll.topLine ≤ line ∧ line < v.numLines ∧
          (v.grid.rowArea v.window.scroll v.window.width line).overlaps clip = true) ∧
      (v.grid.gutter.enabled = true → 0 < v.grid.cell.width → ∀ row ∈ rows,
        let digits := Nat.toDigits 10 (row.line + 1)
        row.label.map (fun number => (toString number).toList) = some digits ∧
          ∃ area, row.gutter = some area ∧
            min ((digits.length + v.grid.gutter.paddingCells.toNat : Nat) * v.grid.columnPixels)
              Pixel.greatest ≤ area.width) := by
  refine ⟨Scene.lines_increasing _ clip, fun line => Scene.mem_lines_iff hheight hbottom, ?_⟩
  intro henabled hcellWidth row hrow digits
  obtain ⟨line, hshown, hsome⟩ := List.mem_filterMap.mp hrow
  have hline : line < v.numLines := (Scene.mem_shownLines hshown).2
  have hshows := Grid.gutterPixels_pos henabled hcellWidth hline
  obtain ⟨hlabel, hgutter⟩ := Scene.gutter_of_row?_eq_some hsome hshows
  obtain ⟨rfl, -, -⟩ := Scene.row?_eq_some hsome
  refine ⟨?_, _, hgutter, Grid.le_gutterPixels henabled hline⟩
  rw [hlabel]
  exact congrArg some Nat.toList_repr

/-- The last three lines of a text in a window of two and a half rows. The area meets the second row
and the one that is cut off, whose numbers have two digits. -/
theorem rows_of_drawing_cutOff :
    let v := (ofSettings {}).run
      [.load (List.replicate 11 0x0A) .plain, .resize 100 40, .scrollToLine 8]
    let clip : Rect := ⟨0, 20, 50, 20⟩
    let rows := (v.draw clip).rows
    v.window.height ≤ Pixel.greatest ∧ clip.bottom ≤ v.window.height ∧
      v.window.scroll.topLine = 8 ∧ v.window.height = 40 ∧
      v.grid.rowArea v.window.scroll v.window.width 10 = ⟨0, 32, 100, 16⟩ ∧
      rows.map (·.line) = [9, 10] ∧ 10 ∈ rows.map (·.line) ∧ 11 ∉ rows.map (·.line) ∧
      ∀ row ∈ rows, row.label.map (fun number => (toString number).toList) =
        some (Nat.toDigits 10 (row.line + 1)) := by
  intro v clip rows
  have hheight : v.window.height ≤ Pixel.greatest := by decide
  have hbottom : clip.bottom ≤ v.window.height := by decide
  obtain ⟨-, hlines, hlabels⟩ := rows_of_drawing hheight hbottom
  refine ⟨hheight, hbottom, by decide +kernel, rfl, by decide +kernel, by decide +kernel,
    ?_, ?_, ?_⟩
  · exact (hlines 10).mpr (by decide +kernel)
  · exact fun h => absurd ((hlines 11).mp h) (by decide +kernel)
  · exact fun row hrow => (hlabels rfl (by decide) row hrow).1

end View

end CodePane

import CodePane.Proofs.Grid.HitTest
import CodePane.Text.WidthTable
import Mathlib.Data.Set.Insert

/-!
# The codepoint under a pixel

A cell of a line belongs to one codepoint, or to none behind the end of the line. Hit testing finds
the one of the pixel's cell, wherever the pixel is: a codepoint without a cell is never found, as
the walk goes on to the one behind it that stands at the same cell.

1. `columnAt_eq`, `columnAt_mono`: the cell of a pixel.
2. `underCell`, `mem_underCell_iff`: the boundaries that a cell leads to.
3. `StandsAt.le_of_le`, `StandsAt.unique`: the walk to a cell, compared with others.
4. `positionAt_underCell`: the offset of a pixel.
-/

namespace CodePane.Grid

/-! ## The cell of a pixel -/

/-- The cell of a pixel column in the range: the difference from the gutter can only leave the range
where it is negative. -/
theorem columnAt_eq {g : Grid} {text : Text} {x : Int} (hx : x ≤ Pixel.greatest) :
    g.columnAt text x =
      (max (x - g.gutterPixels (Text.numLines text)) 0 / g.columnPixels).toNat := by
  have hgutter := g.gutterPixels_nonneg (Text.numLines text)
  have hclamp : max (Pixel.clamp (x - g.gutterPixels (Text.numLines text))) 0 =
      max (x - g.gutterPixels (Text.numLines text)) 0 := by
    unfold Pixel.clamp Pixel.least
    omega
  rw [columnAt, hclamp]

theorem columnAt_mono {g : Grid} (hcellWidth : 0 < g.cell.width) (text : Text) {x x' : Int}
    (hx : x ≤ x') : g.columnAt text x ≤ g.columnAt text x' := by
  have hpixels : Pixel.clamp (x - g.gutterPixels (Text.numLines text)) ≤
      Pixel.clamp (x' - g.gutterPixels (Text.numLines text)) := Pixel.clamp_mono (by omega)
  exact Int.toNat_le_toNat (Int.ediv_le_ediv (columnPixels_pos hcellWidth) (by omega))

/-! ## The offset of a cell -/

section

variable [CharWidths] {text : Text} {g : Grid}
  {start stop target target' line pos pos' q : Nat}

/-- The boundaries of a line that a cell leads to: the codepoint there reaches over the cell and
begins no later, or the line ends there and none of its cells is beyond. -/
def underCell (text : Text) (line target : Nat) : Set Nat :=
  {q | Text.Boundary text q ∧ Text.startOfLine text line ≤ q ∧
    (q < Text.endOfLine text line ∧ (∃ c, Text.codepointAt text q = some c ∧
        Text.columns text (Text.startOfLine text line) q ≤ target ∧
        target < Text.columns text (Text.startOfLine text line) q + Text.charCells c.char) ∨
      q = Text.endOfLine text line ∧
        Text.columns text (Text.startOfLine text line) (Text.endOfLine text line) ≤ target)}

theorem mem_underCell_iff : q ∈ underCell text line target ↔
    StandsAt text (Text.startOfLine text line) (Text.endOfLine text line) target q := by
  constructor
  · rintro ⟨hboundary, hge, ⟨hlt, c, hc, hbefore, hreach⟩ | ⟨rfl, hall⟩⟩
    · exact ⟨hboundary, hge, Nat.le_of_lt hlt, hbefore, fun _ => ⟨c, hc, hreach⟩⟩
    · exact ⟨hboundary, hge, Nat.le_refl _, hall, fun hlt => absurd hlt (Nat.lt_irrefl _)⟩
  · intro h
    refine ⟨h.boundary, h.ge, ?_⟩
    rcases Nat.eq_or_lt_of_le h.le with rfl | hlt
    · exact .inr ⟨rfl, h.before⟩
    · obtain ⟨c, hc, hreach⟩ := h.reaches hlt
      exact .inl ⟨hlt, c, hc, h.before, hreach⟩

namespace StandsAt

/-- A walk to a later cell stops no earlier. -/
theorem le_of_le (h : StandsAt text start stop target pos)
    (h' : StandsAt text start stop target' pos') (hstart : Text.Boundary text start)
    (htarget : target ≤ target') : pos ≤ pos' :=
  h'.ge_of_columns_le hstart h.le (Nat.le_trans h.before htarget)

theorem unique (h : StandsAt text start stop target pos)
    (h' : StandsAt text start stop target pos') (hstart : Text.Boundary text start) : pos = pos' :=
  Nat.le_antisymm (h.le_of_le h' hstart (Nat.le_refl target))
    (h'.le_of_le h hstart (Nat.le_refl target))

end StandsAt

theorem positionAt_mono (hcellWidth : 0 < g.cell.width) (text : Text) {x x' : Int} (y : Int)
    (hx : x ≤ x') : g.positionAt text ⟨x, y⟩ ≤ g.positionAt text ⟨x', y⟩ :=
  (standsAt_positionAt g text ⟨x, y⟩).le_of_le (standsAt_positionAt g text ⟨x', y⟩)
    (Text.boundary_startOfLine text _) (columnAt_mono hcellWidth text hx)

/-- **Hit testing finds the codepoint under the pixel.** The row of the pixel says the line and its
column the cell, each the nearest one where the pixel is outside the text; the offset found is the
only boundary that the cell leads to. Further right it is no earlier. -/
theorem positionAt_underCell (g : Grid) (text : Text) (p : Point) (hcellWidth : 0 < g.cell.width)
    (hx : p.x ≤ Pixel.greatest) :
    let line := min (max p.y 0 / g.rowPixels).toNat (Text.numLines text - 1)
    let target := (max (p.x - g.gutterPixels (Text.numLines text)) 0 / g.columnPixels).toNat
    underCell text line target = {g.positionAt text p} ∧
      ∀ x x' : Int, x ≤ x' → g.positionAt text ⟨x, p.y⟩ ≤ g.positionAt text ⟨x', p.y⟩ := by
  intro line target
  refine ⟨?_, fun x x' => positionAt_mono hcellWidth text p.y⟩
  have hfound := standsAt_positionAt g text p
  rw [columnAt_eq hx] at hfound
  ext q
  rw [mem_underCell_iff, Set.mem_singleton_iff]
  constructor
  · exact fun hq => hq.unique hfound (Text.boundary_startOfLine text line)
  · rintro rfl
    exact hfound

end

/-- The pixel is above the content, and in the second cell of its first line: a combining mark and a
wide character both begin there, and the wide one is found. A malformed byte stands behind them. -/
theorem positionAt_underCell_shared :
    let g : Grid := ⟨.ofSize 8 16, {}⟩
    let text : Text := [0x61, 0xCC, 0x81, 0xE4, 0xB8, 0xAD, 0xFF, 0x0A, 0x78]
    let p : Point := ⟨45, Pixel.least⟩
    0 < g.cell.width ∧ p.x ≤ Pixel.greatest ∧ Text.columns text 0 1 = 1 ∧
      Text.columns text 0 3 = 1 ∧ g.positionAt text p = 3 ∧
      underCell text 0 1 = {g.positionAt text p} := by
  intro g text p
  have hcellWidth : 0 < g.cell.width := by decide
  have hx : p.x ≤ Pixel.greatest := by decide
  have hunder := (positionAt_underCell g text p hcellWidth hx).1
  have hline : min (max p.y 0 / g.rowPixels).toNat (Text.numLines text - 1) = 0 := by decide
  have htarget : (max (p.x - g.gutterPixels (Text.numLines text)) 0 / g.columnPixels).toNat =
      1 := by decide +kernel
  rw [hline, htarget] at hunder
  exact ⟨hcellWidth, hx, by decide +kernel, by decide +kernel, by decide +kernel, hunder⟩

end CodePane.Grid

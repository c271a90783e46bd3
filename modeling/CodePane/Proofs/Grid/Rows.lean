import CodePane.Proofs.Grid.HitTest
import Mathlib.Algebra.Order.Ring.Int

/-!
# From row to row

A move by lines goes through pixels: from the row of one line, by a distance that may saturate, to a
row that is kept inside the content. Where the rows of all lines stay in the range of pixels it
comes out at the line that one would count to.

1. `rowTop_eq_min`: the top of any line, also of one out of range.
2. `rowsIn_mul_le`, `lt_rowsIn_succ_mul`, `lt_rowsIn_iff`, `rowArea`: the rows of a window.
3. `rowTop_move`: the row on which a move by lines ends.
4. `lineAt_rowTop`, `positionAt_of_row`, `lineNumber_positionAt`: the pixels of a row.
5. `pixelOf_inContent`, `positionAt_pixelOf_self`: the pixel of an offset that can be pointed at.
-/

namespace CodePane.Grid

variable {g : Grid} {text : Text} {line last pos : Nat} {x y : Int}

/-! ## Rows -/

theorem rowTop_eq_min (g : Grid) (line : Nat) :
    g.rowTop line = min (line * g.rowPixels) Pixel.greatest :=
  Pixel.clamp_ofNat_mul_eq_min line g.rowPixels_nonneg

/-! ## Rows of a window -/

/-- The rows of a window take no more than its height, unless not even one fits. -/
theorem rowsIn_mul_le (g : Grid) (height : Int) :
    g.rowsIn height * g.rowPixels ≤ max height g.rowPixels := by
  have hfit := Int.ediv_mul_le (max height 0) (Int.ne_of_gt g.rowPixels_pos)
  have hrow := g.rowPixels_pos
  unfold rowsIn
  rcases Int.le_total (max height 0 / g.rowPixels) 1 with hle | hge
  · rw [Int.max_eq_right hle, Int.toNat_one, Int.natCast_one, Int.one_mul]
    exact Int.le_max_right _ _
  · rw [Int.max_eq_left hge, Int.toNat_of_nonneg (by omega)]
    omega

/-- One row more reaches below the window. -/
theorem lt_rowsIn_succ_mul (g : Grid) (height : Int) :
    max height g.rowPixels < (g.rowsIn height + 1) * g.rowPixels := by
  have hbelow := Int.lt_ediv_add_one_mul_self (max height 0) g.rowPixels_pos
  have hrow := g.rowPixels_pos
  have hcount : max height 0 / g.rowPixels ≤ g.rowsIn height ∧ 1 ≤ g.rowsIn height := by
    unfold rowsIn
    omega
  have hfirst := Int.mul_le_mul_of_nonneg_right (Int.add_le_add_right hcount.1 1)
    (Int.le_of_lt hrow)
  have hsecond := Int.mul_le_mul_of_nonneg_right
    (show (2 : Int) ≤ g.rowsIn height + 1 by omega) (Int.le_of_lt hrow)
  omega

/-- A line that is `n` lines below the top one is one of the visible rows exactly when the bottom of
its row is inside the window, or in the only row of a window that is lower than that. -/
theorem lt_rowsIn_iff (g : Grid) (height : Int) (n : Nat) :
    n < g.rowsIn height ↔ n * g.rowPixels + g.rowPixels ≤ max height g.rowPixels := by
  have hrow := g.rowPixels_nonneg
  have hbottom : (n : Int) * g.rowPixels + g.rowPixels = (n + 1) * g.rowPixels := by
    rw [Int.add_mul, Int.one_mul]
  rw [hbottom]
  constructor
  · intro hlt
    have hle := Int.mul_le_mul_of_nonneg_right
      (show (n + 1 : Int) ≤ g.rowsIn height by omega) hrow
    exact Int.le_trans hle (g.rowsIn_mul_le height)
  · intro hinside
    refine Nat.lt_of_not_le fun hle => ?_
    have hbelow := Int.mul_le_mul_of_nonneg_right
      (show (g.rowsIn height + 1 : Int) ≤ n + 1 by omega) hrow
    have hend := g.lt_rowsIn_succ_mul height
    omega

/-- Down to the row that may be cut off at the bottom of a window, nothing leaves the range of
pixels. -/
theorem rowTop_of_le_rowsIn {g : Grid} {height : Int} (hheight : height ≤ Pixel.greatest)
    (h : line ≤ g.rowsIn height) : g.rowTop line = line * g.rowPixels := by
  have hle := Int.mul_le_mul_of_nonneg_right (Int.ofNat_le.mpr h) g.rowPixels_nonneg
  have hwindow := g.rowsIn_mul_le height
  have hrow := g.rowPixels_le
  exact rowTop_eq (by omega)

/-- Where the row of a line stands in a window of some width, without any bound. -/
def rowArea (g : Grid) (s : Scroll) (width : Int) (line : Nat) : Rect :=
  ⟨0, (line - s.topLine) * g.rowPixels, width, g.rowPixels⟩

/-! ## Moves -/

/-- The row of the line that is some lines away, and at most the first or the last one. -/
theorem rowTop_clamped (hheight : (last + 1) * g.rowPixels ≤ Pixel.greatest) (lines : Int) :
    g.rowTop (min (line + lines).toNat last) =
      max 0 (min (line * g.rowPixels + lines * g.rowPixels) (last * g.rowPixels)) := by
  have hrow := g.rowPixels_nonneg
  have htarget : ((min (line + lines).toNat last : Nat) : Int) =
      max 0 (min (line + lines) last) := by omega
  have hinside : ((min (line + lines).toNat last : Nat) : Int) * g.rowPixels ≤
      Pixel.greatest := by
    have hle : ((min (line + lines).toNat last : Nat) : Int) ≤ last + 1 := by omega
    exact Int.le_trans (Int.mul_le_mul_of_nonneg_right hle hrow) hheight
  rw [rowTop_eq hinside, htarget, max_mul_of_nonneg _ _ hrow, Int.zero_mul,
    min_mul_of_nonneg _ _ hrow, Int.add_mul]

theorem rowTop_move (hline : line ≤ last) (hheight : (last + 1) * g.rowPixels ≤ Pixel.greatest)
    (lines : Int) :
    max 0 (min (Pixel.clamp (g.rowTop line +
        if lines < 0 then -g.rowTop lines.natAbs else g.rowTop lines.natAbs)) (g.rowTop last)) =
      g.rowTop (min (line + lines).toNat last) := by
  have hrow := g.rowPixels_pos
  have hnonneg : 0 ≤ (line : Int) * g.rowPixels := Int.mul_nonneg (by omega) (by omega)
  have hle : (line : Int) * g.rowPixels ≤ last * g.rowPixels :=
    Int.mul_le_mul_of_nonneg_right (by omega) (by omega)
  have hlast : (last : Int) * g.rowPixels + g.rowPixels ≤ Pixel.greatest := by
    rwa [Int.add_mul, Int.one_mul] at hheight
  rw [rowTop_clamped hheight, rowTop_eq (by omega : line * g.rowPixels ≤ Pixel.greatest),
    rowTop_eq (by omega : last * g.rowPixels ≤ Pixel.greatest), rowTop_eq_min]
  unfold Pixel.clamp Pixel.least
  split
  · next hup =>
    have hdistance : (lines.natAbs : Int) * g.rowPixels = -(lines * g.rowPixels) := by
      rw [← Int.neg_mul]
      congr 1
      omega
    rw [hdistance]
    unfold Pixel.greatest at *
    omega
  · next hdown =>
    have hdistance : (lines.natAbs : Int) * g.rowPixels = lines * g.rowPixels := by
      congr 1
      omega
    rw [hdistance]
    unfold Pixel.greatest at *
    omega

/-! ## The pixels of a row -/

theorem lineAt_lt (g : Grid) (text : Text) (y : Int) : g.lineAt text y < Text.numLines text :=
  Nat.lt_of_le_of_lt (Nat.min_le_right _ _) (Nat.sub_lt (Nat.succ_pos _) Nat.one_pos)

theorem lineAt_rowTop (hline : line < Text.numLines text)
    (hheight : Text.numLines text * g.rowPixels ≤ Pixel.greatest) :
    g.lineAt text (g.rowTop line) = line := by
  have hrow := g.rowPixels_pos
  have hle : (line : Int) * g.rowPixels ≤ Text.numLines text * g.rowPixels :=
    Int.mul_le_mul_of_nonneg_right (by omega) (by omega)
  rw [rowTop_eq (by omega)]
  refine lineAt_eq hline (Int.le_refl _) ?_
  rw [Int.add_mul]
  omega

variable [CharWidths]

theorem positionAt_of_row (hline : line < Text.numLines text)
    (hheight : Text.numLines text * g.rowPixels ≤ Pixel.greatest) (x : Int)
    (htop : line * g.rowPixels ≤ y) (hbottom : y < (line + 1) * g.rowPixels) :
    g.positionAt text ⟨x, y⟩ = g.positionAt text ⟨x, g.rowTop line⟩ := by
  unfold positionAt
  rw [lineAt_eq hline htop hbottom, lineAt_rowTop hline hheight]

theorem lineNumber_positionAt (g : Grid) (text : Text) (p : Point) :
    Text.lineNumber text (g.positionAt text p) = g.lineAt text p.y := by
  have hfound := standsAt_positionAt g text p
  exact (Text.lineNumber_eq_iff (g.lineAt_lt text p.y) hfound.boundary.le_length).mpr
    ⟨hfound.ge, hfound.le⟩

/-! ## Offsets that can be pointed at -/

theorem pixelOf_inContent (hpos : Text.Boundary text pos)
    (hheight : Text.numLines text * g.rowPixels ≤ Pixel.greatest)
    (hwidth : g.gutterPixels (Text.numLines text) + widestColumns text * g.columnPixels ≤
      Pixel.greatest) :
    g.pixelOf text pos =
      ⟨g.gutterPixels (Text.numLines text) + columnOf text pos * g.columnPixels,
        Text.lineNumber text pos * g.rowPixels⟩ := by
  have hline := Text.lineNumber_lt_numLines text pos
  have hx := Int.mul_le_mul_of_nonneg_right
    (Int.ofNat_le.mpr (columnOf_le_widestColumns hpos)) g.columnPixels_nonneg
  have hy := Int.mul_le_mul_of_nonneg_right
    (Int.ofNat_le.mpr (Nat.le_of_lt hline)) g.rowPixels_nonneg
  exact pixelOf_exact hpos (by omega) (by omega)

theorem positionAt_pixelOf_self (hcellWidth : 0 < g.cell.width) (hpos : Text.Boundary text pos)
    (hheight : Text.numLines text * g.rowPixels ≤ Pixel.greatest)
    (hwidth : g.gutterPixels (Text.numLines text) + widestColumns text * g.columnPixels ≤
      Pixel.greatest)
    (hcell : pos = Text.endOfLine text (Text.lineNumber text pos) ∨
      ∃ c, Text.codepointAt text pos = some c ∧ Text.charCells c.char ≠ 0) :
    g.positionAt text (g.pixelOf text pos) = pos := by
  have hline := Text.lineNumber_lt_numLines text pos
  have hstart := Text.startOfLine_lineNumber_le hpos.le_length
  have hstop := Text.le_endOfLine_lineNumber hpos.le_length
  have hpixel := pixelOf_inContent hpos hheight hwidth
  have hx : (g.pixelOf text pos).x =
      g.gutterPixels (Text.numLines text) + columnOf text pos * g.columnPixels := by rw [hpixel]
  have hy : (g.pixelOf text pos).y = Text.lineNumber text pos * g.rowPixels := by rw [hpixel]
  have hbottom : (g.pixelOf text pos).y < (Text.lineNumber text pos + 1) * g.rowPixels := by
    have hrow := g.rowPixels_pos
    rw [hy, Int.add_mul]
    omega
  have hreach {b : Nat} (hb : Text.Boundary text b)
      (hge : Text.startOfLine text (Text.lineNumber text pos) ≤ b)
      (hle : b ≤ Text.endOfLine text (Text.lineNumber text pos)) :=
    le_positionAt_iff (columnPixels_pos hcellWidth) hline hb hge hle ⟨(g.pixelOf_x_le text pos).1,
      (g.pixelOf_inside text pos).1.2⟩ (Int.le_of_eq hy.symm) hbottom
  have hfound := standsAt_positionAt g text (g.pixelOf text pos)
  rw [lineAt_eq hline (Int.le_of_eq hy.symm) hbottom] at hfound
  have hge : pos ≤ g.positionAt text (g.pixelOf text pos) :=
    (hreach hpos hstart hstop).mpr (Int.le_of_eq hx.symm)
  refine Nat.le_antisymm (Nat.le_of_not_lt fun hlt => ?_) hge
  rcases hcell with hend | ⟨c, hc, hwide⟩
  · have := hfound.le
    omega
  -- the codepoint has a cell, so its pixel is left of the next one
  · have hnext := hfound.boundary.codepoint_le hpos hc hlt
    have hright := (hreach (.step hpos hc) (by omega) (Nat.le_trans hnext hfound.le)).mp hnext
    have hpixels : 0 < (Text.charCells c.char : Int) * g.columnPixels :=
      Int.mul_pos (by omega) (columnPixels_pos hcellWidth)
    rw [Text.columns_step (Text.boundary_startOfLine text _) hpos hstart hc, Int.natCast_add,
      Int.add_mul, hx] at hright
    unfold columnOf at hright
    omega

end CodePane.Grid

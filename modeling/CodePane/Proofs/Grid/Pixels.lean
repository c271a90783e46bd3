import CodePane.Grid
import CodePane.Proofs.Text.Columns

/-!
# Pixels of a grid

Pixel quantities stay in their range by staying at its ends. Where nothing reaches an end, places
are exact products of counts and cell sizes, and even where something does they keep their order.

1. `Pixel.clamp_ofNat_mul_eq_min`, `Pixel.clamp_ofNat_mul`: products, and those that stay in the
   range.
2. `Grid.rowTop_eq`, `Grid.widthOf_eq`, `Grid.widthOf_mono`: rows and widths.
3. `Grid.columns_le_widestColumns`, `Grid.exists_columns_eq_widestColumns`: the widest line.
4. `Grid.pixelOf_exact`, `Grid.pixelOf_x_le`: places of offsets, none of them right of the content.
-/

namespace CodePane

namespace Pixel

theorem clamp_mono {v w : Int} (h : v ≤ w) : clamp v ≤ clamp w := by
  unfold clamp
  omega

theorem clamp_nonneg {v : Int} (h : 0 ≤ v) : 0 ≤ clamp v := by
  unfold clamp greatest
  omega

theorem ofNat_nonneg (n : Nat) : 0 ≤ ofNat n := by
  unfold ofNat greatest
  omega

theorem ofNat_pos {n : Nat} (h : 0 < n) : 0 < ofNat n := by
  unfold ofNat greatest
  omega

theorem ofNat_mono {m n : Nat} (h : m ≤ n) : ofNat m ≤ ofNat n := by
  unfold ofNat
  omega

theorem clamp_ofNat_mul_eq_min (n : Nat) {size : Int} (hsize : 0 ≤ size) :
    clamp (ofNat n * size) = min (n * size) greatest := by
  by_cases hnone : size = 0
  · rw [hnone, Int.mul_zero, Int.mul_zero]
    decide
  have hone (m : Int) (hm : 0 ≤ m) : m ≤ m * size := by
    have := Int.mul_le_mul_of_nonneg_left (show 1 ≤ size by omega) hm
    omega
  rcases Int.le_total n greatest with hle | hge
  · have hexact : ofNat n = n := Int.min_eq_left hle
    have hcount := hone n (Int.natCast_nonneg n)
    rw [hexact]
    unfold clamp least
    omega
  · have hend : ofNat n = greatest := Int.min_eq_right hge
    have hlimit := hone greatest (by decide)
    have hcount := hone n (Int.natCast_nonneg n)
    rw [hend]
    unfold clamp least
    unfold greatest at *
    omega

theorem clamp_ofNat_mul {n : Nat} {size : Int} (hsize : 0 ≤ size) (h : n * size ≤ greatest) :
    clamp (ofNat n * size) = n * size := by
  rw [clamp_ofNat_mul_eq_min n hsize, Int.min_eq_left h]

theorem clamp_ofNat_mul_mono {m n : Nat} {size : Int} (hsize : 0 ≤ size) (h : m ≤ n) :
    clamp (ofNat m * size) ≤ clamp (ofNat n * size) :=
  clamp_mono (Int.mul_le_mul_of_nonneg_right (ofNat_mono h) hsize)

theorem clamp_ofNat_mul_nonneg (n : Nat) {size : Int} (hsize : 0 ≤ size) :
    0 ≤ clamp (ofNat n * size) :=
  clamp_nonneg (Int.mul_nonneg (ofNat_nonneg n) hsize)

end Pixel

namespace Grid

variable {text : Text} {pos line n : Nat}

/-! ## Rows and widths -/

theorem columnPixels_nonneg (g : Grid) : 0 ≤ g.columnPixels := Pixel.ofNat_nonneg _

theorem columnPixels_pos {g : Grid} (h : 0 < g.cell.width) : 0 < g.columnPixels :=
  Pixel.ofNat_pos h

theorem rowPixels_pos (g : Grid) : 0 < g.rowPixels := Pixel.ofNat_pos g.cell.height_pos

theorem rowPixels_nonneg (g : Grid) : 0 ≤ g.rowPixels := Int.le_of_lt g.rowPixels_pos

theorem rowPixels_le (g : Grid) : g.rowPixels ≤ Pixel.greatest := Int.min_le_right _ _

theorem rowTop_nonneg (g : Grid) (line : Nat) : 0 ≤ g.rowTop line :=
  Pixel.clamp_ofNat_mul_nonneg line g.rowPixels_nonneg

theorem rowTop_le (g : Grid) (line : Nat) : g.rowTop line ≤ Pixel.greatest :=
  Pixel.clamp_le_greatest _

theorem rowTop_eq {g : Grid} (h : line * g.rowPixels ≤ Pixel.greatest) :
    g.rowTop line = line * g.rowPixels :=
  Pixel.clamp_ofNat_mul g.rowPixels_nonneg h

theorem widthOf_nonneg (g : Grid) (n : Nat) : 0 ≤ g.widthOf n :=
  Pixel.clamp_ofNat_mul_nonneg n g.columnPixels_nonneg

theorem widthOf_mono (g : Grid) {m n : Nat} (h : m ≤ n) : g.widthOf m ≤ g.widthOf n :=
  Pixel.clamp_ofNat_mul_mono g.columnPixels_nonneg h

theorem widthOf_eq {g : Grid} (h : n * g.columnPixels ≤ Pixel.greatest) :
    g.widthOf n = n * g.columnPixels :=
  Pixel.clamp_ofNat_mul g.columnPixels_nonneg h

theorem widthOf_eq_min (g : Grid) (n : Nat) :
    g.widthOf n = min (n * g.columnPixels) Pixel.greatest :=
  Pixel.clamp_ofNat_mul_eq_min n g.columnPixels_nonneg

theorem gutterPixels_nonneg (g : Grid) (numLines : Nat) : 0 ≤ g.gutterPixels numLines := by
  unfold gutterPixels
  split
  · exact g.widthOf_nonneg _
  · exact Int.le_refl 0

theorem gutterPixels_le_greatest (g : Grid) (numLines : Nat) :
    g.gutterPixels numLines ≤ Pixel.greatest := by
  unfold gutterPixels
  split
  · exact Pixel.clamp_le_greatest _
  · decide

/-! ## The widest line -/

theorem le_foldl_max (f : Text → Nat) (l : List Text) (first : Nat) :
    first ≤ l.foldl (fun widest line => max widest (f line)) first ∧
      ∀ line ∈ l, f line ≤ l.foldl (fun widest line => max widest (f line)) first := by
  induction l generalizing first with
  | nil => exact ⟨Nat.le_refl first, fun _ h => absurd h List.not_mem_nil⟩
  | cons head rest ih =>
    rw [List.foldl_cons]
    obtain ⟨hfirst, hrest⟩ := ih (max first (f head))
    refine ⟨by omega, fun line hline => ?_⟩
    rcases List.mem_cons.mp hline with rfl | hline
    · omega
    · exact hrest line hline

theorem foldl_max_mem (f : Text → Nat) (l : List Text) (first : Nat) :
    l.foldl (fun widest line => max widest (f line)) first = first ∨
      ∃ line ∈ l, f line = l.foldl (fun widest line => max widest (f line)) first := by
  induction l generalizing first with
  | nil => exact .inl rfl
  | cons head rest ih =>
    rw [List.foldl_cons]
    rcases ih (max first (f head)) with hnone | ⟨line, hline, hwidest⟩
    · rw [hnone]
      rcases Nat.le_total (f head) first with hle | hle
      · exact .inl (Nat.max_eq_left hle)
      · exact .inr ⟨head, List.mem_cons_self, (Nat.max_eq_right hle).symm⟩
    · exact .inr ⟨line, List.mem_cons_of_mem head hline, hwidest⟩

variable [CharWidths]

theorem columns_le_widestColumns (h : line < Text.numLines text) :
    Text.columns text (Text.startOfLine text line) (Text.endOfLine text line) ≤
      widestColumns text := by
  have hmem : Text.lineBytes text line ∈ Text.lines text :=
    List.mem_of_getElem? (Text.getElem?_lines h)
  rw [← Text.columns_lineBytes]
  exact (le_foldl_max (fun l => Text.columns l 0 l.length) _ 0).2 _ hmem

/-- Some line has as many cells as the widest one. -/
theorem exists_columns_eq_widestColumns (text : Text) : ∃ line < Text.numLines text,
    Text.columns text (Text.startOfLine text line) (Text.endOfLine text line) =
      widestColumns text := by
  rcases foldl_max_mem (fun line => Text.columns line 0 line.length) (Text.lines text) 0 with
    hnone | ⟨bytes, hmem, hwidest⟩
  -- no line has a cell, so the first one will do
  · have hfirst : 0 < Text.numLines text := Nat.succ_pos _
    have hle := columns_le_widestColumns hfirst
    have hzero : widestColumns text = 0 := hnone
    exact ⟨0, hfirst, by omega⟩
  · obtain ⟨line, hget⟩ := List.mem_iff_getElem?.mp hmem
    obtain ⟨hline, -⟩ := List.getElem?_eq_some_iff.mp hget
    rw [Text.length_lines] at hline
    rw [Text.getElem?_lines hline] at hget
    obtain rfl := Option.some.inj hget
    exact ⟨line, hline, (Text.columns_lineBytes text line).symm.trans hwidest⟩

/-- The cell at which an offset stands on its line. -/
def columnOf (text : Text) (pos : Nat) : Nat :=
  Text.columns text (Text.startOfLine text (Text.lineNumber text pos)) pos

theorem columnOf_le_widestColumns (h : Text.Boundary text pos) :
    columnOf text pos ≤ widestColumns text := by
  have hlength := h.le_length
  have hmono := Text.columns_mono (Text.boundary_startOfLine text (Text.lineNumber text pos)) h
    (Text.startOfLine_lineNumber_le hlength) (Text.le_endOfLine_lineNumber hlength)
  exact Nat.le_trans hmono (columns_le_widestColumns (Text.lineNumber_lt_numLines text pos))

/-! ## Places of offsets -/

theorem pixelOf_eq (g : Grid) (h : Text.Boundary text pos) :
    g.pixelOf text pos =
      ⟨Pixel.clamp (g.gutterPixels (Text.numLines text) + g.widthOf (columnOf text pos)),
        g.rowTop (Text.lineNumber text pos)⟩ := by
  unfold pixelOf
  simp only [h.floorBoundary]
  rfl

/-- Where neither the row nor the cell leaves the range of pixels, both are exact. -/
theorem pixelOf_exact {g : Grid} (h : Text.Boundary text pos)
    (hx : g.gutterPixels (Text.numLines text) + columnOf text pos * g.columnPixels ≤
      Pixel.greatest)
    (hy : Text.lineNumber text pos * g.rowPixels ≤ Pixel.greatest) :
    g.pixelOf text pos =
      ⟨g.gutterPixels (Text.numLines text) + columnOf text pos * g.columnPixels,
        Text.lineNumber text pos * g.rowPixels⟩ := by
  have hgutter := g.gutterPixels_nonneg (Text.numLines text)
  have hcolumns : 0 ≤ (columnOf text pos : Int) * g.columnPixels :=
    Int.mul_nonneg (by omega) g.columnPixels_nonneg
  rw [g.pixelOf_eq h, rowTop_eq hy, widthOf_eq (by omega), Pixel.clamp_eq ?_ hx]
  unfold Pixel.least
  omega

theorem pixelOf_floorBoundary (g : Grid) (text : Text) (pos : Nat) :
    g.pixelOf text (Text.floorBoundary text pos) = g.pixelOf text pos := by
  unfold pixelOf
  simp only [(Text.boundary_floorBoundary text pos).floorBoundary]

theorem pixelOf_startOfLine (g : Grid) (h : line < Text.numLines text) :
    g.pixelOf text (Text.startOfLine text line) =
      ⟨g.gutterPixels (Text.numLines text), g.rowTop line⟩ := by
  have hboundary := Text.boundary_startOfLine text line
  have hline := Text.lineNumber_startOfLine h
  have hcolumn : columnOf text (Text.startOfLine text line) = 0 := by
    unfold columnOf
    rw [hline, Text.columns_of_le text (Nat.le_refl _)]
  have hnonneg := g.gutterPixels_nonneg (Text.numLines text)
  rw [g.pixelOf_eq hboundary, hline, hcolumn, widthOf_eq (n := 0), Int.natCast_zero,
    Int.zero_mul, Int.add_zero, Pixel.clamp_eq _ (g.gutterPixels_le_greatest _)]
  · unfold Pixel.least
    omega
  · rw [Int.natCast_zero, Int.zero_mul]
    decide

/-- No offset stands left of the gutter's edge or right of the content. -/
theorem pixelOf_x_le (g : Grid) (text : Text) (pos : Nat) :
    g.gutterPixels (Text.numLines text) ≤ (g.pixelOf text pos).x ∧
      (g.pixelOf text pos).x ≤ g.contentWidth text := by
  have hpos := Text.boundary_floorBoundary text pos
  rw [← pixelOf_floorBoundary, g.pixelOf_eq hpos]
  have hwidth := g.widthOf_nonneg (columnOf text (Text.floorBoundary text pos))
  have hnonneg := g.gutterPixels_nonneg (Text.numLines text)
  have hgutter := g.gutterPixels_le_greatest (Text.numLines text)
  constructor
  · show g.gutterPixels (Text.numLines text) ≤ Pixel.clamp _
    unfold Pixel.clamp Pixel.least
    omega
  · apply Pixel.clamp_mono
    have := g.widthOf_mono (columnOf_le_widestColumns hpos)
    omega

theorem contentWidth_le (g : Grid) (text : Text)
    (h : g.gutterPixels (Text.numLines text) + widestColumns text * g.columnPixels ≤
      Pixel.greatest) :
    g.contentWidth text ≤
      g.gutterPixels (Text.numLines text) + widestColumns text * g.columnPixels := by
  have hgutter := g.gutterPixels_nonneg (Text.numLines text)
  have hwidth : 0 ≤ (widestColumns text : Int) * g.columnPixels :=
    Int.mul_nonneg (by omega) g.columnPixels_nonneg
  rw [contentWidth, widthOf_eq (by omega), Int.add_comm]
  exact Int.le_of_eq (Pixel.clamp_eq (by unfold Pixel.least; omega) h)

/-- Where cells have no width, all offsets stand at the gutter's edge. -/
theorem width_pos_or_pixelOf_x_le (g : Grid) (text : Text) (pos : Nat) :
    0 < g.cell.width ∨ (g.pixelOf text pos).x ≤ g.gutterPixels (Text.numLines text) := by
  rcases Nat.eq_zero_or_pos g.cell.width with hnone | hpos
  · have hcolumn : g.columnPixels = 0 := by
      rw [columnPixels, hnone]
      decide
    have hwidth : g.widthOf (widestColumns text) = 0 := by
      rw [widthOf_eq_min, hcolumn, Int.mul_zero]
      decide
    have hcontent : g.contentWidth text = Pixel.clamp (g.gutterPixels (Text.numLines text)) := by
      rw [contentWidth, hwidth, Int.zero_add]
    have hx := (g.pixelOf_x_le text pos).2
    have hnonneg := g.gutterPixels_nonneg (Text.numLines text)
    unfold Pixel.clamp Pixel.least at hcontent
    omega
  · exact .inl hpos

theorem pixelOf_inside (g : Grid) (text : Text) (pos : Nat) :
    (0 ≤ (g.pixelOf text pos).x ∧ (g.pixelOf text pos).x ≤ Pixel.greatest) ∧
      0 ≤ (g.pixelOf text pos).y ∧ (g.pixelOf text pos).y ≤ Pixel.greatest := by
  have hgutter := g.gutterPixels_nonneg (Text.numLines text)
  have hx := g.pixelOf_x_le text pos
  exact ⟨⟨by omega, Pixel.clamp_le_greatest _⟩, g.rowTop_nonneg _, g.rowTop_le _⟩

end Grid

end CodePane

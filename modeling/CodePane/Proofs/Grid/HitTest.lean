import CodePane.Proofs.Grid.Pixels
import CodePane.Text.WidthTable
import Mathlib.Order.Bounds.Defs

/-!
# From a pixel to its offset

The offset under a pixel is found by walking a line until its cells reach beyond the pixel's cell.
It is the inverse of placing offsets, up to codepoints without a cell: nobody can point at those.

1. `lineAt_eq`, `le_columnAt_iff`: the line and the cell of a pixel.
2. `StandsAt`, `standsAt_positionAt`: where the walk stops.
3. `le_positionAt_iff`, `positionAt_mem_span`: the pixels beyond a boundary lead beyond it, and
   those of a span into the span.
4. `positionAt_pixelOf`: from an offset to its pixel and back, in the content and in the window.
-/

namespace CodePane.Grid

section

variable {text : Text} {g : Grid} {line a b : Nat}

/-! ## The line and the cell of a pixel -/

theorem lineAt_eq {y : Int} (hline : line < Text.numLines text) (hlow : line * g.rowPixels ≤ y)
    (hhigh : y < (line + 1) * g.rowPixels) : g.lineAt text y = line := by
  have hrow := g.rowPixels_pos
  have hnonneg : 0 ≤ (line : Int) * g.rowPixels := Int.mul_nonneg (by omega) (by omega)
  have hge : (line : Int) ≤ y / g.rowPixels := (Int.le_ediv_iff_mul_le hrow).mpr hlow
  have hlt : y / g.rowPixels < line + 1 := (Int.ediv_lt_iff_lt_mul hrow).mpr hhigh
  unfold lineAt
  rw [Int.max_eq_left (by omega)]
  omega

theorem le_columnAt_iff {x : Int} (hcell : 0 < g.columnPixels)
    (hlow : g.gutterPixels (Text.numLines text) ≤ x) (hhigh : x ≤ Pixel.greatest) :
    a ≤ g.columnAt text x ↔ g.gutterPixels (Text.numLines text) + a * g.columnPixels ≤ x := by
  have hgutter := g.gutterPixels_nonneg (Text.numLines text)
  have hexact : Pixel.clamp (x - g.gutterPixels (Text.numLines text)) =
      x - g.gutterPixels (Text.numLines text) := by
    refine Pixel.clamp_eq ?_ (by omega)
    unfold Pixel.least
    omega
  have hcells : (a : Int) ≤ (x - g.gutterPixels (Text.numLines text)) / g.columnPixels ↔
      a * g.columnPixels ≤ x - g.gutterPixels (Text.numLines text) := Int.le_ediv_iff_mul_le hcell
  have hnonneg : 0 ≤ (x - g.gutterPixels (Text.numLines text)) / g.columnPixels :=
    Int.ediv_nonneg (by omega) (Int.le_of_lt hcell)
  unfold columnAt
  rw [hexact, Int.max_eq_left (by omega)]
  omega

theorem columnAt_mem {x : Int} (hx : x ≤ Pixel.greatest)
    (hlow : g.gutterPixels (Text.numLines text) + a * g.columnPixels ≤ x)
    (hhigh : x < g.gutterPixels (Text.numLines text) + b * g.columnPixels) :
    a ≤ g.columnAt text x ∧ g.columnAt text x < b := by
  have hnonneg : 0 ≤ (a : Int) * g.columnPixels :=
    Int.mul_nonneg (by omega) g.columnPixels_nonneg
  have hgutter : g.gutterPixels (Text.numLines text) ≤ x := by omega
  -- cells without width have no pixel between them
  have hcell : 0 < g.columnPixels := by
    refine Int.lt_iff_le_and_ne.mpr ⟨g.columnPixels_nonneg, fun hzero => ?_⟩
    rw [← hzero, Int.mul_zero] at hlow hhigh
    omega
  refine ⟨(le_columnAt_iff hcell hgutter hx).mpr hlow, Nat.lt_of_not_le fun hle => ?_⟩
  have := (le_columnAt_iff hcell hgutter hx).mp hle
  omega

/-! ## Pixels of the window -/

/-- The window shows the pixel of the content that it stands for. -/
theorem ofWindow_toWindow {s : Scroll} {p : Point} (hleft : 0 ≤ s.left ∧ s.left ≤ Pixel.greatest)
    (hx : 0 ≤ p.x ∧ p.x ≤ Pixel.greatest) (hy : 0 ≤ p.y ∧ p.y ≤ Pixel.greatest) :
    g.ofWindow s (g.toWindow s p) = p := by
  have htop := g.rowTop_nonneg s.topLine
  have htop' := g.rowTop_le s.topLine
  unfold toWindow ofWindow
  unfold Pixel.greatest at *
  have hx' : Pixel.clamp (p.x - s.left) = p.x - s.left :=
    Pixel.clamp_eq (by unfold Pixel.least; omega) (by unfold Pixel.greatest; omega)
  have hy' : Pixel.clamp (p.y - g.rowTop s.topLine) = p.y - g.rowTop s.topLine :=
    Pixel.clamp_eq (by unfold Pixel.least; omega) (by unfold Pixel.greatest; omega)
  simp only [hx', hy', Int.sub_add_cancel]
  rw [Pixel.clamp_eq (by unfold Pixel.least; omega) (by unfold Pixel.greatest; omega),
    Pixel.clamp_eq (by unfold Pixel.least; omega) (by unfold Pixel.greatest; omega)]

end

section

variable [CharWidths] {text : Text} {g : Grid}
  {start stop target line pos a b : Nat} {c : Codepoint}

/-! ## Walking a line -/

/-- `pos` is where cell `target` of the part `[start, stop)` of a line stands: its codepoint reaches
beyond that cell and none before it does, or the part ends there. -/
structure StandsAt (text : Text) (start stop target pos : Nat) : Prop where
  boundary : Text.Boundary text pos
  ge : start ≤ pos
  le : pos ≤ stop
  before : Text.columns text start pos ≤ target
  reaches : pos < stop → ∃ c, Text.codepointAt text pos = some c ∧
    target < Text.columns text start pos + Text.charCells c.char

/-- The walk from an offset that the cells do not reach beyond. The induction is on how far the
stop is; each step goes over one codepoint. -/
theorem standsAt_codepointReaching (hstart : Text.Boundary text start)
    (hpos : Text.Boundary text pos) (hstop : Text.Boundary text stop) (hge : start ≤ pos)
    (hle : pos ≤ stop) (hbefore : Text.columns text start pos ≤ target) :
    StandsAt text start stop target
      ((codepointReaching target (Text.columns text start pos)
        (Text.codepoints text pos stop)).getD stop) := by
  induction hn : stop - pos using Nat.strongRecOn generalizing pos with
  | ind n ih =>
    rcases Nat.eq_or_lt_of_le hle with rfl | hlt
    · rw [Text.codepoints_of_le text (Nat.le_refl pos)]
      exact ⟨hpos, hge, Nat.le_refl pos, hbefore, fun h => absurd h (Nat.lt_irrefl pos)⟩
    · have hlength := hstop.le_length
      obtain ⟨c, hc⟩ := Text.codepointAt_of_lt (Nat.lt_of_lt_of_le hlt hlength)
      have hsize := Text.codepointAt_size_pos hc
      rw [Text.codepoints_of_lt hc hlt, codepointReaching]
      by_cases hreach : target < Text.columns text start pos + Text.charCells c.char
      · rw [if_pos hreach]
        exact ⟨hpos, hge, hle, hbefore, fun _ => ⟨c, hc, hreach⟩⟩
      · rw [if_neg hreach, ← Text.columns_step hstart hpos hge hc]
        have hnext := hstop.codepoint_le hpos hc hlt
        refine ih (stop - (pos + c.size)) (by omega) (.step hpos hc) (by omega) hnext ?_ rfl
        rw [Text.columns_step hstart hpos hge hc]
        omega

/-- **Hit testing finds the cell of the pixel on the line of the pixel.** -/
theorem standsAt_positionAt (g : Grid) (text : Text) (p : Point) :
    StandsAt text (Text.startOfLine text (g.lineAt text p.y))
      (Text.endOfLine text (g.lineAt text p.y)) (g.columnAt text p.x) (g.positionAt text p) := by
  have hstart := Text.boundary_startOfLine text (g.lineAt text p.y)
  have hnone := Text.columns_of_le text (Nat.le_refl (Text.startOfLine text (g.lineAt text p.y)))
  have hbefore : Text.columns text (Text.startOfLine text (g.lineAt text p.y))
      (Text.startOfLine text (g.lineAt text p.y)) ≤ g.columnAt text p.x := by
    rw [hnone]
    exact Nat.zero_le _
  have hwalk := standsAt_codepointReaching hstart hstart (Text.boundary_endOfLine text _)
    (Nat.le_refl _) (Text.startOfLine_le_endOfLine text _) hbefore
  rw [hnone] at hwalk
  exact hwalk

namespace StandsAt

theorem ge_of_columns_le (h : StandsAt text start stop target pos)
    (hstart : Text.Boundary text start) (hle : a ≤ stop)
    (hcolumns : Text.columns text start a ≤ target) : a ≤ pos := by
  apply Nat.le_of_not_lt
  intro hlt
  obtain ⟨c, hc, hreach⟩ := h.reaches (by omega)
  have := Text.columns_add_charCells_le hstart h.boundary h.ge (by omega : pos < a) hc
  omega

theorem lt_of_lt_columns (h : StandsAt text start stop target pos)
    (hstart : Text.Boundary text start) (hb : Text.Boundary text b) (hge : start ≤ b)
    (hcolumns : target < Text.columns text start b) : pos < b := by
  apply Nat.lt_of_not_le
  intro hle
  have := Text.columns_mono hstart hb hge (by omega : b ≤ pos)
  have := h.before
  omega

end StandsAt

/-! ## Beyond a boundary and inside a span -/

/-- **The pixels of a span of a line lead into the span.** -/
theorem positionAt_mem_span {p : Point} (hline : line < Text.numLines text)
    (hb : Text.Boundary text b) (hstart : Text.startOfLine text line ≤ a) (hab : a ≤ b)
    (hstop : b ≤ Text.endOfLine text line)
    (hx : p.x ≤ Pixel.greatest)
    (hleft : g.gutterPixels (Text.numLines text) +
      Text.columns text (Text.startOfLine text line) a * g.columnPixels ≤ p.x)
    (hright : p.x < g.gutterPixels (Text.numLines text) +
      Text.columns text (Text.startOfLine text line) b * g.columnPixels)
    (htop : line * g.rowPixels ≤ p.y) (hbottom : p.y < (line + 1) * g.rowPixels) :
    a ≤ g.positionAt text p ∧ g.positionAt text p < b := by
  have hfound := standsAt_positionAt g text p
  rw [lineAt_eq hline htop hbottom] at hfound
  obtain ⟨hge, hlt⟩ := columnAt_mem hx hleft hright
  have hfirst := Text.boundary_startOfLine text line
  exact ⟨hfound.ge_of_columns_le hfirst (by omega) hge,
    hfound.lt_of_lt_columns hfirst hb (by omega) hlt⟩

/-- **A pixel of a line leads beyond a boundary exactly if it is at or right of its cell.** -/
theorem le_positionAt_iff {p : Point} (hcell : 0 < g.columnPixels)
    (hline : line < Text.numLines text) (hb : Text.Boundary text b)
    (hstart : Text.startOfLine text line ≤ b) (hstop : b ≤ Text.endOfLine text line)
    (hx : g.gutterPixels (Text.numLines text) ≤ p.x ∧ p.x ≤ Pixel.greatest)
    (htop : line * g.rowPixels ≤ p.y) (hbottom : p.y < (line + 1) * g.rowPixels) :
    b ≤ g.positionAt text p ↔ g.gutterPixels (Text.numLines text) +
      Text.columns text (Text.startOfLine text line) b * g.columnPixels ≤ p.x := by
  have hfound := standsAt_positionAt g text p
  rw [lineAt_eq hline htop hbottom] at hfound
  have hfirst := Text.boundary_startOfLine text line
  rw [← le_columnAt_iff hcell hx.1 hx.2]
  constructor
  · intro hle
    exact Nat.le_trans (Text.columns_mono hfirst hb hstart hle) hfound.before
  · exact hfound.ge_of_columns_le hfirst hstop

/-! ## There and back -/

/-- The boundaries of a line from `pos` on that a pixel can lead to: the codepoints that take a
cell, and the end of the line. -/
def pointable (text : Text) (pos : Nat) : Set Nat :=
  {q | Text.Boundary text q ∧ pos ≤ q ∧ q ≤ Text.endOfLine text (Text.lineNumber text pos) ∧
    (q = Text.endOfLine text (Text.lineNumber text pos) ∨
      ∃ c, Text.codepointAt text q = some c ∧ 0 < Text.charCells c.char)}

/-- The walk to the cell of a boundary stops at the first offset from there on that can be pointed
at. -/
theorem StandsAt.isLeast (hpos : Text.Boundary text pos)
    (h : StandsAt text (Text.startOfLine text (Text.lineNumber text pos))
      (Text.endOfLine text (Text.lineNumber text pos)) (columnOf text pos) a) :
    IsLeast (pointable text pos) a := by
  have hfirst := Text.boundary_startOfLine text (Text.lineNumber text pos)
  have hstart := Text.startOfLine_lineNumber_le hpos.le_length
  have hge : pos ≤ a := h.ge_of_columns_le hfirst
    (Text.le_endOfLine_lineNumber hpos.le_length) (Nat.le_refl _)
  constructor
  · refine ⟨h.boundary, hge, h.le, ?_⟩
    rcases Nat.eq_or_lt_of_le h.le with heq | hlt
    · exact .inl heq
    · obtain ⟨c, hc, hreach⟩ := h.reaches hlt
      have hcell := h.before
      have := Text.columns_mono hfirst hpos hstart hge
      unfold columnOf at hreach hcell
      exact .inr ⟨c, hc, by omega⟩
  · rintro q ⟨hq, hle, hstop, hcell⟩
    apply Nat.le_of_not_lt
    intro hlt
    rcases hcell with rfl | ⟨c, hc, hwide⟩
    · have := h.le
      omega
    -- the codepoint at `q` would take the walk beyond the cell of `pos`
    · have hreach := Text.columns_add_charCells_le hfirst hq (by omega)
        (by omega : q < a) hc
      have hmono := Text.columns_mono hfirst hpos hstart hle
      have hbefore := h.before
      unfold columnOf at hbefore
      omega

/-- **There and back.** Where cells have a width and neither the rows nor the widest line leave the
range of pixels, the pixel of an offset leads back to the first offset from there on that can be
pointed at, on the same line, and the window does not matter. -/
theorem positionAt_pixelOf (g : Grid) (text : Text) (s : Scroll) (pos : Nat)
    (hcellWidth : 0 < g.cell.width)
    (hheight : Text.numLines text * g.rowPixels ≤ Pixel.greatest)
    (hwidth : g.gutterPixels (Text.numLines text) + widestColumns text * g.columnPixels ≤
      Pixel.greatest)
    (hleft : 0 ≤ s.left ∧ s.left ≤ Pixel.greatest) :
    let p := Text.floorBoundary text pos
    let q := g.positionAt text (g.pixelOf text pos)
    g.positionAt text (g.ofWindow s (g.toWindow s (g.pixelOf text pos))) = q ∧
      IsLeast (pointable text p) q ∧ Text.lineNumber text q = Text.lineNumber text p ∧
      ((∀ c, Text.codepointAt text p = some c → Text.charCells c.char ≠ 0) → q = p) := by
  intro p q
  have hp : Text.Boundary text p := Text.boundary_floorBoundary text pos
  have hline := Text.lineNumber_lt_numLines text p
  have hx : g.gutterPixels (Text.numLines text) + columnOf text p * g.columnPixels ≤
      Pixel.greatest := by
    have hcolumns : (columnOf text p : Int) ≤ widestColumns text := by
      exact_mod_cast columnOf_le_widestColumns hp
    have := Int.mul_le_mul_of_nonneg_right hcolumns g.columnPixels_nonneg
    omega
  have hy : Text.lineNumber text p * g.rowPixels ≤ Pixel.greatest := by
    have hlines : (Text.lineNumber text p : Int) ≤ Text.numLines text := by omega
    have := Int.mul_le_mul_of_nonneg_right hlines g.rowPixels_nonneg
    omega
  have hpixel := pixelOf_exact hp hx hy
  rw [pixelOf_floorBoundary] at hpixel
  -- the pixel is in the row and the cell of `p`
  have hrow : g.lineAt text (g.pixelOf text pos).y = Text.lineNumber text p := by
    rw [hpixel]
    refine lineAt_eq hline (Int.le_refl _) ?_
    show (Text.lineNumber text p : Int) * g.rowPixels < (Text.lineNumber text p + 1) * g.rowPixels
    have := g.rowPixels_pos
    rw [Int.add_mul]
    omega
  have hcell : g.columnAt text (g.pixelOf text pos).x = columnOf text p := by
    have hlast : g.gutterPixels (Text.numLines text) + columnOf text p * g.columnPixels <
        g.gutterPixels (Text.numLines text) + ((columnOf text p + 1 : Nat) : Int) *
          g.columnPixels := by
      have := columnPixels_pos hcellWidth
      rw [Int.natCast_add, Int.add_mul]
      omega
    rw [hpixel]
    obtain ⟨hge, hlt⟩ := columnAt_mem hx (Int.le_refl _) hlast
    exact Nat.le_antisymm (Nat.le_of_lt_succ hlt) hge
  have hfound := standsAt_positionAt g text (g.pixelOf text pos)
  rw [hrow, hcell] at hfound
  have hleast : IsLeast (pointable text p) q := hfound.isLeast hp
  have hpq : p ≤ q := hleast.1.2.1
  have hstop : q ≤ Text.endOfLine text (Text.lineNumber text p) := hleast.1.2.2.1
  refine ⟨?_, hleast, ?_, fun hwide => ?_⟩
  · have hinside := g.pixelOf_inside text pos
    rw [ofWindow_toWindow hleft hinside.1 hinside.2]
  · have hstart := Text.startOfLine_lineNumber_le hp.le_length
    exact (Text.lineNumber_eq_iff hline hleast.1.1.le_length).mpr ⟨by omega, hstop⟩
  · refine Nat.le_antisymm (hleast.2 ⟨hp, Nat.le_refl p, by omega, ?_⟩) hpq
    rcases Nat.eq_or_lt_of_le (Text.le_endOfLine_lineNumber hp.le_length) with heq | hlt
    · exact .inl heq
    · have hlength := (Text.boundary_endOfLine text (Text.lineNumber text p)).le_length
      obtain ⟨c, hc⟩ := Text.codepointAt_of_lt (Nat.lt_of_lt_of_le hlt hlength)
      exact .inr ⟨c, hc, Nat.pos_of_ne_zero (hwide c hc)⟩

end

/-- A combining mark has no cell of its own: its pixel leads to the wide character behind it. A
malformed byte ends the line, and the window is scrolled both ways. -/
theorem positionAt_pixelOf_combining :
    let g : Grid := ⟨.ofSize 8 16, {}⟩
    let text : Text := [0x61, 0xCC, 0x81, 0xE4, 0xB8, 0xAD, 0xFF, 0x0A, 0x78]
    let s : Scroll := ⟨1, 20⟩
    let q := g.positionAt text (g.pixelOf text 2)
    0 < g.cell.width ∧ Text.numLines text * g.rowPixels ≤ Pixel.greatest ∧
      g.gutterPixels (Text.numLines text) + widestColumns text * g.columnPixels ≤
        Pixel.greatest ∧
      (0 ≤ s.left ∧ s.left ≤ Pixel.greatest) ∧ Text.floorBoundary text 2 = 1 ∧ q = 3 ∧
      g.positionAt text (g.ofWindow s (g.toWindow s (g.pixelOf text 2))) = q ∧
      IsLeast (pointable text (Text.floorBoundary text 2)) q :=
  have h := positionAt_pixelOf ⟨.ofSize 8 16, {}⟩
    [0x61, 0xCC, 0x81, 0xE4, 0xB8, 0xAD, 0xFF, 0x0A, 0x78] ⟨1, 20⟩ 2 (by decide) (by decide)
    (by decide +kernel) (by decide)
  ⟨by decide, by decide, by decide +kernel, by decide, by decide, by decide +kernel, h.1, h.2.1⟩

end CodePane.Grid

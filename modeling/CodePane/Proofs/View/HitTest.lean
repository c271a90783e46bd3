import CodePane.Proofs.Drawing
import CodePane.Proofs.Grid.HitTest
import CodePane.Proofs.View.Limits
import CodePane.Proofs.View.Tokens
import CodePane.Text.WidthTable

/-!
# Drawing and hit testing agree

Drawing adds up the widths of pieces from the left edge of the window; hit testing divides a pixel
by the size of a cell and walks the line. Where no coordinate leaves the range of pixels, a pixel
inside a piece leads to an offset inside the piece.

1. `Scene.row_pixel`: a pixel of a row in the content.
2. `Scene.positionAt_mem_piece`: any scene, drawn in any area.
3. `View.windowPositionAt_mem_piece`: every view that can be reached.
-/

namespace CodePane

namespace Scene

variable [CharWidths] {s : Scene} {clip : Rect} {row : DrawnRow} {p : Point}

theorem row_pixel (hrow : row ∈ (s.draw clip).rows)
    (hy : row.y ≤ p.y ∧ p.y < row.y + s.grid.rowPixels)
    (htop : row.line * s.grid.rowPixels ≤ Pixel.greatest)
    (hpixel : p.y + s.scroll.topLine * s.grid.rowPixels ≤ Pixel.greatest) :
    row.line < Text.numLines s.text ∧
      row.line * s.grid.rowPixels ≤ (s.grid.ofWindow s.scroll p).y ∧
      (s.grid.ofWindow s.scroll p).y < (row.line + 1) * s.grid.rowPixels := by
  obtain ⟨line, hshown, hdrawn⟩ := List.mem_filterMap.mp hrow
  obtain ⟨hfirst, hline⟩ := mem_shownLines hshown
  obtain ⟨rfl, hrowTop, -⟩ := row?_eq_some hdrawn
  have hrows (n : Nat) : 0 ≤ (n : Int) * s.grid.rowPixels :=
    Int.mul_nonneg (by omega) s.grid.rowPixels_nonneg
  have hsplit : ((row.line - s.scroll.topLine : Nat) : Int) * s.grid.rowPixels +
      s.scroll.topLine * s.grid.rowPixels = row.line * s.grid.rowPixels := by
    rw [← Int.add_mul, ← Int.natCast_add, Nat.sub_add_cancel hfirst]
  have hbelow := hrows (row.line - s.scroll.topLine)
  have habove := hrows s.scroll.topLine
  rw [Grid.rowTop_eq (by omega)] at hrowTop
  have hexact : (s.grid.ofWindow s.scroll p).y = p.y + s.scroll.topLine * s.grid.rowPixels := by
    show Pixel.clamp (p.y + s.grid.rowTop s.scroll.topLine) = _
    rw [Grid.rowTop_eq (by omega)]
    exact Pixel.clamp_eq (by unfold Pixel.least; omega) hpixel
  rw [hexact, Int.add_mul]
  exact ⟨hline, by omega, by omega⟩

/-- The offset under a pixel of a piece is inside the piece. -/
theorem positionAt_mem_piece {pp : PlacedPiece} (horder : Coverage.Ordered s.tokens)
    (htokens : ∀ t ∈ s.tokens, Text.Boundary s.text t.start ∧ Text.Boundary s.text t.stop)
    (hleft : 0 ≤ s.scroll.left ∧ s.scroll.left ≤ Pixel.greatest)
    (hrow : row ∈ (s.draw clip).rows) (hpp : pp ∈ row.pieces)
    (hx : pp.x ≤ p.x ∧ p.x < pp.x + pp.width)
    (hy : row.y ≤ p.y ∧ p.y < row.y + s.grid.rowPixels)
    (hright : s.grid.gutterPixels (Text.numLines s.text) +
      Text.columns s.text (Text.startOfLine s.text row.line) pp.piece.stop *
        s.grid.columnPixels ≤ Pixel.greatest)
    (htop : row.line * s.grid.rowPixels ≤ Pixel.greatest)
    (hpixel : p.y + s.scroll.topLine * s.grid.rowPixels ≤ Pixel.greatest) :
    pp.piece.start ≤ s.grid.positionAt s.text (s.grid.ofWindow s.scroll p) ∧
      s.grid.positionAt s.text (s.grid.ofWindow s.scroll p) < pp.piece.stop := by
  obtain ⟨hline, hrowTop, hrowBottom⟩ := row_pixel hrow hy htop hpixel
  obtain ⟨line, -, hdrawn⟩ := List.mem_filterMap.mp hrow
  obtain ⟨rfl, -, hpieces⟩ := row?_eq_some hdrawn
  rw [hpieces] at hpp
  obtain ⟨hpiece, hpiece'⟩ := x_of_mem_placedPieces horder htokens hleft hline hpp hright
  have hmem := piece_mem_of_mem_placedPieces hpp
  have htiles := Coverage.tiles_touching horder (Text.startOfLine_le_endOfLine s.text row.line)
  have hborder := (Coverage.borders_touching horder (Text.boundary_startOfLine s.text row.line)
    (Text.boundary_endOfLine s.text row.line) htokens pp.piece hmem).2
  have hgutter := s.grid.gutterPixels_nonneg (Text.numLines s.text)
  have hbefore : 0 ≤ (Text.columns s.text (Text.startOfLine s.text row.line) pp.piece.start : Int) *
      s.grid.columnPixels := Int.mul_nonneg (by omega) s.grid.columnPixels_nonneg
  have hcontent : (s.grid.ofWindow s.scroll p).x = p.x + s.scroll.left :=
    Pixel.clamp_eq (by unfold Pixel.least; omega) (by omega)
  obtain ⟨hlt, hlast⟩ := htiles.start_lt_stop _ hmem
  refine Grid.positionAt_mem_span hline hborder (htiles.first_le_start _ hmem) (Nat.le_of_lt hlt)
    hlast ?_ ?_ ?_ hrowTop hrowBottom
  all_goals rw [hcontent]
  · omega
  · omega
  · omega

end Scene

/-- **A pixel inside a drawn piece leads to an offset inside the piece.** The tokens may be any that
begin and end at boundaries; the coordinates that have to stay in the range are, in the content, the
right edge of the piece, the top of its row and the pixel itself. -/
theorem View.windowPositionAt_mem_piece [CharWidths] {v : View} (h : v.Reachable)
    (htokens : ∀ t ∈ v.tokens, Text.Boundary v.text t.start ∧ Text.Boundary v.text t.stop)
    {row : DrawnRow} (hrow : row ∈ v.drawAll.rows) {pp : PlacedPiece} (hpp : pp ∈ row.pieces)
    {p : Point} (hx : pp.x ≤ p.x ∧ p.x < pp.x + pp.width)
    (hy : row.y ≤ p.y ∧ p.y < row.y + v.grid.rowPixels)
    (hright : v.grid.gutterPixels v.numLines +
      Text.columns v.text (Text.startOfLine v.text row.line) pp.piece.stop *
        v.grid.columnPixels ≤ Pixel.greatest)
    (htop : row.line * v.grid.rowPixels ≤ Pixel.greatest)
    (hpixel : p.y + v.window.scroll.topLine * v.grid.rowPixels ≤ Pixel.greatest) :
    pp.piece.start ≤ v.windowPositionAt p ∧ v.windowPositionAt p < pp.piece.stop := by
  have hleft : v.window.scroll.left ≤ Pixel.greatest := h.inLimits.left_le_greatest
  unfold drawAll draw at hrow
  have hinside := Scene.positionAt_mem_piece h.ordered htokens ⟨h.inLimits.left_nonneg, hleft⟩
    hrow hpp hx hy hright htop hpixel
  exact hinside

/-- The second line is scrolled both ways. Its first piece belongs to a token that began on the line
before, and shows a wide character with a combining mark; the pixel is the last one of it. -/
theorem View.windowPositionAt_mem_piece_wide :
    let text : Text := [0x61, 0x0A, 0xE4, 0xB8, 0xAD, 0xCC, 0x81, 0x62, 0x63, 0x64]
    let tokens : List Token := [⟨0, 7, .keyword, .boldOnly⟩, ⟨8, 2, .string, .plain⟩]
    let v := (ofSettings {}).run
      [.load text .plain, .highlight tokens, .resize 60 16, .scrollToPixel 12, .scrollToLine 1]
    let pp : PlacedPiece := ⟨⟨2, 7, .keyword, .boldOnly⟩, 20, 16, ⟨31, 28, 27⟩⟩
    v.Reachable ∧ (∀ t ∈ v.tokens, Text.Boundary v.text t.start ∧ Text.Boundary v.text t.stop) ∧
      (∃ row ∈ v.drawAll.rows, row.line = 1 ∧ row.y = 0 ∧ pp ∈ row.pieces) ∧
      2 ≤ v.windowPositionAt ⟨35, 15⟩ ∧ v.windowPositionAt ⟨35, 15⟩ < 7 := by
  intro text tokens v pp
  have hreachable : v.Reachable := ⟨{}, _, rfl⟩
  have htokens : v.tokens = tokens := by
    show Coverage.lay (Coverage.ofTokens [] 10) tokens 10 = tokens
    cbv
  have hboundary : ∀ t ∈ v.tokens, Text.Boundary text t.start ∧ Text.Boundary text t.stop := by
    have hfloor : ∀ pos ∈ [0, 7, 8, 10], Text.floorBoundary text pos = pos := by decide
    have hborder : ∀ pos ∈ [0, 7, 8, 10], Text.Boundary text pos := fun pos hpos =>
      hfloor pos hpos ▸ Text.boundary_floorBoundary text pos
    have hborders : ∀ t ∈ tokens, t.start ∈ [0, 7, 8, 10] ∧ t.stop ∈ [0, 7, 8, 10] := by decide
    rw [htokens]
    exact fun t ht => ⟨hborder _ (hborders t ht).1, hborder _ (hborders t ht).2⟩
  have hrow : ∃ row ∈ v.drawAll.rows, row.line = 1 ∧ row.y = 0 ∧ pp ∈ row.pieces := by
    unfold drawAll draw
    rw [htokens]
    decide +kernel
  obtain ⟨row, hmem, hline, hy, hpp⟩ := hrow
  refine ⟨hreachable, hboundary, ⟨row, hmem, hline, hy, hpp⟩, ?_⟩
  have hright : v.grid.gutterPixels v.numLines +
      Text.columns v.text (Text.startOfLine v.text 1) 7 * v.grid.columnPixels ≤
        Pixel.greatest := by decide +kernel
  have htop : (1 : Nat) * v.grid.rowPixels ≤ Pixel.greatest := by decide +kernel
  exact windowPositionAt_mem_piece hreachable hboundary hmem hpp (by decide)
    (by rw [hy]; decide) (by rw [hline]; exact hright) (by rw [hline]; exact htop) (by decide)

end CodePane

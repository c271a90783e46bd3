import CodePane.Proofs.View.Boundaries
import CodePane.Proofs.View.HitTest
import CodePane.Text.WidthTable

/-!
# The highlight shows what is selected

The area of the selection on a line comes from the ends of the selection, cut at the line; hit
testing comes from pixels. Where no coordinate leaves the range of pixels, a pixel on the text
of a line is highlighted exactly if it leads into the selection, and the cell behind the line stands
for its line feed.

1. `Scene.OnLine`, `Scene.pixelOf_x_exact`, `Scene.pixelOf_x_le_iff`: where a boundary of a line
   stands, and which pixels lead there or beyond.
2. `Scene.exists_selectionArea_iff`: the pixels of the area of the selection on a line.
3. `Scene.highlights_iff_selected`, `Scene.highlights_iff_feed_selected`,
   `Scene.highlights_bounds`: any scene, drawn in any area.
4. `View.highlight_shows_selection`: every view that can be reached.
-/

namespace CodePane

def Rect.Contains (r : Rect) (p : Point) : Prop :=
  (r.x ≤ p.x ∧ p.x < r.right) ∧ r.y ≤ p.y ∧ p.y < r.bottom

/-- A pixel is inside the selection on a row. -/
def DrawnRow.Highlights (row : DrawnRow) (p : Point) : Prop :=
  ∃ r, row.selection = some r ∧ r.Contains p

namespace Scene

/-! ## Boundaries of a line -/

/-- A boundary of a line, its end included. -/
structure OnLine (s : Scene) (line pos : Nat) : Prop where
  boundary : Text.Boundary s.text pos
  ge : Text.startOfLine s.text line ≤ pos
  le : pos ≤ Text.endOfLine s.text line

section

variable {s : Scene} {line a b : Nat}

theorem onLine_startOfLine (s : Scene) (line : Nat) :
    s.OnLine line (Text.startOfLine s.text line) :=
  ⟨Text.boundary_startOfLine s.text line, Nat.le_refl _, Text.startOfLine_le_endOfLine s.text line⟩

theorem onLine_endOfLine (s : Scene) (line : Nat) : s.OnLine line (Text.endOfLine s.text line) :=
  ⟨Text.boundary_endOfLine s.text line, Text.startOfLine_le_endOfLine s.text line, Nat.le_refl _⟩

theorem onLine_max (ha : Text.Boundary s.text a) (hle : a ≤ Text.endOfLine s.text line) :
    s.OnLine line (max a (Text.startOfLine s.text line)) := by
  rcases Nat.le_total a (Text.startOfLine s.text line) with h | h
  · rw [Nat.max_eq_right h]
    exact onLine_startOfLine s line
  · rw [Nat.max_eq_left h]
    exact ⟨ha, h, hle⟩

/-- A selection that reaches a line ends on it at the selection's or the line's end. -/
theorem onLine_min (hb : Text.Boundary s.text b) (hge : Text.startOfLine s.text line ≤ b) :
    s.OnLine line (min b (Text.endOfLine s.text line)) := by
  rcases Nat.le_total b (Text.endOfLine s.text line) with h | h
  · rw [Nat.min_eq_left h]
    exact ⟨hb, hge, h⟩
  · rw [Nat.min_eq_right h]
    exact onLine_endOfLine s line

end

section

variable [CharWidths]

/-! ## Where they stand -/

/-- The text of a line stays in the range of pixels. -/
structure LineFits (s : Scene) (line : Nat) : Prop where
  exists_line : line < Text.numLines s.text
  scrolled : 0 ≤ s.scroll.left ∧ s.scroll.left ≤ Pixel.greatest
  right : s.grid.gutterPixels (Text.numLines s.text) +
    Text.columns s.text (Text.startOfLine s.text line) (Text.endOfLine s.text line) *
      s.grid.columnPixels ≤ Pixel.greatest

variable {s : Scene} {clip : Rect} {row : DrawnRow} {p : Point} {line pos pos' a b : Nat}

theorem OnLine.cells_le (h : s.OnLine line pos) (hle : pos ≤ pos') :
    Text.columns s.text (Text.startOfLine s.text line) pos * s.grid.columnPixels ≤
      Text.columns s.text (Text.startOfLine s.text line) pos' * s.grid.columnPixels := by
  have hcolumns := Text.columns_mono (Text.boundary_startOfLine s.text line) h.boundary h.ge hle
  exact Int.mul_le_mul_of_nonneg_right (by omega) s.grid.columnPixels_nonneg

theorem pixelOf_x_exact (hfits : s.LineFits line) (h : s.OnLine line pos) :
    (s.pixelOf pos).x + s.scroll.left = s.grid.gutterPixels (Text.numLines s.text) +
      Text.columns s.text (Text.startOfLine s.text line) pos * s.grid.columnPixels := by
  have hnumber : Text.lineNumber s.text pos = line :=
    (Text.lineNumber_eq_iff hfits.exists_line h.boundary.le_length).mpr ⟨h.ge, h.le⟩
  have hcolumn : Grid.columnOf s.text pos =
      Text.columns s.text (Text.startOfLine s.text line) pos := by
    unfold Grid.columnOf
    rw [hnumber]
  have hgutter := s.grid.gutterPixels_nonneg (Text.numLines s.text)
  have hcells : 0 ≤ (Text.columns s.text (Text.startOfLine s.text line) pos : Int) *
      s.grid.columnPixels := Int.mul_nonneg (by omega) s.grid.columnPixels_nonneg
  have hright := hfits.right
  have hinside := h.cells_le h.le
  have hplace : (s.grid.pixelOf s.text pos).x = s.grid.gutterPixels (Text.numLines s.text) +
      Text.columns s.text (Text.startOfLine s.text line) pos * s.grid.columnPixels := by
    rw [s.grid.pixelOf_eq h.boundary, hcolumn, Grid.widthOf_eq (by omega)]
    exact Pixel.clamp_eq (by unfold Pixel.least; omega) (by omega)
  have hexact : (s.pixelOf pos).x = (s.grid.pixelOf s.text pos).x - s.scroll.left := by
    obtain ⟨hleft, hleft'⟩ := hfits.scrolled
    unfold Pixel.greatest at hleft'
    exact Pixel.clamp_eq (by unfold Pixel.least; omega) (by omega)
  omega

theorem pixelOf_x_mono (hfits : s.LineFits line) (h : s.OnLine line pos) (h' : s.OnLine line pos')
    (hle : pos ≤ pos') : (s.pixelOf pos).x ≤ (s.pixelOf pos').x := by
  have := pixelOf_x_exact hfits h
  have := pixelOf_x_exact hfits h'
  have := h.cells_le hle
  omega

/-- **A pixel on the text of a line is at or right of a boundary exactly if it leads there or
beyond.** -/
theorem pixelOf_x_le_iff (hfits : s.LineFits line) (h : s.OnLine line pos)
    (hx : (s.pixelOf (Text.startOfLine s.text line)).x ≤ p.x ∧
      p.x < (s.pixelOf (Text.endOfLine s.text line)).x)
    (hy : line * s.grid.rowPixels ≤ (s.grid.ofWindow s.scroll p).y ∧
      (s.grid.ofWindow s.scroll p).y < (line + 1) * s.grid.rowPixels) :
    (s.pixelOf pos).x ≤ p.x ↔
      pos ≤ s.grid.positionAt s.text (s.grid.ofWindow s.scroll p) := by
  have hexact := pixelOf_x_exact hfits h
  have hfirst := pixelOf_x_exact hfits (onLine_startOfLine s line)
  have hlast := pixelOf_x_exact hfits (onLine_endOfLine s line)
  have hgutter := s.grid.gutterPixels_nonneg (Text.numLines s.text)
  have hright := hfits.right
  rw [Text.columns_of_le s.text (Nat.le_refl _), Int.natCast_zero, Int.zero_mul] at hfirst
  -- a line whose cells have no width takes no pixel
  have hcell : 0 < s.grid.columnPixels := by
    refine Int.lt_iff_le_and_ne.mpr ⟨s.grid.columnPixels_nonneg, fun hzero => ?_⟩
    rw [← hzero, Int.mul_zero] at hlast
    omega
  have hcontent : (s.grid.ofWindow s.scroll p).x = p.x + s.scroll.left :=
    Pixel.clamp_eq (by unfold Pixel.least; omega) (by omega)
  rw [Grid.le_positionAt_iff hcell hfits.exists_line h.boundary h.ge h.le (by omega) hy.1 hy.2]
  omega

/-! ## The area of the selection -/

theorem selection_of_row?_eq_some (h : s.row? clip line = some row) :
    row.selection = s.selectionArea line (Text.startOfLine s.text line)
      (Text.endOfLine s.text line) row.y := by
  unfold row? at h
  simp only at h
  split at h
  · obtain rfl := Option.some.inj h
    rfl
  · cases h

/-- The pixels of the area of the selection on a line. That the area is left out where its ends meet
does not show: it would be empty there. -/
theorem exists_selectionArea_iff {start stop : Nat} {y : Int}
    (hselection : s.selection = some (a, b)) (hab : a < b) (hle : start ≤ stop) :
    (∃ r, s.selectionArea line start stop y = some r ∧ r.Contains p) ↔
      (start < b ∧ a ≤ stop) ∧
        ((s.pixelOf (max a start)).x ≤ p.x ∧ p.x < (s.pixelOf (min b stop)).x +
          if line + 1 < Text.numLines s.text ∧ stop < b then s.grid.columnPixels else 0) ∧
        y ≤ p.y ∧ p.y < y + s.grid.rowPixels := by
  unfold selectionArea
  simp only [hselection]
  by_cases hnone : b ≤ start ∨ stop < a ∨
      (min b stop ≤ max a start ∧ ¬(line + 1 < Text.numLines s.text ∧ stop < b))
  · rw [if_pos hnone]
    constructor
    · rintro ⟨r, hr, -⟩
      cases hr
    · rintro ⟨hmeets, ⟨hfirst, hlast⟩, -⟩
      obtain ⟨hempty, hends⟩ : min b stop ≤ max a start ∧
          ¬(line + 1 < Text.numLines s.text ∧ stop < b) := by omega
      have hmeet : min b stop = max a start := by omega
      rw [if_neg hends, hmeet] at hlast
      omega
  · rw [if_neg hnone]
    simp only [Option.some.injEq, exists_eq_left', Rect.Contains, Rect.right, Rect.bottom]
    omega

/-! ## Highlighted pixels -/

section Row

variable (hselection : s.selection = some (a, b)) (hab : a < b)
  (hrow : row ∈ (s.draw clip).rows) (hy : row.y ≤ p.y ∧ p.y < row.y + s.grid.rowPixels)
include hselection hab hrow hy

theorem highlights_iff_between :
    row.Highlights p ↔
      (Text.startOfLine s.text row.line < b ∧ a ≤ Text.endOfLine s.text row.line) ∧
        (s.pixelOf (max a (Text.startOfLine s.text row.line))).x ≤ p.x ∧
        p.x < (s.pixelOf (min b (Text.endOfLine s.text row.line))).x +
          if row.line + 1 < Text.numLines s.text ∧ Text.endOfLine s.text row.line < b then
            s.grid.columnPixels else 0 := by
  obtain ⟨line, -, hdrawn⟩ := List.mem_filterMap.mp hrow
  obtain ⟨rfl, -⟩ := row?_eq_some hdrawn
  unfold DrawnRow.Highlights
  rw [selection_of_row?_eq_some hdrawn,
    exists_selectionArea_iff hselection hab (Text.startOfLine_le_endOfLine s.text row.line)]
  exact ⟨fun h => ⟨h.1, h.2.1⟩, fun h => ⟨h.1, h.2, hy⟩⟩

variable (ha : Text.Boundary s.text a) (hb : Text.Boundary s.text b)
  (hfits : s.LineFits row.line)
include ha hb hfits

/-- **A pixel on the text of a line is highlighted exactly if it leads into the selection.** -/
theorem highlights_iff_selected (htop : row.line * s.grid.rowPixels ≤ Pixel.greatest)
    (hpixel : p.y + s.scroll.topLine * s.grid.rowPixels ≤ Pixel.greatest)
    (hx : (s.pixelOf (Text.startOfLine s.text row.line)).x ≤ p.x ∧
      p.x < (s.pixelOf (Text.endOfLine s.text row.line)).x) :
    row.Highlights p ↔ a ≤ s.grid.positionAt s.text (s.grid.ofWindow s.scroll p) ∧
      s.grid.positionAt s.text (s.grid.ofWindow s.scroll p) < b := by
  obtain ⟨-, hcontent⟩ := row_pixel hrow hy htop hpixel
  have hreach {pos : Nat} (h : s.OnLine row.line pos) :=
    pixelOf_x_le_iff hfits h hx hcontent
  -- the pixel leads into the line, so the ends of the selection may be cut there
  have hstart := (hreach (onLine_startOfLine s row.line)).mp hx.1
  have hstop := (hreach (onLine_endOfLine s row.line)).not.mp (by omega)
  have hcell := s.grid.columnPixels_nonneg
  rw [highlights_iff_between hselection hab hrow hy]
  constructor
  · rintro ⟨⟨hbegin, hend⟩, hfirst, hlast⟩
    rw [hreach (onLine_max ha hend)] at hfirst
    have hmin := hreach (onLine_min hb (Nat.le_of_lt hbegin))
    omega
  · rintro ⟨hge, hlt⟩
    have hbegin : Text.startOfLine s.text row.line < b := by omega
    have hend : a ≤ Text.endOfLine s.text row.line := by omega
    have hmax := hreach (onLine_max ha hend)
    have hmin := hreach (onLine_min hb (Nat.le_of_lt hbegin))
    omega

/-- **The cell behind a line is highlighted exactly if the line is ended by a line feed that is
selected.** -/
theorem highlights_iff_feed_selected
    (hx : (s.pixelOf (Text.endOfLine s.text row.line)).x ≤ p.x ∧
      p.x < (s.pixelOf (Text.endOfLine s.text row.line)).x + s.grid.columnPixels) :
    row.Highlights p ↔ s.text[Text.endOfLine s.text row.line]? = some Byte.lineFeed ∧
      a ≤ Text.endOfLine s.text row.line ∧ Text.endOfLine s.text row.line < b := by
  have hstop := onLine_endOfLine s row.line
  rw [highlights_iff_between hselection hab hrow hy, Text.getElem?_endOfLine_iff hfits.exists_line]
  constructor
  · rintro ⟨⟨hbegin, hend⟩, -, hlast⟩
    have hmin := onLine_min hb (Nat.le_of_lt hbegin)
    have := pixelOf_x_mono hfits hmin hstop hmin.le
    omega
  · rintro ⟨hfeed, hend, hlt⟩
    have hbegin : Text.startOfLine s.text row.line < b := Nat.lt_of_le_of_lt hstop.ge hlt
    have hmax := onLine_max ha hend
    have := pixelOf_x_mono hfits hmax hstop hmax.le
    rw [if_pos ⟨hfeed, hlt⟩, Nat.min_eq_right (Nat.le_of_lt hlt)]
    omega

/-- **No pixel left of a line or right of the cell behind it is highlighted.** -/
theorem highlights_bounds (hhighlights : row.Highlights p) :
    (s.pixelOf (Text.startOfLine s.text row.line)).x ≤ p.x ∧
      p.x < (s.pixelOf (Text.endOfLine s.text row.line)).x + s.grid.columnPixels := by
  obtain ⟨⟨hbegin, hend⟩, hfirst, hlast⟩ :=
    (highlights_iff_between hselection hab hrow hy).mp hhighlights
  have hmax := onLine_max ha hend
  have hmin := onLine_min hb (Nat.le_of_lt hbegin)
  have := pixelOf_x_mono hfits (onLine_startOfLine s row.line) hmax hmax.ge
  have := pixelOf_x_mono hfits hmin (onLine_endOfLine s row.line) hmin.le
  have := s.grid.columnPixels_nonneg
  omega

end Row

end

end Scene

/-! ## Views -/

namespace View

section

variable [CharWidths] {v : View} {a b : Nat}

/-- What is selected lies between two boundaries and is not empty. -/
theorem Reachable.selection_spec (h : v.Reachable) (hselection : v.selection = some (a, b)) :
    a < b ∧ Text.Boundary v.text a ∧ Text.Boundary v.text b := by
  have hwithin := h.onBoundaries.selection
  unfold selection Selection.range at hselection
  by_cases hactive : v.cursor.selection.active = true
  · rw [if_pos hactive] at hselection
    obtain ⟨rfl, rfl⟩ := Prod.mk.inj (Option.some.inj hselection)
    exact ⟨hwithin.active_iff.mp hactive, hwithin.start, hwithin.stop⟩
  · rw [if_neg hactive] at hselection
    cases hselection

/-- **The highlight shows exactly what is selected.** Between the start and the end of a line a
pixel of its row is highlighted exactly if it leads into the selection; one in the cell behind the
line exactly if the line is ended by a line feed that is selected; and no other pixel is. The
coordinates that have to stay in the range are, in the content, the end of the line, the top of its
row and the pixel itself. -/
theorem highlight_shows_selection (h : v.Reachable) (hselection : v.selection = some (a, b))
    {row : DrawnRow} (hrow : row ∈ v.drawAll.rows) {p : Point}
    (hy : row.y ≤ p.y ∧ p.y < row.y + v.grid.rowPixels)
    (hright : v.grid.gutterPixels v.numLines +
      Text.columns v.text (Text.startOfLine v.text row.line) (Text.endOfLine v.text row.line) *
        v.grid.columnPixels ≤ Pixel.greatest)
    (htop : row.line * v.grid.rowPixels ≤ Pixel.greatest)
    (hpixel : p.y + v.window.scroll.topLine * v.grid.rowPixels ≤ Pixel.greatest) :
    let stop := Text.endOfLine v.text row.line
    let x₀ := (v.windowPixelOf (Text.startOfLine v.text row.line)).x
    let x₁ := (v.windowPixelOf stop).x
    (x₀ ≤ p.x ∧ p.x < x₁ →
        (row.Highlights p ↔ a ≤ v.windowPositionAt p ∧ v.windowPositionAt p < b)) ∧
      (x₁ ≤ p.x ∧ p.x < x₁ + v.grid.columnPixels →
        (row.Highlights p ↔ v.text[stop]? = some Byte.lineFeed ∧ a ≤ stop ∧ stop < b)) ∧
      (row.Highlights p → x₀ ≤ p.x ∧ p.x < x₁ + v.grid.columnPixels) := by
  intro stop x₀ x₁
  obtain ⟨hab, ha, hb⟩ := h.selection_spec hselection
  have hleft : v.window.scroll.left ≤ Pixel.greatest := h.inLimits.left_le_greatest
  unfold drawAll draw at hrow
  have hline := (Scene.row_pixel hrow hy htop hpixel).1
  have hfits := Scene.LineFits.mk hline ⟨h.inLimits.left_nonneg, hleft⟩ hright
  have hselected := Scene.highlights_iff_selected hselection hab hrow hy ha hb hfits htop hpixel
  have hfeed := Scene.highlights_iff_feed_selected hselection hab hrow hy ha hb hfits
  have hbounds := Scene.highlights_bounds hselection hab hrow hy ha hb hfits
  exact ⟨hselected, hfeed, hbounds⟩

end

/-- Selected are a combining mark, the character behind it and the line feed. The mark shares its
cell with the wide character before it, so the first pixels that are highlighted lead behind it; in
the last ones the line feed shows. -/
theorem highlight_shows_selection_feed :
    let text : Text := [0x61, 0x0A, 0xE4, 0xB8, 0xAD, 0xCC, 0x81, 0x62, 0x0A, 0x63]
    let v := (ofSettings {}).run
      [.load text .plain, .resize 50 40, .scrollToPixel 6, .selectBetween 5 9]
    v.Reachable ∧ v.selection = some (5, 9) ∧
      ∃ row ∈ v.drawAll.rows, row.line = 1 ∧ row.y = 16 ∧
        ((row.Highlights ⟨42, 20⟩ ↔ 5 ≤ v.windowPositionAt ⟨42, 20⟩ ∧
          v.windowPositionAt ⟨42, 20⟩ < 9) ∧ row.Highlights ⟨42, 20⟩) ∧
        row.Highlights ⟨57, 20⟩ ∧ ¬row.Highlights ⟨58, 20⟩ := by
  intro text v
  have hreachable : v.Reachable := ⟨{}, _, rfl⟩
  have hselection : v.selection = some (5, 9) := by decide +kernel
  have hrow : ∃ row ∈ v.drawAll.rows, row.line = 1 ∧ row.y = 16 := by
    have htokens : v.tokens = [] := by
      show Coverage.ofTokens [] 10 = []
      cbv
    unfold drawAll draw
    rw [htokens]
    decide +kernel
  obtain ⟨row, hmem, hline, hy⟩ := hrow
  have hinside : (16 : Int) ≤ 20 ∧ (20 : Int) < 16 + v.grid.rowPixels := by decide +kernel
  have hpixel : (20 : Int) + v.window.scroll.topLine * v.grid.rowPixels ≤ Pixel.greatest := by
    decide +kernel
  have hexact (x : Int) := highlight_shows_selection hreachable hselection hmem (p := ⟨x, 20⟩)
    (by rw [hy]; exact hinside) (by rw [hline]; decide +kernel) (by rw [hline]; decide +kernel)
    hpixel
  rw [hline] at hexact
  have hselected := (hexact 42).1 (by decide +kernel)
  have hfeed := (hexact 57).2.1 (by decide +kernel)
  refine ⟨hreachable, hselection, row, hmem, hline, hy,
    ⟨hselected, hselected.mpr (by decide +kernel)⟩, hfeed.mpr (by decide +kernel), fun hshown => ?_⟩
  exact absurd ((hexact 58).2.2 hshown) (by decide +kernel)

end View

end CodePane

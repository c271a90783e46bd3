import CodePane.Proofs.Coverage.Relay
import CodePane.Text.WidthTable
import CodePane.View.Operation

/-!
# Drawing a part of the window

Drawing an area of the window gives what the drawing of the whole window has there. Rows, pieces and
the caret are each tested against the area, but where they stand does not depend on it: pieces that
are left out still move the ones behind them.

1. `Drawing.within`: the part of a drawing that an area shows.
2. `Rect.Inside`: what meets an area meets all that the area lies in.
3. `Scene.placedPieces_within`, `Scene.row?_within`: the pieces and the row of a line.
4. `View.drawing_within`: the drawing.
-/

namespace CodePane

/-- A piece that, laid out without any bound, reaches into the columns of an area. -/
def PlacedPiece.reaches (clip : Rect) (p : PlacedPiece) : Bool :=
  clip.x < p.x + p.width && p.x < clip.right

/-- The part of a drawing of rows `width` by `height` that an area shows: the rows that meet the
area, each with the pieces that reach into its columns, and the caret if it meets the area. -/
def Drawing.within (d : Drawing) (width height : Int) (clip : Rect) : Drawing where
  rows := (d.rows.filter fun row => Rect.overlaps ⟨0, row.y, width, height⟩ clip).map fun row =>
    { row with pieces := row.pieces.filter (PlacedPiece.reaches clip) }
  caret := d.caret.filter (Rect.overlaps · clip)

theorem PlacedPiece.reaches_iff {clip : Rect} {p : PlacedPiece} :
    p.reaches clip = true ↔ clip.x < p.x + p.width ∧ p.x < clip.right := by
  unfold reaches
  rw [Bool.and_eq_true, decide_eq_true_eq, decide_eq_true_eq]

/-! ## Areas -/

theorem Pixel.lt_clamp_iff {v w : Int} (low : least ≤ v) (high : v < greatest) :
    v < clamp w ↔ v < w := by
  unfold clamp
  omega

/-- The area lies in another one, unless it is empty. -/
structure Rect.Inside (a b : Rect) : Prop where
  left : b.x ≤ a.x
  top : b.y ≤ a.y
  right : a.right ≤ b.right
  bottom : a.bottom ≤ b.bottom

/-- What meets an area meets all that the area lies in, whatever its size. -/
theorem Rect.Inside.overlaps {a b r : Rect} (h : a.Inside b) (hr : r.overlaps a = true) :
    r.overlaps b = true := by
  obtain ⟨hleft, htop, hright, hbottom⟩ := h
  unfold Rect.overlaps at hr ⊢
  simp only [Bool.and_eq_true, decide_eq_true_eq] at hr ⊢
  omega

theorem Rect.left_lt_of_overlaps {y width height : Int} {a : Rect}
    (hwidth : width ≤ Pixel.greatest) (h : overlaps ⟨0, y, width, height⟩ a = true) :
    a.x < Pixel.greatest := by
  unfold overlaps right at h
  simp only [Bool.and_eq_true, decide_eq_true_eq] at h
  omega

namespace Scene

def area (s : Scene) : Rect := ⟨0, 0, s.width, s.height⟩

theorem meets_iff {clip : Rect} {p : PlacedPiece} :
    meets clip p = true ↔ clip.x < Pixel.clamp (p.x + p.width) ∧ p.x < clip.right := by
  unfold meets
  rw [Bool.and_eq_true, decide_eq_true_eq, decide_eq_true_eq]

variable [CharWidths] {s : Scene} {clip : Rect}

theorem placedPieces_within (h : clip.Inside s.area) (hclip : clip.x < Pixel.greatest)
    (start stop : Nat) :
    s.placedPieces start stop clip =
      (s.placedPieces start stop s.area).filter (PlacedPiece.reaches clip) := by
  unfold placedPieces
  rw [List.filter_filter]
  refine List.filter_congr fun p _ => ?_
  have hleft : 0 ≤ clip.x := h.left
  have hright : clip.right ≤ s.area.right := h.right
  have hzero : s.area.x = 0 := rfl
  have hreach : clip.x < Pixel.clamp (p.x + p.width) ↔ clip.x < p.x + p.width :=
    Pixel.lt_clamp_iff (by unfold Pixel.least; omega) hclip
  have hreach' : 0 < Pixel.clamp (p.x + p.width) ↔ 0 < p.x + p.width :=
    Pixel.lt_clamp_iff (by decide) (by decide)
  rw [Bool.eq_iff_iff, Bool.and_eq_true, PlacedPiece.reaches_iff, meets_iff, meets_iff]
  omega

/-! ## Rows and caret -/

/-- The row of a line in a drawing of an area is its row in the whole window, if that meets the
area, with the pieces that reach into the area. -/
theorem row?_within (h : clip.Inside s.area) (hwidth : s.width ≤ Pixel.greatest) (line : Nat) :
    s.row? clip line =
      ((s.row? s.area line).filter fun row =>
        Rect.overlaps ⟨0, row.y, s.width, s.grid.rowPixels⟩ clip).map fun row =>
          { row with pieces := row.pieces.filter (PlacedPiece.reaches clip) } := by
  unfold row?
  simp only
  by_cases hmeets : Rect.overlaps
      ⟨0, s.grid.rowTop (line - s.scroll.topLine), s.width, s.grid.rowPixels⟩ clip = true
  · have hclip : clip.x < Pixel.greatest := Rect.left_lt_of_overlaps hwidth hmeets
    rw [if_pos hmeets, if_pos (h.overlaps hmeets), Option.filter_some, if_pos hmeets,
      Option.map_some, placedPieces_within h hclip]
  · rw [if_neg hmeets]
    split
    · rw [Option.filter_some, if_neg hmeets, Option.map_none]
    · rfl

theorem caretArea_within (h : clip.Inside s.area) :
    s.caretArea.filter (Rect.overlaps · clip) =
      (s.caretArea.filter (Rect.overlaps · s.area)).filter (Rect.overlaps · clip) := by
  cases s.caretArea with
  | none => rfl
  | some r =>
    by_cases hr : r.overlaps clip = true
    · rw [Option.filter_some, Option.filter_some, if_pos hr, if_pos (h.overlaps hr),
        Option.filter_some, if_pos hr]
    · rw [Option.filter_filter, Option.filter_some, Option.filter_some, if_neg hr,
        if_neg fun hboth => hr (Bool.and_eq_true_iff.mp hboth).2]

/-- Drawing an area is drawing the whole window and keeping what the area shows. -/
theorem draw_within (h : clip.Inside s.area) (hwidth : s.width ≤ Pixel.greatest) :
    s.draw clip = (s.draw s.area).within s.width s.grid.rowPixels clip := by
  unfold draw Drawing.within
  simp only [Drawing.mk.injEq]
  rw [List.filter_filterMap, List.map_filterMap]
  exact ⟨List.filterMap_congr fun line _ => row?_within h hwidth line, caretArea_within h⟩

end Scene

/-! ## Views -/

/-- **A partial drawing agrees with the full one.** An area inside the window, of any size, shows
the rows of the full drawing that meet it, with the same labels, gutters and selections, the pieces
of these rows that reach into its columns, at the same places, and the caret if it meets the
area. -/
theorem View.drawing_within [CharWidths] {v : View} {clip : Rect}
    (hleft : 0 ≤ clip.x) (htop : 0 ≤ clip.y)
    (hright : clip.right ≤ v.window.width) (hbottom : clip.bottom ≤ v.window.height)
    (hwidth : v.window.width ≤ Pixel.greatest) :
    v.draw clip = v.drawAll.within v.window.width v.grid.rowPixels clip := by
  unfold View.drawAll View.draw
  refine Scene.draw_within ⟨hleft, htop, ?_, ?_⟩ hwidth
  · show clip.right ≤ 0 + v.window.width
    omega
  · show clip.bottom ≤ 0 + v.window.height
    omega

/-- A corner of a window that is scrolled sideways. Of the first row nothing is left, of the second
one two of four pieces, and the caret stands in it. -/
theorem View.drawing_within_corner :
    let text : Text := [0x61, 0x62, 0x0A, 0xE4, 0xB8, 0xAD, 0x63, 0x64, 0x65, 0x66]
    let tokens : List Token := [⟨0, 6, .keyword, .boldOnly⟩, ⟨7, 2, .string, .plain⟩]
    let v := (ofSettings {}).run [.load text .plain, .highlight tokens, .resize 70 40,
      .selectBetween 1 7, .scrollToPixel 6]
    let clip : Rect := ⟨44, 20, 8, 20⟩
    0 ≤ clip.x ∧ 0 ≤ clip.y ∧ clip.right ≤ v.window.width ∧ clip.bottom ≤ v.window.height ∧
      v.window.width ≤ Pixel.greatest ∧
      v.draw clip = v.drawAll.within v.window.width v.grid.rowPixels clip ∧
      v.draw clip =
        ⟨[⟨1, 16, some 2, some ⟨0, 16, 32, 16⟩, some ⟨26, 16, 24, 16⟩,
            [⟨⟨6, 7, .default, .plain⟩, 42, 8, ⟨31, 28, 27⟩⟩,
              ⟨⟨7, 9, .string, .plain⟩, 50, 16, ⟨191, 3, 3⟩⟩]⟩],
          some ⟨50, 18, 2, 12⟩⟩ := by
  intro text tokens v clip
  have htokens : v.tokens = tokens := by
    have hcovers : Coverage.OfLength 10 tokens := ⟨⟨by decide, by decide⟩, by decide⟩
    show Coverage.lay (Coverage.ofTokens [] 10) tokens 10 = tokens
    rw [(Coverage.OfLength.nil 10).ofTokens_eq]
    exact hcovers.ofTokens_eq
  have hdrawn : v.draw clip = _ := drawing_within (by decide) (by decide) (by decide) (by decide)
    (by decide)
  refine ⟨by decide, by decide, by decide, by decide, by decide, hdrawn, ?_⟩
  unfold draw
  rw [htokens]
  decide +kernel

end CodePane

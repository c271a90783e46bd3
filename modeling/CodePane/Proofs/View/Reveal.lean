import CodePane.Proofs.View.Checked
import CodePane.Text.WidthTable

/-!
# Where a revealed position stands

Revealing a position scrolls it into the columns between the gutter and the right edge of the
window. Scrolling ends where the widest line does, so the end of that line, and nothing else, stands
right on the edge.

1. `Window.revealColumn_left`: how revealing moves the window.
2. `View.reveal_x`: where a position stands after it was revealed.
3. `View.reveal_widestEnd`: the end of a widest line stands on the edge.
-/

namespace CodePane

/-- A window with room for the margin beside the gutter, and a column of the content behind it. The
column is hidden on the left, hidden on the right, or already in view. -/
theorem Window.revealColumn_left {w : Window} {x gutter margin content left : Int}
    (hscroll : 0 ≤ w.scroll.left ∧ w.scroll.left ≤ max (content - w.width) 0)
    (hmargin : 1 ≤ margin) (hwidth : gutter + margin ≤ w.width)
    (hx : gutter ≤ x ∧ x ≤ content)
    (hleft : left =
      (w.revealColumn x gutter margin (max (content - w.width) 0)).scroll.left) :
    gutter ≤ x - left ∧ x - left ≤ w.width ∧
      (x - left = w.width ↔ x = content ∧ w.width ≤ content) := by
  have hasked : left = max 0 (min (max 0
      (if x - w.scroll.left < gutter then x - gutter
        else if w.width ≤ x - w.scroll.left then x - (w.width - margin)
        else w.scroll.left)) (max (max (content - w.width) 0) 0)) := hleft
  by_cases hbefore : x - w.scroll.left < gutter
  · rw [if_pos hbefore] at hasked
    omega
  · rw [if_neg hbefore] at hasked
    by_cases hbehind : w.width ≤ x - w.scroll.left
    · rw [if_pos hbehind] at hasked
      omega
    · rw [if_neg hbehind] at hasked
      omega

namespace View

section

variable [CharWidths] {v : View}

theorem reveal_left (v : View) (pos : Nat) :
    (v.reveal pos).window.scroll.left =
      ((v.window.revealLine (v.lineNumber (v.snap pos)) v.rows v.topLimit).revealColumn
        (v.pixelOf pos).x (v.grid.gutterPixels v.numLines)
        v.settings.scroll.horizontalMargin.toInt32.toInt v.leftLimit).scroll.left := by
  have hsnap : v.pixelOf (v.snap pos) = v.pixelOf pos := v.grid.pixelOf_floorBoundary v.text pos
  rw [← hsnap]
  rfl

/-- **A revealed position stands between the gutter and the right edge**, except that the end of a
widest line stands on the edge when the content is as wide as the window or wider. Revealing does
not fail, since the margin fits into the window. -/
theorem reveal_x (h : v.Reachable)
    (hmargin : 1 ≤ v.settings.scroll.horizontalMargin.toInt32.toInt)
    (hwidth : v.grid.gutterPixels v.numLines + v.settings.scroll.horizontalMargin.toInt32.toInt ≤
      v.window.width) (pos : Nat) :
    let x := ((v.reveal pos).windowPixelOf pos).x
    v.reveal? pos = some (v.reveal pos) ∧
      v.grid.gutterPixels v.numLines ≤ x ∧ x ≤ v.window.width ∧
      (x = v.window.width ↔
        (v.pixelOf pos).x = v.contentWidth ∧ v.window.width ≤ v.contentWidth) := by
  intro x
  have hlimits := h.inLimits
  have hgutter := v.grid.gutterPixels_nonneg v.numLines
  have hreturns : v.reveal? pos = some (v.reveal pos) :=
    hlimits.reveal?_eq_of_margin (by omega) (.inr (by omega)) pos
  have hshown := Window.revealColumn_left
    (w := v.window.revealLine (v.lineNumber (v.snap pos)) v.rows v.topLimit)
    ⟨hlimits.left_nonneg, hlimits.left_le⟩ hmargin hwidth
    (hlimits.measured ▸ v.grid.pixelOf_x_le v.text pos) (v.reveal_left pos)
  have hexact : x = (v.pixelOf pos).x - (v.reveal pos).window.scroll.left := by
    have hcolumn := (v.grid.pixelOf_inside v.text pos).1
    have hleft := (hlimits.reveal pos).left_nonneg
    have hleft' := (hlimits.reveal pos).left_le_greatest
    unfold Pixel.greatest at hcolumn hleft'
    refine Pixel.clamp_eq ?_ ?_
    · show Pixel.least ≤ (v.pixelOf pos).x - (v.reveal pos).window.scroll.left
      unfold Pixel.least pixelOf
      omega
    · show (v.pixelOf pos).x - (v.reveal pos).window.scroll.left ≤ Pixel.greatest
      unfold Pixel.greatest pixelOf
      omega
  rw [hexact]
  exact ⟨hreturns, hshown⟩

end

/-- The middle of a long line ends up the margin inside the right edge. -/
theorem reveal_x_middle :
    let v := (ofSettings {}).run [.load (List.replicate 100 0x78) .plain, .resize 320 160]
    let x := ((v.reveal 50).windowPixelOf 50).x
    v.Reachable ∧ 1 ≤ v.settings.scroll.horizontalMargin.toInt32.toInt ∧
      v.grid.gutterPixels v.numLines + v.settings.scroll.horizontalMargin.toInt32.toInt ≤
        v.window.width ∧
      v.reveal? 50 = some (v.reveal 50) ∧
      x = 280 ∧ v.grid.gutterPixels v.numLines ≤ x ∧ x ≤ v.window.width :=
  have hreachable : Reachable ((ofSettings {}).run
    [.load (List.replicate 100 0x78) .plain, .resize 320 160]) := ⟨{}, _, rfl⟩
  have h := reveal_x hreachable (by decide) (by decide +kernel) 50
  ⟨hreachable, by decide, by decide +kernel, h.1, by decide +kernel, h.2.1, h.2.2.1⟩

/-- The end of a widest line is not in view after it was revealed: the window cannot be scrolled as
far as the margin asks for. -/
theorem reveal_widestEnd :
    let v := (ofSettings {}).run [.load (List.replicate 10 0x78) .plain, .resize 80 16]
    v.Reachable ∧ 1 ≤ v.settings.scroll.horizontalMargin.toInt32.toInt ∧
      v.grid.gutterPixels v.numLines + v.settings.scroll.horizontalMargin.toInt32.toInt ≤
        v.window.width ∧
      (v.reveal? 10).map (fun w => (w.windowPixelOf 10).x) = some v.window.width :=
  ⟨⟨{}, _, rfl⟩, by decide, by decide +kernel, by decide +kernel⟩

end View

end CodePane

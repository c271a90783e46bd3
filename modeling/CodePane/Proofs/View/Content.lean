import CodePane.Proofs.Grid.Pixels
import CodePane.Proofs.Scrollbar
import CodePane.Proofs.View.Limits
import CodePane.Text.WidthTable
import Mathlib.Order.Bounds.Basic

/-!
# A view is scrolled inside its content

The width of the content is measured when the text or the cells change, and the limits of scrolling
and the scrollbars rely on it. In every view that can be reached it is the column of the position
that stands furthest right, the window is inside the content, and the scrollbars say where it is.

1. `Grid.isGreatest_contentWidth`: the width of a content is a position's column.
2. `View.ScrolledInside`, `View.Reachable.scrolledInside`: every view that can be reached.
-/

namespace CodePane

/-! ## The width of the content -/

namespace Grid

/-- **The width of the content is the column of the position that stands furthest right**, which is
the end of a widest line. -/
theorem isGreatest_contentWidth [CharWidths] (g : Grid) (text : Text) :
    IsGreatest {x | ∃ pos ≤ text.length, (g.pixelOf text pos).x = x} (g.contentWidth text) := by
  constructor
  · obtain ⟨line, hline, hwidest⟩ := exists_columns_eq_widestColumns text
    have hend := Text.boundary_endOfLine text line
    have hnumber := Text.lineNumber_endOfLine hline
    refine ⟨Text.endOfLine text line, hend.le_length, ?_⟩
    rw [g.pixelOf_eq hend]
    unfold columnOf contentWidth
    rw [hnumber, hwidest, Int.add_comm]
  · rintro x ⟨pos, -, rfl⟩
    exact (g.pixelOf_x_le text pos).2

end Grid

/-! ## Views -/

namespace View

section

variable [CharWidths] {v : View}

/-- A view shows a part of its content, and its scrollbars say which. -/
structure ScrolledInside (v : View) : Prop where
  widest : IsGreatest {x | ∃ pos ≤ v.text.length, (v.pixelOf pos).x = x} v.contentWidth
  topLine_le : v.window.scroll.topLine ≤ v.numLines - v.rows
  left_nonneg : 0 ≤ v.window.scroll.left
  left_le : v.window.scroll.left ≤ max 0 (v.contentWidth - v.window.width)
  horizontal : 1 ≤ v.window.width → (v.horizontalBar.value : Int) = v.window.scroll.left
  vertical : v.numLines < 2 ^ 32 → v.verticalBar.mode = .direct →
    v.verticalBar.value = v.window.scroll.topLine

/-- **Every view that can be reached is scrolled inside its content.** -/
theorem Reachable.scrolledInside (h : v.Reachable) : v.ScrolledInside := by
  have hlimits := h.inLimits
  have hleft := hlimits.left_le
  constructor
  case widest =>
    rw [hlimits.measured]
    exact v.grid.isGreatest_contentWidth v.text
  case topLine_le => exact hlimits.topLine_le
  case left_nonneg => exact hlimits.left_nonneg
  case left_le => rwa [Int.max_comm]
  case horizontal =>
    intro hwidth
    exact ScrollScale.horizontal_value hwidth hlimits.left_nonneg hleft
  case vertical =>
    intro hlines hdirect
    exact ScrollScale.vertical_value_of_direct hdirect hlines v.rows_pos hlimits.topLine_le

end

/-- Three of four lines are on screen, and the window is scrolled both ways. The third line is the
widest one, with a wide character. -/
theorem scrolledInside_wide :
    let v := (ofSettings {}).run
      [.load [0x61, 0x0A, 0x62, 0x0A, 0xE4, 0xB8, 0xAD, 0x63, 0x64, 0x65, 0x0A, 0x66] .plain,
        .resize 60 48, .scrollToLine 7, .scrollByPixels 9]
    v.Reachable ∧ v.contentWidth = 72 ∧ (v.pixelOf 10).x = 72 ∧
      v.window.scroll = ⟨1, 9⟩ ∧ v.verticalBar.mode = .direct ∧
      v.ScrolledInside ∧ v.horizontalBar.value = 9 ∧ v.verticalBar.value = 1 := by
  intro v
  have hreachable : v.Reachable := ⟨{}, _, rfl⟩
  have hscroll : v.window.scroll = ⟨1, 9⟩ := by decide +kernel
  have hdirect : v.verticalBar.mode = .direct := by decide +kernel
  have hinside := hreachable.scrolledInside
  refine ⟨hreachable, by decide +kernel, by decide +kernel, hscroll, hdirect, hinside, ?_, ?_⟩
  · have hvalue := hinside.horizontal (by decide +kernel)
    rw [hscroll] at hvalue
    exact Int.ofNat.inj hvalue
  · rw [hinside.vertical (by decide +kernel) hdirect, hscroll]

end View

end CodePane

import CodePane.View.Operation

/-!
# A view stays inside the limits of its content

The limits of scrolling follow from the text, the grid and the size of the window, and each of
these is changed by other operations. None of them leaves the window scrolled beyond the limits that
hold afterwards, or the content's width as it was before.

1. `Window.Within`: a window inside given limits, and the scrolling that keeps it there.
2. `View.InLimits.perform`, `View.InLimits.run`: one operation, and all of a run.
3. `View.Reachable.inLimits`: every view that can be reached.
-/

namespace CodePane

/-! ## Windows inside limits -/

/-- The window has a size and is scrolled from the start of the content to the limits at most. -/
structure Window.Within (w : Window) (topLimit : Nat) (leftLimit : Int) : Prop where
  width_nonneg : 0 ≤ w.width
  height_nonneg : 0 ≤ w.height
  topLine_le : w.scroll.topLine ≤ topLimit
  left_nonneg : 0 ≤ w.scroll.left
  left_le : w.scroll.left ≤ leftLimit

namespace Window

variable {w : Window} {topLimit : Nat} {leftLimit : Int}

theorem within_scroll (hwidth : 0 ≤ w.width) (hheight : 0 ≤ w.height) (hlimit : 0 ≤ leftLimit)
    (line : Nat) (pixels : Int) :
    ((w.scrollToLine line topLimit).scrollToPixel pixels leftLimit).Within topLimit leftLimit where
  width_nonneg := hwidth
  height_nonneg := hheight
  topLine_le := Nat.min_le_right line topLimit
  left_nonneg := Int.le_max_left 0 _
  left_le := by
    show max 0 (min pixels (max leftLimit 0)) ≤ leftLimit
    omega

namespace Within

theorem scrollToLine (h : w.Within topLimit leftLimit) (line : Nat) :
    (w.scrollToLine line topLimit).Within topLimit leftLimit :=
  ⟨h.width_nonneg, h.height_nonneg, Nat.min_le_right line topLimit, h.left_nonneg, h.left_le⟩

theorem scrollToPixel (h : w.Within topLimit leftLimit) (pixels : Int) :
    (w.scrollToPixel pixels leftLimit).Within topLimit leftLimit := by
  have hlow := h.left_nonneg
  have hhigh := h.left_le
  refine ⟨h.width_nonneg, h.height_nonneg, h.topLine_le, Int.le_max_left 0 _, ?_⟩
  show max 0 (min pixels (max leftLimit 0)) ≤ leftLimit
  omega

end Within

end Window

namespace View

theorem rows_pos (v : View) : 1 ≤ v.rows := by
  unfold rows Grid.rowsIn
  omega

theorem leftLimit_nonneg (v : View) : 0 ≤ v.leftLimit := Int.le_max_right _ 0

variable [CharWidths] {v : View}

/-- The window is inside the limits of the content, whose width is the one of the present text in
the present grid. -/
structure InLimits (v : View) : Prop extends Window.Within v.window v.topLimit v.leftLimit where
  measured : v.contentWidth = v.grid.contentWidth v.text

theorem inLimits_keepInLimits (hwidth : 0 ≤ v.window.width) (hheight : 0 ≤ v.window.height)
    (hmeasured : v.contentWidth = v.grid.contentWidth v.text) : v.keepInLimits.InLimits :=
  ⟨Window.within_scroll hwidth hheight v.leftLimit_nonneg _ _, hmeasured⟩

theorem inLimits_remeasure (hwidth : 0 ≤ v.window.width) (hheight : 0 ≤ v.window.height) :
    v.remeasure.InLimits :=
  inLimits_keepInLimits hwidth hheight rfl

namespace InLimits

theorem left_le_greatest (h : v.InLimits) : v.window.scroll.left ≤ Pixel.greatest := by
  have hcontent : v.contentWidth ≤ Pixel.greatest := by
    rw [h.measured]
    exact Pixel.clamp_le_greatest _
  have hwidth := h.width_nonneg
  have hlimit := h.left_le
  unfold leftLimit at hlimit
  unfold Pixel.greatest at hcontent ⊢
  omega

/-! ## Operations that scroll -/

theorem scrollToLine (h : v.InLimits) (line : Nat) : (v.scrollToLine line).InLimits :=
  ⟨h.toWithin.scrollToLine line, h.measured⟩

theorem scrollToPixel (h : v.InLimits) (pixels : Int) : (v.scrollToPixel pixels).InLimits :=
  ⟨h.toWithin.scrollToPixel pixels, h.measured⟩

theorem scrollByLines (h : v.InLimits) (delta : Int) : (v.scrollByLines delta).InLimits :=
  h.scrollToLine _

theorem scrollByPixels (h : v.InLimits) (delta : Int) : (v.scrollByPixels delta).InLimits := by
  unfold View.scrollByPixels
  split
  · exact h
  · exact h.scrollToPixel _

theorem turnWheel (h : v.InLimits) (d : Direction) (m : Modifiers) :
    (v.turnWheel d m).InLimits := by
  unfold View.turnWheel
  simp only
  split
  · exact h.scrollByPixels _
  · exact h.scrollByLines _

theorem reveal (h : v.InLimits) (pos : Nat) : (v.reveal pos).InLimits :=
  ⟨(h.toWithin.scrollToLine _).scrollToPixel _, h.measured⟩

theorem reportScroll (h : v.InLimits) :
    InLimits { v with window := v.window.reportScroll.2 } := by
  unfold Window.reportScroll
  split
  · exact h
  · exact ⟨⟨h.width_nonneg, h.height_nonneg, h.topLine_le, h.left_nonneg, h.left_le⟩, h.measured⟩

/-! ## Operations on the cursor, which reveal it -/

theorem withCursor (h : v.InLimits) (c : Cursor) : InLimits { v with cursor := c } :=
  ⟨h.toWithin, h.measured⟩

theorem moveAndReveal (h : v.InLimits) (pos : Nat) (extend : Bool) :
    (v.moveAndReveal pos extend).InLimits :=
  (h.withCursor _).reveal pos

theorem stepCaret (h : v.InLimits) (d : Direction) (extend : Bool) :
    (v.stepCaret d extend).InLimits :=
  (h.withCursor _).moveAndReveal _ extend

theorem moveByLines (h : v.InLimits) (lines : Int) (extend : Bool) :
    (v.moveByLines lines extend).InLimits :=
  (h.withCursor _).moveAndReveal _ extend

theorem moveToEdge (h : v.InLimits) (d : Direction) (whole extend : Bool) :
    (v.moveToEdge d whole extend).InLimits :=
  (h.withCursor _).moveAndReveal _ extend

theorem selectAndReveal (h : v.InLimits) (a b : Nat) : (v.selectAndReveal a b).InLimits :=
  (h.withCursor _).reveal _

theorem pointerMoved (h : v.InLimits) (p : Point) : (v.pointerMoved p).InLimits := by
  unfold View.pointerMoved
  split
  · exact (h.withCursor _).reveal _
  · exact h

theorem pointerUp (h : v.InLimits) (p : Point) : (v.pointerUp p).InLimits := by
  unfold View.pointerUp
  split
  · exact h.withCursor _
  · exact h

theorem act (h : v.InLimits) (a : KeyAction) : (v.act a).InLimits := by
  cases a with
  | step d extend => exact h.stepCaret d extend
  | line d extend => exact h.moveByLines _ extend
  | lineEdge d extend => exact h.moveToEdge d false extend
  | textEdge d extend => exact h.moveToEdge d true extend
  | page d extend => exact h.moveByLines _ extend
  | scrollPage d => exact h.scrollByLines _
  | everything => exact h.withCursor _

theorem key (h : v.InLimits) (k : Key) (m : Modifiers) :
    (v.perform (.key k m)).InLimits := by
  show (((KeyAction.ofKey? k m).map v.act).getD v).InLimits
  cases KeyAction.ofKey? k m with
  | none => exact h
  | some a => exact h.act a

/-! ## Runs -/

/-- One operation: a new text is measured and shown from its start, what changes the limits measures
the content and brings the window inside the new ones, and all other scrolling stays inside the
present ones. -/
theorem perform (h : v.InLimits) (op : Operation) : (v.perform op).InLimits := by
  have hwidth := h.width_nonneg
  have hheight := h.height_nonneg
  cases op with
  | load text kind =>
    exact ⟨⟨hwidth, hheight, Nat.zero_le _, Int.le_refl 0, leftLimit_nonneg _⟩, rfl⟩
  | withCells _ | fitFont _ | showGutter _ => exact inLimits_remeasure hwidth hheight
  | resize width height =>
    exact inLimits_keepInLimits (Int.le_max_right width 0) (Int.le_max_right height 0) h.measured
  | recolor _ | highlight _ | withTheme _ => exact ⟨h.toWithin, h.measured⟩
  | scrollToValue _ | scrollToLine _ | scrollToPosition _ => exact h.scrollToLine _
  | scrollToPixel pixels => exact h.scrollToPixel pixels
  | reveal pos => exact h.reveal pos
  | scrollByLines delta => exact h.scrollByLines delta
  | scrollByPage d => exact h.scrollByLines _
  | scrollByPixels delta => exact h.scrollByPixels delta
  | turnWheel d m => exact h.turnWheel d m
  | reportScroll => exact h.reportScroll
  | placeCaret _ | selectBetween _ _ | selectEverything | deselect | pointerDown _ =>
    exact h.withCursor _
  | selectAndReveal a b => exact h.selectAndReveal a b
  | selectWord pos => exact h.selectAndReveal _ _
  | stepCaret d extend => exact h.stepCaret d extend
  | moveByLines lines extend => exact h.moveByLines lines extend
  | moveToEdge d whole extend => exact h.moveToEdge d whole extend
  | moveByPage d extend => exact h.moveByLines _ extend
  | pointerMoved p => exact h.pointerMoved p
  | pointerUp p => exact h.pointerUp p
  | act a => exact h.act a
  | key k m => exact h.key k m

theorem run (h : v.InLimits) (ops : List Operation) : (v.run ops).InLimits := by
  induction ops generalizing v with
  | nil => exact h
  | cons op ops ih => exact ih (h.perform op)

end InLimits

/-- **No operation leaves a view scrolled beyond the limits of its content.** -/
theorem Reachable.inLimits (h : v.Reachable) : v.InLimits := by
  obtain ⟨s, ops, rfl⟩ := h
  have hstart : (ofSettings s).InLimits := inLimits_remeasure (Int.le_refl 0) (Int.le_refl 0)
  exact hstart.run ops

end View

end CodePane

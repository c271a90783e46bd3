import CodePane.Proofs.View.Content
import CodePane.Text.WidthTable
import Mathlib.Logic.Function.Iterate

/-!
# Scrolling by the scrollbar

A client that moves the vertical scrollbar gets the line that belongs to the value, and reads back
a value that belongs to the line. However often it writes back what it has read, the view stays
where it is.

1. `View.topLine_scrollToValue`, `View.verticalBar_value`: both ways are scalings.
2. `View.scrollToValue_verticalBar`: writing back the scrollbar's own value.
3. `View.scrollToValue_settles`: all that holds after a value was set.
-/

namespace CodePane.View

variable {v : View}

/-! ## From values to lines and back -/

/-- How many units the slider of the vertical scrollbar can travel. -/
def travel (v : View) : Nat := v.scale.travel v.numLines v.rows

/-- A value brings the line to the top that it stands for. -/
theorem scrollToValue_eq (hlines : v.numLines < 2 ^ 32) (value : Nat) :
    v.scrollToValue value = v.scrollToLine (scaled v.travel v.topLimit value) := by
  unfold scrollToValue verticalBar
  rw [ScrollScale.askedTopLine_vertical hlines v.rows_pos]
  rfl

theorem topLine_scrollToValue (hlines : v.numLines < 2 ^ 32) (value : Nat) :
    (v.scrollToValue value).window.scroll.topLine = scaled v.travel v.topLimit value := by
  rw [scrollToValue_eq hlines]
  exact Nat.min_eq_left scaled_le

theorem verticalBar_value (hlines : v.numLines < 2 ^ 32) :
    v.verticalBar.value = scaled v.topLimit v.travel v.window.scroll.topLine :=
  ScrollScale.vertical_value hlines v.rows_pos

theorem verticalBar_greatestValue (hlines : v.numLines < 2 ^ 32) :
    v.verticalBar.greatestValue = v.travel :=
  ScrollScale.vertical_greatestValue hlines v.rows_pos

/-- Outside the compressed mode the slider travels one unit for each line to scroll by. -/
theorem travel_le_topLimit (h : v.verticalBar.mode = .compressed → v.travel ≤ v.topLimit) :
    v.travel ≤ v.topLimit := by
  rcases v.scale.travel_eq_or v.numLines v.rows_pos with ⟨-, heq⟩ | ⟨hmode, -⟩
  · exact Nat.le_of_eq heq
  · apply h
    unfold verticalBar
    rw [ScrollScale.vertical_of_compressed hmode v.rows_pos]

/-! ## Writing back -/

theorem scrollToLine_topLine (h : v.window.scroll.topLine ≤ v.topLimit) :
    v.scrollToLine v.window.scroll.topLine = v := by
  unfold scrollToLine Window.scrollToLine
  rw [Nat.min_eq_left h]

/-- A line that a value has led to is the one that its own value leads to. -/
theorem scrollToValue_verticalBar (hlines : v.numLines < 2 ^ 32) (value : Nat) :
    let w := v.scrollToValue value
    w.scrollToValue w.verticalBar.value = w := by
  intro w
  have hlines' : w.numLines < 2 ^ 32 := hlines
  have htop : w.window.scroll.topLine = scaled w.travel w.topLimit value :=
    topLine_scrollToValue hlines value
  have hlimit : w.window.scroll.topLine ≤ w.topLimit := by
    rw [htop]
    exact scaled_le
  calc w.scrollToValue w.verticalBar.value
      = w.scrollToLine (scaled w.travel w.topLimit
          (scaled w.topLimit w.travel w.window.scroll.topLine)) := by
        rw [scrollToValue_eq hlines', verticalBar_value hlines']
    _ = w.scrollToLine w.window.scroll.topLine := by rw [htop, scaled_stable]
    _ = w := scrollToLine_topLine hlimit

/-- **The scrollbar never drifts.** After a value was set the view is inside its content, it stays
as it is however often the scrollbar's own value is written back, and the scrollbar stands at the
value that was asked for, as far as its range reaches, unless its units are finer than the
lines. -/
theorem scrollToValue_settles (hlines : v.numLines < 2 ^ 32) (value : Nat) :
    let w := v.scrollToValue value
    w.window.scroll.topLine ≤ w.numLines - w.rows ∧
      (∀ n, (fun u : View => u.scrollToValue u.verticalBar.value)^[n] w = w) ∧
      ((w.verticalBar.mode = .compressed →
          w.verticalBar.greatestValue ≤ w.numLines - w.rows) →
        w.verticalBar.value = min value w.verticalBar.greatestValue) := by
  intro w
  have hlines' : w.numLines < 2 ^ 32 := hlines
  have htop : w.window.scroll.topLine = scaled w.travel w.topLimit value :=
    topLine_scrollToValue hlines value
  refine ⟨?_, fun n => ?_, fun hcoarse => ?_⟩
  · rw [htop]
    exact scaled_le
  · exact Function.iterate_fixed (scrollToValue_verticalBar hlines value) n
  · rw [verticalBar_greatestValue hlines'] at hcoarse ⊢
    rw [verticalBar_value hlines', htop, ← scaled_min (a := value),
      scaled_scaled (travel_le_topLimit hcoarse) (Nat.min_le_right value _)]

/-- Twelve lines, one of them on screen, and a scrollbar that has one unit to travel. A value beyond
that leads to the last line. -/
theorem scrollToValue_settles_compressed :
    let v := (ofSettings { scroll := { maxUnits := 2, minFraction := 0.5 } }).run
      [.load (List.replicate 11 Byte.lineFeed) .plain, .resize 80 16]
    let w := v.scrollToValue 7
    v.numLines < 2 ^ 32 ∧ w.verticalBar.mode = .compressed ∧
      w.verticalBar.greatestValue = 1 ∧ w.numLines - w.rows = 11 ∧
      w.verticalBar.value = min 7 w.verticalBar.greatestValue ∧
      (fun u : View => u.scrollToValue u.verticalBar.value)^[3] w = w := by
  intro v w
  have hlines : v.numLines < 2 ^ 32 := by decide +kernel
  have hmode : w.scale.mode w.numLines w.rows = .compressed := by decide +kernel
  have hbar : w.verticalBar = _ := ScrollScale.vertical_of_compressed hmode w.rows_pos
  have hgreatest : w.verticalBar.greatestValue = 1 := by
    have hunits : w.scale.maxUnits = 2 := by decide +kernel
    have hpos := w.scale.unitSlider_pos
    have hlt := w.scale.unitSlider_lt
    rw [hbar]
    show max (w.scale.maxUnits - w.scale.unitSlider) 0 = 1
    omega
  have hlimit : w.numLines - w.rows = 11 := by decide +kernel
  obtain ⟨-, hstays, hvalue⟩ := scrollToValue_settles hlines 7
  refine ⟨hlines, by rw [hbar], hgreatest, hlimit, hvalue fun _ => ?_, hstays 3⟩
  show w.verticalBar.greatestValue ≤ w.numLines - w.rows
  rw [hgreatest, hlimit]
  decide

end CodePane.View

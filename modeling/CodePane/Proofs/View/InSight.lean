import CodePane.Proofs.Grid.Rows
import CodePane.Proofs.Text.Traversal
import CodePane.Proofs.View.Limits
import CodePane.Text.WidthTable

/-!
# Revealing scrolls as few lines as possible

Revealing a position brings its line into sight. Of all top lines that show the line and that the
view can be scrolled to, it takes the one nearest to the present one. The moves of the caret and two
of the selections reveal the caret, so its line is on screen after each of them, and nothing scrolls
if it was there before.

1. `View.OnScreen`, `View.onScreen_iff`: lines whose rows are in the window.
2. `View.Shows`, `View.ShowsNearest`: the top lines that show a line, and the nearest of them.
3. `View.showsNearest_reveal`: revealing a position.
4. `Operation.revealsCaret`, `View.exists_perform_eq_reveal`: the operations that reveal the caret.
5. `View.caret_in_sight`: what they have in common.
-/

namespace CodePane

namespace View

variable {v : View} {line top before : Nat}

/-! ## Lines on screen -/

/-- All of a line's row is in the window. The only row of a window that is lower than a row counts
too. -/
structure OnScreen (v : View) (line : Nat) : Prop where
  top : 0 ≤ (v.grid.rowArea v.window.scroll v.window.width line).y
  bottom : (v.grid.rowArea v.window.scroll v.window.width line).bottom ≤
    max v.window.height v.grid.rowPixels

theorem onScreen_iff : v.OnScreen line ↔
    v.window.scroll.topLine ≤ line ∧ line < v.window.scroll.topLine + v.rows := by
  have hrow := v.grid.rowPixels_pos
  have htop : 0 ≤ (v.grid.rowArea v.window.scroll v.window.width line).y ↔
      v.window.scroll.topLine ≤ line := by
    show 0 ≤ ((line : Int) - v.window.scroll.topLine) * v.grid.rowPixels ↔ _
    rw [Int.mul_nonneg_iff_of_pos_right hrow]
    omega
  have hbottom (hle : v.window.scroll.topLine ≤ line) :
      (v.grid.rowArea v.window.scroll v.window.width line).bottom ≤
        max v.window.height v.grid.rowPixels ↔ line < v.window.scroll.topLine + v.rows := by
    have hcount : ((line : Int) - v.window.scroll.topLine) =
        (line - v.window.scroll.topLine : Nat) := by omega
    show ((line : Int) - v.window.scroll.topLine) * v.grid.rowPixels + v.grid.rowPixels ≤ _ ↔ _
    rw [hcount, ← v.grid.lt_rowsIn_iff]
    unfold rows
    omega
  constructor
  · intro h
    have hle := htop.mp h.top
    exact ⟨hle, (hbottom hle).mp h.bottom⟩
  · rintro ⟨hle, hlt⟩
    exact ⟨htop.mpr hle, (hbottom hle).mpr hlt⟩

/-! ## Top lines -/

/-- With `top` as top line, up to which the view can be scrolled, a line is one of the visible
ones. -/
structure Shows (v : View) (line top : Nat) : Prop where
  le_limit : top ≤ v.numLines - v.rows
  top_le : top ≤ line
  lt : line < top + v.rows

/-- Of the top lines that show a line, `top` is nearest to `before`. -/
structure ShowsNearest (v : View) (line before top : Nat) : Prop extends v.Shows line top where
  nearest : ∀ t, v.Shows line t → t ≠ top →
    ((top : Int) - before).natAbs < ((t : Int) - before).natAbs

/-- The line is shown already, or is above the top line, or below the visible ones. -/
theorem showsNearest_revealLine (hlimit : v.window.scroll.topLine ≤ v.topLimit)
    (hline : line < v.numLines) :
    v.ShowsNearest line v.window.scroll.topLine
      (v.window.revealLine line v.rows v.topLimit).scroll.topLine := by
  have hrows := v.rows_pos
  have htop : (v.window.revealLine line v.rows v.topLimit).scroll.topLine =
      min (if line < v.window.scroll.topLine then line
        else if v.window.scroll.topLine + max v.rows 1 ≤ line then line + 1 - max v.rows 1
        else v.window.scroll.topLine) v.topLimit := rfl
  rw [htop]
  unfold topLimit at hlimit ⊢
  generalize v.window.scroll.topLine = before at hlimit ⊢
  refine ⟨⟨Nat.min_le_right _ _, ?_, ?_⟩, ?_⟩
  · split_ifs
    all_goals omega
  · split_ifs
    all_goals omega
  · rintro t ⟨hlimit', htop', hlt⟩ hne
    split_ifs at hne ⊢
    all_goals omega

/-- **A revealed position is in sight, and the view scrolls no further than that takes.** -/
theorem showsNearest_reveal [CharWidths] (h : v.InLimits) (pos : Nat) :
    (v.reveal pos).ShowsNearest (v.lineNumber pos) v.window.scroll.topLine
      (v.reveal pos).window.scroll.topLine := by
  have hsnap : v.lineNumber (v.snap pos) = v.lineNumber pos :=
    congrArg (Text.lineNumber v.text) (Text.boundary_floorBoundary v.text pos).floorBoundary
  have hline : v.lineNumber pos < v.numLines := Text.lineNumber_lt_numLines v.text _
  have hnearest := showsNearest_revealLine h.topLine_le hline
  rw [← hsnap] at hnearest ⊢
  exact ⟨⟨hnearest.le_limit, hnearest.top_le, hnearest.lt⟩,
    fun t ht => hnearest.nearest t ⟨ht.le_limit, ht.top_le, ht.lt⟩⟩

/-- A line that is on screen already leaves the top line as it is. -/
theorem ShowsNearest.eq_of_shows (h : v.ShowsNearest line before top)
    (hbefore : v.Shows line before) : top = before := by
  refine (Decidable.byContradiction fun hne => ?_)
  have hcloser := h.nearest before hbefore (Ne.symm hne)
  omega

end View

/-! ## Operations that reveal the caret -/

/-- The moves of the caret, and the selections that reveal it. -/
def Operation.revealsCaret : Operation → Bool
  | .stepCaret _ _ | .moveByLines _ _ | .moveToEdge _ _ _ | .moveByPage _ _
  | .selectAndReveal _ _ | .selectWord _ => true
  | _ => false

namespace View

theorem snapSpan_ordered (v : View) (a b : Nat) : (v.snapSpan a b).1 ≤ (v.snapSpan a b).2 := by
  have hfloor := (Text.isGreatest_floorBoundary v.text (min a b)).1.2
  have hceil := (Text.isLeast_ceilBoundary v.text (max a b)).1.2
  unfold snapSpan
  simp only
  omega

section

variable [CharWidths] {v : View} {op : Operation}

theorem moveAndReveal_eq (v : View) (pos : Nat) (extend : Bool) :
    ∃ c : Cursor, v.moveAndReveal pos extend = reveal { v with cursor := c } c.caret := by
  refine ⟨v.cursor.move pos extend, ?_⟩
  cases extend <;> rfl

theorem selectAndReveal_eq (v : View) (a b : Nat) :
    ∃ c : Cursor, v.selectAndReveal a b = reveal { v with cursor := c } c.caret := by
  refine ⟨v.cursor.selectSpan (v.snapSpan a b).1 (v.snapSpan a b).2 true, ?_⟩
  have hcaret : (v.cursor.selectSpan (v.snapSpan a b).1 (v.snapSpan a b).2 true).caret =
      (v.snapSpan a b).2 := Nat.max_eq_right (v.snapSpan_ordered a b)
  rw [hcaret]
  rfl

/-- Such an operation gives the view another cursor and reveals its caret. -/
theorem exists_perform_eq_reveal (h : op.revealsCaret = true) (v : View) :
    ∃ c : Cursor, v.perform op = reveal { v with cursor := c } c.caret := by
  cases op with
  | stepCaret d extend => exact v.forgetGoal.moveAndReveal_eq _ extend
  | moveByLines lines extend => exact View.moveAndReveal_eq { v with cursor := _ } _ extend
  | moveToEdge d whole extend => exact v.forgetGoal.moveAndReveal_eq _ extend
  | moveByPage d extend => exact View.moveAndReveal_eq { v with cursor := _ } _ extend
  | selectAndReveal a b => exact v.selectAndReveal_eq a b
  | selectWord pos => exact v.selectAndReveal_eq _ _
  | _ => cases h

/-- **What is revealed is in sight, and nothing scrolls further than that takes.** After revealing a
position its line is one of the visible ones, and of all top lines with which it is, the view has
the one nearest to its top line before. So the line of the caret is on screen after every move of
the caret and the selections that reveal it, and if it was there before, the top line stays. -/
theorem caret_in_sight (h : v.Reachable) :
    (∀ pos, (v.reveal pos).ShowsNearest (v.lineNumber pos) v.window.scroll.topLine
        (v.reveal pos).window.scroll.topLine) ∧
      ∀ op : Operation, op.revealsCaret = true →
        let w := v.perform op
        let line := w.lineNumber w.cursor.caret
        w.ShowsNearest line v.window.scroll.topLine w.window.scroll.topLine ∧ w.OnScreen line ∧
          (v.OnScreen line → w.window.scroll.topLine = v.window.scroll.topLine) := by
  refine ⟨showsNearest_reveal h.inLimits, ?_⟩
  intro op hop w line
  obtain ⟨c, hw⟩ : ∃ c : Cursor, w = reveal { v with cursor := c } c.caret :=
    exists_perform_eq_reveal hop v
  have hnearest : w.ShowsNearest line v.window.scroll.topLine w.window.scroll.topLine := by
    have hreveal := showsNearest_reveal (h.inLimits.withCursor c) c.caret
    rw [← hw] at hreveal
    have hline : line = View.lineNumber { v with cursor := c } c.caret := by
      show w.lineNumber w.cursor.caret = _
      rw [hw]
      rfl
    rwa [hline]
  refine ⟨hnearest, onScreen_iff.mpr ⟨hnearest.top_le, hnearest.lt⟩, fun hbefore => ?_⟩
  obtain ⟨hle, hlt⟩ := onScreen_iff.mp hbefore
  have hsize : w.numLines = v.numLines ∧ w.rows = v.rows := by
    rw [hw]
    exact ⟨rfl, rfl⟩
  refine hnearest.eq_of_shows ⟨?_, hle, ?_⟩
  · rw [hsize.1, hsize.2]
    exact h.inLimits.topLine_le
  · rwa [hsize.2]

end

/-- Six lines in a window of two and a half rows, with the second line at the top. The end of the
text is brought into sight from below, which scrolls to the last page, and a selection that ends in
the first line of that page scrolls no further. -/
theorem caret_in_sight_lastPage :
    let v := (ofSettings {}).run
      [.load [0x61, 0x0A, 0x62, 0x0A, 0x63, 0x0A, 0x64, 0x0A, 0x65, 0x0A, 0x66] .plain,
        .resize 100 40, .scrollToLine 1]
    let w := v.run [.moveToEdge .forward true false]
    v.Reachable ∧ v.window.scroll.topLine = 1 ∧
      (v.reveal 100).ShowsNearest 5 1 (v.reveal 100).window.scroll.topLine ∧
      w.ShowsNearest 5 1 4 ∧ w.OnScreen 5 ∧ w.OnScreen 4 ∧
      (w.perform (.selectAndReveal 9 3)).window.scroll.topLine = 4 := by
  intro v w
  have hv : v.Reachable := ⟨{}, _, rfl⟩
  have hw : w.Reachable := ⟨{}, _, (run_concat _ _ (.moveToEdge .forward true false)).symm⟩
  obtain ⟨hreveal, hmove⟩ := caret_in_sight hv
  have htop : v.window.scroll.topLine = 1 := by decide +kernel
  have hend : w.window.scroll.topLine = 4 := by decide +kernel
  have hline : w.lineNumber w.cursor.caret = 5 := by decide +kernel
  obtain ⟨hnearest, hscreen, -⟩ := hmove (.moveToEdge .forward true false) rfl
  have hpage : w.OnScreen 4 := onScreen_iff.mpr (by decide +kernel)
  have hselected : (w.perform (.selectAndReveal 9 3)).lineNumber
      (w.perform (.selectAndReveal 9 3)).cursor.caret = 4 := by decide +kernel
  have hstays := ((caret_in_sight hw).2 (.selectAndReveal 9 3) rfl).2.2
  refine ⟨hv, htop, ?_, ?_, ?_, hpage, ?_⟩
  · have h := hreveal 100
    have hlast : v.lineNumber 100 = 5 := by decide +kernel
    rwa [hlast, htop] at h
  · rw [← htop, ← hend, ← hline]
    exact hnearest
  · rw [← hline]
    exact hscreen
  · rw [hselected] at hstays
    exact (hstays hpage).trans hend

end View

end CodePane

import CodePane.Proofs.Grid.Rows
import CodePane.Proofs.View.Boundaries
import CodePane.Proofs.View.Checked
import CodePane.Text.WidthTable

/-!
# Vertical moves keep their column

The first of several vertical moves remembers the pixel column of the caret, and all of them aim at
it, whatever the lines in between are like. Scrolling and giving the window another size do not get
in the way, since they change nothing but the window.

1. `View.rowAfter_eq`: the row on which a move ends.
2. `Operation.KeepsGoal`, `Operation.lineAfter`: the operations of a run, and its lines.
3. `View.Aims.moveByLines`, `View.Arrived.perform`, `View.Aims.run`: what a move makes of an aim,
   and what the rest of a run keeps.
4. `View.Aims.run?_eq`: no operation of such a run fails, if there is room for the margin.
5. `View.vertical_moves_keep_goal`: where a run of vertical moves ends.
6. `View.vertical_moves_lose_goal`: cells without width, and a margin without room.
-/

namespace CodePane

namespace View

variable [CharWidths] {v : View}

/-! ## One move -/

theorem caret_moveByLines (v : View) (lines : Int) (extend : Bool) :
    (v.moveByLines lines extend).cursor.caret =
      v.positionAt ⟨Pixel.clamp (v.cursor.goal.getD (v.pixelOf v.cursor.caret).x),
        v.rowAfter lines⟩ := by
  cases extend <;> rfl

theorem goal_moveByLines (v : View) (lines : Int) (extend : Bool) :
    (v.moveByLines lines extend).cursor.goal =
      some (v.cursor.goal.getD (v.pixelOf v.cursor.caret).x) := by
  cases extend <;> rfl

/-- A move ends on the row of the line that one would count to. -/
theorem rowAfter_eq (hcaret : Text.Boundary v.text v.cursor.caret)
    (hheight : v.numLines * v.grid.rowPixels ≤ Pixel.greatest) (lines : Int) :
    v.rowAfter lines = v.grid.rowTop
      (min (Text.lineNumber v.text v.cursor.caret + lines).toNat (v.numLines - 1)) := by
  have hline : Text.lineNumber v.text v.cursor.caret < v.numLines :=
    Text.lineNumber_lt_numLines v.text v.cursor.caret
  have hlast : ((v.numLines - 1 : Nat) + 1 : Int) = v.numLines := by omega
  unfold rowAfter pixelOf
  rw [v.grid.pixelOf_eq hcaret]
  exact Grid.rowTop_move (by omega) (by rwa [hlast]) lines

end View

/-! ## Runs of moves -/

namespace Operation

/-- A vertical move, or an operation that changes only the window. -/
def KeepsGoal (op : Operation) : Prop :=
  op.movesWindow = true ∨ ∃ lines extend, op = .moveByLines lines extend

/-- The line to which an operation takes the caret, if `last` is the last one. -/
def lineAfter (last line : Nat) : Operation → Nat
  | .moveByLines lines _ => min (line + lines).toNat last
  | _ => line

theorem lineAfter_of_movesWindow {op : Operation} (h : op.movesWindow = true) (last line : Nat) :
    op.lineAfter last line = line := by
  cases op with
  | moveByLines _ _ => cases h
  | _ => rfl

end Operation

namespace View

section

variable [CharWidths] {v : View} {op : Operation} {ops : List Operation} {g : Grid} {text : Text}
  {line : Nat} {x : Int}

/-- The view shows `text` in grid `g`, its vertical moves aim at pixel column `x`, and the caret is
on line `line`. -/
structure Aims (g : Grid) (text : Text) (x : Int) (line : Nat) (v : View) : Prop where
  grid_eq : v.grid = g
  text_eq : v.text = text
  boundary : Text.Boundary text v.cursor.caret
  lineNumber_eq : Text.lineNumber text v.cursor.caret = line
  goal : v.cursor.goal.getD (g.pixelOf text v.cursor.caret).x = x

/-- In addition the caret is where the pixel column is on its line, as a move leaves it. -/
structure Arrived (g : Grid) (text : Text) (x : Int) (line : Nat) (v : View) : Prop
    extends Aims g text x line v where
  caret_eq : v.cursor.caret = g.positionAt text ⟨x, g.rowTop line⟩

theorem Aims.withWindow (h : v.Aims g text x line) (window : Window) :
    Aims g text x line { v with window } :=
  ⟨h.grid_eq, h.text_eq, h.boundary, h.lineNumber_eq, h.goal⟩

theorem RoomForMargin.perform (h : v.RoomForMargin) (hop : op.KeepsGoal) :
    (v.perform op).RoomForMargin := by
  rcases hop with hwindow | ⟨lines, extend, rfl⟩
  · obtain ⟨window, heq⟩ := v.exists_perform_eq hwindow
    rw [heq]
    exact h
  · exact h

theorem Aims.perform?_eq (h : v.Aims g text x line) (hlimits : v.InLimits)
    (hroom : v.RoomForMargin) (hpoint : 0 < g.cell.width ∨ x ≤ g.gutterPixels (Text.numLines text))
    (hop : op.KeepsGoal) : v.perform? op = some (v.perform op) := by
  rcases hop with hwindow | ⟨lines, extend, rfl⟩
  · refine hlimits.perform?_eq hroom (.inl hwindow) ?_
    rintro m rfl
    cases hwindow
  · obtain ⟨rfl, rfl, -, -, rfl⟩ := h
    exact hlimits.moveByLines?_eq hroom hpoint lines extend

section Run

variable (hheight : Text.numLines text * g.rowPixels ≤ Pixel.greatest) (hx : Pixel.clamp x = x)

include hheight hx

/-- A move goes to where its aim is on the line that one would count to, and keeps the aim. -/
theorem Aims.moveByLines (h : v.Aims g text x line) (lines : Int) (extend : Bool) :
    (v.moveByLines lines extend).Arrived g text x
      (min (line + lines).toNat (Text.numLines text - 1)) := by
  obtain ⟨rfl, rfl, hboundary, rfl, rfl⟩ := h
  have hline : min (Text.lineNumber v.text v.cursor.caret + lines).toNat
      (Text.numLines v.text - 1) < Text.numLines v.text := by
    have := Text.lineNumber_lt_numLines v.text v.cursor.caret
    omega
  have hcaret : (v.moveByLines lines extend).cursor.caret = v.positionAt
      ⟨v.cursor.goal.getD (v.pixelOf v.cursor.caret).x, v.grid.rowTop
        (min (Text.lineNumber v.text v.cursor.caret + lines).toNat (v.numLines - 1))⟩ := by
    rw [caret_moveByLines, rowAfter_eq hboundary hheight]
    exact congrArg (fun x => v.positionAt ⟨x, _⟩) hx
  refine ⟨⟨rfl, rfl, ?_, ?_, ?_⟩, hcaret⟩
  · rw [hcaret]
    exact Grid.boundary_positionAt v.grid v.text _
  · rw [hcaret]
    exact (Grid.lineNumber_positionAt v.grid v.text _).trans (Grid.lineAt_rowTop hline hheight)
  · rw [goal_moveByLines]
    rfl

theorem Aims.perform (h : v.Aims g text x line) (hop : op.KeepsGoal) :
    (v.perform op).Aims g text x (op.lineAfter (Text.numLines text - 1) line) := by
  rcases hop with hwindow | ⟨lines, extend, rfl⟩
  · obtain ⟨window, heq⟩ := v.exists_perform_eq hwindow
    rw [heq, Operation.lineAfter_of_movesWindow hwindow]
    exact h.withWindow window
  · exact (h.moveByLines hheight hx lines extend).toAims

theorem Arrived.perform (h : v.Arrived g text x line) (hop : op.KeepsGoal) :
    (v.perform op).Arrived g text x (op.lineAfter (Text.numLines text - 1) line) := by
  rcases hop with hwindow | ⟨lines, extend, rfl⟩
  · obtain ⟨window, heq⟩ := v.exists_perform_eq hwindow
    rw [heq, Operation.lineAfter_of_movesWindow hwindow]
    exact ⟨h.toAims.withWindow window, h.caret_eq⟩
  · exact h.toAims.moveByLines hheight hx lines extend

theorem Arrived.run (h : v.Arrived g text x line) (hops : ∀ op ∈ ops, op.KeepsGoal) :
    (v.run ops).Arrived g text x
      (ops.foldl (Operation.lineAfter (Text.numLines text - 1)) line) := by
  induction ops generalizing v line with
  | nil => exact h
  | cons op ops ih =>
    obtain ⟨hop, hrest⟩ := List.forall_mem_cons.mp hops
    exact ih (h.perform hheight hx hop) hrest

/-- The operations before the first move change only the window, and from there on the caret is
under the pixel column. -/
theorem Aims.run (h : v.Aims g text x line) (hops : ∀ op ∈ ops, op.KeepsGoal)
    (hmove : ∃ lines extend, .moveByLines lines extend ∈ ops) :
    (v.run ops).Arrived g text x
      (ops.foldl (Operation.lineAfter (Text.numLines text - 1)) line) := by
  induction ops generalizing v with
  | nil =>
    obtain ⟨_, _, hmem⟩ := hmove
    cases hmem
  | cons op ops ih =>
    obtain ⟨hop, hrest⟩ := List.forall_mem_cons.mp hops
    rcases hop with hwindow | ⟨lines, extend, rfl⟩
    · obtain ⟨lines, extend, hmem⟩ := hmove
      have hlater : .moveByLines lines extend ∈ ops := by
        refine (List.mem_cons.mp hmem).resolve_left fun heq => ?_
        rw [← heq] at hwindow
        cases hwindow
      obtain ⟨window, heq⟩ := v.exists_perform_eq hwindow
      have hstep := ih (h.withWindow window) hrest ⟨lines, extend, hlater⟩
      rwa [← heq, ← Operation.lineAfter_of_movesWindow hwindow _ line] at hstep
    · have hrun := (h.moveByLines hheight hx lines extend).run hheight hx hrest
      exact hrun

/-- No operation of a run fails, if there is room for the margin and the pixel column can be pointed
at. -/
theorem Aims.run?_eq (h : v.Aims g text x line) (hlimits : v.InLimits) (hroom : v.RoomForMargin)
    (hpoint : 0 < g.cell.width ∨ x ≤ g.gutterPixels (Text.numLines text))
    (hops : ∀ op ∈ ops, op.KeepsGoal) : v.run? ops = some (v.run ops) := by
  induction ops generalizing v line with
  | nil => rfl
  | cons op ops ih =>
    obtain ⟨hop, hrest⟩ := List.forall_mem_cons.mp hops
    rw [run?_cons, h.perform?_eq hlimits hroom hpoint hop, Option.bind_some]
    exact ih (h.perform hheight hx hop) (hlimits.perform op) (hroom.perform hop) hrest

end Run

/-- **Vertical moves keep the pixel column where the first of them began.** With room for the margin
beside the content no operation of a run fails. After some moves, and whatever scrolling in between,
the caret is where that column is on the line that one would count to, on whichever pixel of the
line's row one points at. On the line where the moves began it is back where it was, if cells have a
width and it can be pointed at. -/
theorem vertical_moves_keep_goal (h : v.Reachable) (hgoal : v.cursor.goal = none)
    (hheight : v.numLines * v.grid.rowPixels ≤ Pixel.greatest)
    (hwidth : v.grid.gutterPixels v.numLines + Grid.widestColumns v.text * v.grid.columnPixels +
      v.settings.scroll.horizontalMargin.toNat ≤ Pixel.greatest)
    (hops : ∀ op ∈ ops, op.KeepsGoal) (hmove : ∃ lines extend, .moveByLines lines extend ∈ ops) :
    let first := Text.lineNumber v.text v.cursor.caret
    let line := ops.foldl (Operation.lineAfter (v.numLines - 1)) first
    ∃ w, v.run? ops = some w ∧
      (∀ y, line * v.grid.rowPixels ≤ y → y < (line + 1) * v.grid.rowPixels →
        w.positionAt? ⟨(v.pixelOf v.cursor.caret).x, y⟩ = some w.cursor.caret) ∧
      (0 < v.grid.cell.width → line = first →
        (v.cursor.caret = Text.endOfLine v.text first ∨
          ∃ c, Text.codepointAt v.text v.cursor.caret = some c ∧ Text.charCells c.char ≠ 0) →
        w.cursor.caret = v.cursor.caret) := by
  intro first line
  have hboundary : Text.Boundary v.text v.cursor.caret := h.onBoundaries.caret
  have hcontent : v.grid.gutterPixels (Text.numLines v.text) +
      Grid.widestColumns v.text * v.grid.columnPixels ≤ Pixel.greatest := by
    unfold numLines at hwidth
    omega
  have hinside := (v.grid.pixelOf_inside v.text v.cursor.caret).1
  have hx : Pixel.clamp (v.pixelOf v.cursor.caret).x = (v.pixelOf v.cursor.caret).x :=
    Pixel.clamp_eq (Int.le_trans (by decide) hinside.1) hinside.2
  have haims : v.Aims v.grid v.text (v.pixelOf v.cursor.caret).x first :=
    ⟨rfl, rfl, hboundary, rfl, by rw [hgoal]; rfl⟩
  have hend : (v.run ops).Arrived v.grid v.text (v.pixelOf v.cursor.caret).x line :=
    haims.run hheight hx hops hmove
  have hline : line < Text.numLines v.text := by
    rw [← hend.lineNumber_eq]
    exact Text.lineNumber_lt_numLines v.text _
  have hpoint := v.grid.width_pos_or_pixelOf_x_le v.text v.cursor.caret
  have hroom : v.RoomForMargin := by
    have hmeasured := v.grid.contentWidth_le v.text hcontent
    unfold RoomForMargin
    rw [h.inLimits.measured]
    unfold numLines at hwidth
    omega
  refine ⟨v.run ops, haims.run?_eq hheight hx h.inLimits hroom hpoint hops,
    fun y htop hbottom => ?_, fun hcellWidth hback hcell => ?_⟩
  · rw [positionAt?_eq (by rw [numLines, hend.grid_eq, hend.text_eq]; exact hpoint), positionAt,
      hend.caret_eq, hend.grid_eq, hend.text_eq]
    exact congrArg some (Grid.positionAt_of_row hline hheight _ htop hbottom)
  · have htop : v.grid.rowTop line = (v.pixelOf v.cursor.caret).y := by
      rw [hback, pixelOf, v.grid.pixelOf_eq hboundary]
    rw [hend.caret_eq, htop]
    exact Grid.positionAt_pixelOf_self hcellWidth hboundary hheight hcontent hcell

end

/-- Down over a line that is too short, to the middle of a wide character and beyond the end, with
scrolling in between, and up again further than there are lines. -/
theorem vertical_moves_keep_goal_wide :
    let text : Text := [0x61, 0x62, 0x63, 0x64, 0x65, 0x0A, 0x78, 0x0A, 0xE4, 0xB8, 0xAD,
      0xE4, 0xB8, 0xAD]
    let v := (ofSettings {}).run [.load text .plain, .placeCaret 3]
    let down : List Operation := [.moveByLines 1 false, .resize 60 16, .moveByLines 7 true]
    let ops := down ++ [.key .pageUp ⟨false, true, false⟩,
      .turnWheel .backward ⟨false, false, false⟩, .moveByLines (-2 ^ 63) false]
    (v.run [.moveByLines 1 false]).cursor.caret = 7 ∧ (v.run down).cursor.caret = 11 ∧
      (v.run down).window.scroll.topLine = 2 ∧
      (v.run? ops).map (·.cursor.caret) = some 3 := by
  intro text v down ops
  have hreachable : v.Reachable := ⟨{}, _, rfl⟩
  have hops : ∀ op ∈ ops, op.KeepsGoal := by
    simp [ops, down, Operation.KeepsGoal, Operation.movesWindow, KeyAction.ofKey?,
      KeyAction.scrolls]
  have hmove : ∃ lines extend, .moveByLines lines extend ∈ ops := ⟨1, false, by simp [ops, down]⟩
  obtain ⟨w, hw, -, hback⟩ := vertical_moves_keep_goal hreachable (by decide +kernel)
    (by decide +kernel) (by decide +kernel) hops hmove
  refine ⟨by decide +kernel, by decide +kernel, by decide +kernel, ?_⟩
  rw [hw, Option.map_some, hback (by decide +kernel) (by decide +kernel)
    (.inr ⟨⟨'d', 1⟩, by decide +kernel, by decide +kernel⟩)]
  decide +kernel

/-- Among cells without width the end of a line is not found again, and with a margin that takes up
the whole range of pixels the first move fails: two lines of six letters, of which nothing leaves
the range. -/
theorem vertical_moves_lose_goal :
    let text : Text := [0x61, 0x62, 0x63, 0x64, 0x65, 0x66, 0x0A, 0x61, 0x62, 0x63, 0x64, 0x65,
      0x66]
    let narrow := (ofSettings {}).run
      [.load text .plain, .withCells ⟨0, 16, by decide⟩, .placeCaret 6]
    let wide := (ofSettings { scroll := { horizontalMargin := 2147483648 } }).run
      [.load text .plain, .resize 40 16, .placeCaret 3]
    (narrow.Reachable ∧ narrow.cursor.goal = none ∧
      narrow.numLines * narrow.grid.rowPixels ≤ Pixel.greatest ∧
      narrow.contentWidth = 0 ∧
      narrow.cursor.caret = Text.endOfLine text 0 ∧
      (narrow.run? [.moveByLines 1 false, .moveByLines (-1) false]).map (·.cursor.caret) =
        some 0) ∧
    (wide.Reachable ∧ wide.cursor.goal = none ∧
      wide.numLines * wide.grid.rowPixels ≤ Pixel.greatest ∧
      wide.contentWidth = 80 ∧
      (wide.run? [.moveByLines 1 false]).map (·.cursor.caret) = none) :=
  ⟨⟨⟨{}, _, rfl⟩, by decide +kernel, by decide +kernel, by decide +kernel, by decide +kernel,
      by decide +kernel⟩,
    ⟨{ scroll := { horizontalMargin := 2147483648 } }, _, rfl⟩, by decide +kernel,
    by decide +kernel, by decide +kernel, by decide +kernel⟩

end View

end CodePane

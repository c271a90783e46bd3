import CodePane.Proofs.History
import CodePane.Proofs.View.Goal
import CodePane.Text.WidthTable

/-!
# How long the goal of vertical moves is remembered

A vertical move remembers the pixel column that it aims at, for the vertical moves that follow. Not
all operations that place the caret elsewhere make the view forget it: steps, moves to an edge and
the button going down do, and so does a new text. Placing the caret, selecting, and dragging do not,
so the next vertical move goes back to a pixel column that has nothing to do with the caret.

1. `Operation.onGoal`, `View.goal_perform`: what an operation makes of the goal.
2. `Operation.Remembered`, `View.Began`: the goal, told from the operations of the past
   (`View.goal_eq_none_iff`, `View.goal_eq_some_iff`).
3. `View.Reachable.caret_moveByLines`: where a move ends.
4. `View.next_move_lands`: where a vertical move ends after any other operation.
-/

namespace CodePane

/-! ## What operations make of the goal -/

/-- What becomes of the goal. -/
inductive GoalEffect where
  | keeps
  | aims
  | forgets
  deriving DecidableEq, Repr

/-- Moves by lines aim at the goal, and moves of other kinds forget it. -/
def KeyAction.onGoal : KeyAction → GoalEffect
  | .line _ _ | .page _ _ => .aims
  | .step _ _ | .lineEdge _ _ | .textEdge _ _ => .forgets
  | .scrollPage _ | .everything => .keeps

/-- What an operation makes of the goal. -/
def Operation.onGoal : Operation → GoalEffect
  | .moveByLines _ _ | .moveByPage _ _ => .aims
  | .load _ _ | .stepCaret _ _ | .moveToEdge _ _ _ | .pointerDown _ => .forgets
  | .act a => a.onGoal
  | .key k m => (KeyAction.ofKey? k m).elim .keeps KeyAction.onGoal
  | _ => .keeps

theorem KeyAction.onGoal_of_scrolls {a : KeyAction} (h : a.scrolls = true) :
    a.onGoal = .keeps := by
  cases a with
  | scrollPage d => rfl
  | _ => cases h

theorem Operation.onGoal_of_movesWindow {op : Operation} (h : op.movesWindow = true) :
    op.onGoal = .keeps := by
  cases op with
  | act a => exact KeyAction.onGoal_of_scrolls h
  | key k m =>
    show (KeyAction.ofKey? k m).elim .keeps KeyAction.onGoal = .keeps
    cases hk : KeyAction.ofKey? k m with
    | none => rfl
    | some a =>
      have hscrolls : (KeyAction.ofKey? k m).all KeyAction.scrolls = true := h
      rw [hk] at hscrolls
      exact KeyAction.onGoal_of_scrolls hscrolls
  | resize _ _ | scrollToValue _ | scrollToPixel _ | scrollToLine _ | scrollToPosition _
  | reveal _ | scrollByLines _ | scrollByPixels _ | turnWheel _ _ | scrollByPage _
  | reportScroll => rfl
  | _ => cases h

theorem Cursor.goal_dragTo (c : Cursor) (pos : Nat) : (c.dragTo pos).goal = c.goal := by
  unfold dragTo
  split <;> rfl

namespace View

variable [CharWidths]

def ownColumn (v : View) : Int := (v.pixelOf v.cursor.caret).x

/-- The pixel column that the next vertical move aims at: the goal, or else the caret's own. -/
def aim (v : View) : Int := v.cursor.goal.getD v.ownColumn

def goalAfter (v : View) : GoalEffect → Option Int
  | .keeps => v.cursor.goal
  | .aims => some v.aim
  | .forgets => none

theorem goal_selectAndReveal (v : View) (a b : Nat) :
    (v.selectAndReveal a b).cursor.goal = v.cursor.goal := rfl

theorem goal_act (v : View) (a : KeyAction) : (v.act a).cursor.goal = v.goalAfter a.onGoal := by
  cases a with
  | line _ _ | page _ _ => exact v.goal_moveByLines _ _
  | step _ extend | lineEdge _ extend | textEdge _ extend => cases extend <;> rfl
  | scrollPage _ | everything => rfl

/-- **One operation**: the goal is kept, aimed at or forgotten. -/
theorem goal_perform (v : View) (op : Operation) :
    (v.perform op).cursor.goal = v.goalAfter op.onGoal := by
  by_cases hwindow : op.movesWindow = true
  · obtain ⟨window, heq⟩ := v.exists_perform_eq hwindow
    rw [heq, Operation.onGoal_of_movesWindow hwindow]
    rfl
  cases op with
  | moveByLines lines extend => exact v.goal_moveByLines lines extend
  | moveByPage d extend => exact v.goal_moveByLines _ extend
  | stepCaret _ extend | moveToEdge _ _ extend => cases extend <;> rfl
  | pointerMoved p =>
    show (v.pointerMoved p).cursor.goal = v.cursor.goal
    unfold pointerMoved
    split
    · exact v.cursor.goal_dragTo _
    · rfl
  | pointerUp p =>
    show (v.pointerUp p).cursor.goal = v.cursor.goal
    unfold pointerUp
    split
    · exact v.cursor.goal_dragTo _
    · rfl
  | act a => exact v.goal_act a
  | key k m =>
    show (((KeyAction.ofKey? k m).map v.act).getD v).cursor.goal =
      v.goalAfter ((KeyAction.ofKey? k m).elim .keeps KeyAction.onGoal)
    cases KeyAction.ofKey? k m with
    | none => rfl
    | some a => exact v.goal_act a
  | load _ _ | recolor _ | highlight _ | withCells _ | fitFont _ | showGutter _ | withTheme _ => rfl
  | placeCaret _ | selectBetween _ _ | selectAndReveal _ _ | selectEverything | deselect
  | pointerDown _ => rfl
  | selectWord pos => exact v.goal_selectAndReveal _ _
  | _ => exact absurd rfl hwindow

end View

/-! ## The goal, told from the past -/

/-- A vertical move was made, and nothing since made the view forget it. -/
def Operation.Remembered (past : List Operation) : Prop :=
  Since (fun op => op.onGoal ≠ .forgets) (fun _ op => op.onGoal = .aims) past

namespace View

section

variable [CharWidths] {start v : View}

/-- The vertical moves of the past that are remembered began at pixel column `x`: there the caret
was before the first of them. -/
def Began (start : View) (x : Int) (past : List Operation) : Prop :=
  Since (fun op => op.onGoal ≠ .forgets)
    (fun before op => op.onGoal = .aims ∧ ¬ Operation.Remembered before ∧
      (start.run before).ownColumn = x) past

theorem isSome_goal_iff (hstart : start.cursor.goal = none) (past : List Operation) :
    (start.run past).cursor.goal.isSome = true ↔ Operation.Remembered past := by
  have hnone : ¬ start.cursor.goal.isSome = true := by simp [hstart]
  have hstep (v : View) (op : Operation) : (v.perform op).cursor.goal.isSome = true ↔
      op.onGoal = .aims ∨ op.onGoal ≠ .forgets ∧ v.cursor.goal.isSome = true := by
    rw [v.goal_perform op]
    cases op.onGoal <;> simp [goalAfter]
  exact since_run (fun v : View => v.cursor.goal.isSome = true)
    (fun _ (op : Operation) => op.onGoal = .aims) hnone hstep past

theorem goal_eq_none_iff (hstart : start.cursor.goal = none) (past : List Operation) :
    (start.run past).cursor.goal = none ↔ ¬ Operation.Remembered past := by
  rw [← isSome_goal_iff hstart, Bool.not_eq_true, Option.isSome_eq_false_iff,
    Option.isNone_iff_eq_none]

theorem goal_perform_eq_some_iff (v : View) (op : Operation) (x : Int) :
    (v.perform op).cursor.goal = some x ↔
      (op.onGoal = .aims ∧ v.cursor.goal = none ∧ v.ownColumn = x) ∨
        op.onGoal ≠ .forgets ∧ v.cursor.goal = some x := by
  rw [v.goal_perform op]
  cases op.onGoal with
  | keeps => simp [goalAfter]
  | forgets => simp [goalAfter]
  | aims =>
    cases hgoal : v.cursor.goal <;> simp [goalAfter, aim, hgoal]

/-- **The goal is the pixel column where the vertical moves that are remembered began.** -/
theorem goal_eq_some_iff (hstart : start.cursor.goal = none) (past : List Operation) (x : Int) :
    (start.run past).cursor.goal = some x ↔ start.Began x past := by
  have hnone : ¬ start.cursor.goal = some x := by simp [hstart]
  have hrun := since_run (fun v : View => v.cursor.goal = some x)
    (fun v (op : Operation) => op.onGoal = .aims ∧ v.cursor.goal = none ∧ v.ownColumn = x)
    hnone (fun v op => v.goal_perform_eq_some_iff op x) past
  have hbefore (before : List Operation) :
      (before.foldl perform start).cursor.goal = none ↔ ¬ Operation.Remembered before :=
    goal_eq_none_iff hstart before
  simp only [hbefore] at hrun
  exact hrun

theorem Reachable.aim_inRange (h : v.Reachable) : 0 ≤ v.aim ∧ v.aim ≤ Pixel.greatest := by
  obtain ⟨s, past, rfl⟩ := h
  have hinside (w : View) : 0 ≤ w.ownColumn ∧ w.ownColumn ≤ Pixel.greatest :=
    (w.grid.pixelOf_inside w.text w.cursor.caret).1
  unfold aim
  cases hgoal : ((ofSettings s).run past).cursor.goal with
  | none => exact hinside _
  | some x =>
    have hbegan : (ofSettings s).Began x past := (goal_eq_some_iff rfl past x).mp hgoal
    obtain ⟨before, -, -, -, ⟨-, -, rfl⟩, -⟩ := hbegan
    exact hinside _

/-! ## Where a move ends -/

/-- A move ends where its aim is on the line that one would count to, on whichever pixel of the
line's row one points at. -/
theorem Reachable.caret_moveByLines (h : v.Reachable)
    (hheight : v.numLines * v.grid.rowPixels ≤ Pixel.greatest) (lines : Int) (extend : Bool)
    (y : Int) :
    let line := min (Text.lineNumber v.text v.cursor.caret + lines).toNat (v.numLines - 1)
    line * v.grid.rowPixels ≤ y → y < (line + 1) * v.grid.rowPixels →
      (v.moveByLines lines extend).cursor.caret = v.positionAt ⟨v.aim, y⟩ := by
  intro line htop hbottom
  have hfirst := Text.lineNumber_lt_numLines v.text v.cursor.caret
  have hline : line < Text.numLines v.text := by
    show min _ (Text.numLines v.text - 1) < Text.numLines v.text
    omega
  have hinside : Pixel.clamp v.aim = v.aim :=
    Pixel.clamp_eq (Int.le_trans (by decide) h.aim_inRange.1) h.aim_inRange.2
  calc (v.moveByLines lines extend).cursor.caret
      = v.positionAt ⟨Pixel.clamp v.aim, v.rowAfter lines⟩ := v.caret_moveByLines lines extend
    _ = v.positionAt ⟨v.aim, v.grid.rowTop line⟩ := by
      rw [hinside, rowAfter_eq h.onBoundaries.caret hheight]
    _ = v.positionAt ⟨v.aim, y⟩ := (Grid.positionAt_of_row hline hheight _ htop hbottom).symm

/-- **Where a vertical move ends after any other operation.** If the operation makes the view forget
its goal, or there was none, the caret stays in its own pixel column. Otherwise it goes to the
column where the earlier vertical moves began, wherever the operation has placed it meanwhile. -/
theorem next_move_lands (s : Settings) (past : List Operation) (op : Operation)
    (hop : op.onGoal ≠ .aims) (lines : Int) (extend : Bool) :
    let w := ((ofSettings s).run past).perform op
    let line := min (Text.lineNumber w.text w.cursor.caret + lines).toNat (w.numLines - 1)
    w.numLines * w.grid.rowPixels ≤ Pixel.greatest →
      ∃ x, (∀ y, line * w.grid.rowPixels ≤ y → y < (line + 1) * w.grid.rowPixels →
          (w.moveByLines lines extend).cursor.caret = w.positionAt ⟨x, y⟩) ∧
        (op.onGoal = .forgets ∨ ¬ Operation.Remembered past → x = w.ownColumn) ∧
        (op.onGoal = .keeps ∧ Operation.Remembered past → (ofSettings s).Began x past) := by
  intro w line hheight
  have hw : w = (ofSettings s).run (past ++ [op]) := (run_concat _ past op).symm
  have hreachable : w.Reachable := ⟨s, past ++ [op], hw⟩
  have hafter : w.cursor.goal = ((ofSettings s).run past).goalAfter op.onGoal := goal_perform _ op
  refine ⟨w.aim, fun y => hreachable.caret_moveByLines hheight lines extend y, fun hfree => ?_,
    fun ⟨hkeeps, hremembered⟩ => ?_⟩
  -- the operation forgets the goal, or keeps that there is none
  · have hnone : w.cursor.goal = none := by
      rw [hw, goal_eq_none_iff rfl, Operation.Remembered, since_concat]
      rintro (haims | ⟨hkept, hremembered⟩)
      · exact hop haims
      · exact hfree.elim hkept (fun hforgot => hforgot hremembered)
    rw [aim, hnone, Option.getD_none]
  -- the operation keeps the goal of the past
  · have hgoal : ((ofSettings s).run past).cursor.goal.isSome = true :=
      (isSome_goal_iff rfl past).mpr hremembered
    obtain ⟨x, hx⟩ := Option.isSome_iff_exists.mp hgoal
    have haim : w.aim = x := by
      rw [aim, hafter, hkeeps, goalAfter, hx, Option.getD_some]
    rw [haim]
    exact (goal_eq_some_iff rfl past x).mp hx

end

/-- During a drag the caret is moved down by a key, and the pointer takes it elsewhere: the next
move goes back under the column where the drag began. After a step it would not. -/
theorem next_move_lands_drag :
    let text : Text := [0x61, 0x62, 0x63, 0x0A, 0x61, 0x62, 0x63, 0x0A, 0x61, 0x62, 0x63]
    let past : List Operation := [.load text .plain, .resize 200 100, .pointerDown ⟨48, 0⟩,
      .key .down ⟨true, false, false⟩]
    let v := (ofSettings {}).run past
    Operation.Remembered past ∧ v.cursor.caret = 6 ∧ v.aim = 48 ∧
      ((v.perform (.pointerMoved ⟨32, 16⟩)).moveByLines 1 false).cursor.caret = 10 ∧
      ((v.perform (.stepCaret .backward true)).moveByLines 1 false).cursor.caret = 9 := by
  intro text past v
  have hgoal : v.cursor.goal = some 48 := by decide +kernel
  have hstart : (ofSettings {}).cursor.goal = none := rfl
  have hremembered : Operation.Remembered past :=
    (isSome_goal_iff hstart past).mp (Option.isSome_iff_exists.mpr ⟨48, hgoal⟩)
  obtain ⟨x, hdragged, -, hbegan⟩ := next_move_lands {} past (.pointerMoved ⟨32, 16⟩)
    (by decide) 1 false (by decide +kernel)
  have hx : x = 48 := by
    have hgoal' : v.cursor.goal = some x :=
      (goal_eq_some_iff hstart past x).mpr (hbegan ⟨rfl, hremembered⟩)
    exact Option.some.inj (hgoal'.symm.trans hgoal)
  obtain ⟨x', hstepped, hforgot, -⟩ := next_move_lands {} past (.stepCaret .backward true)
    (by decide) 1 false (by decide +kernel)
  refine ⟨hremembered, by decide +kernel, by decide +kernel, ?_, ?_⟩
  · rw [hdragged 32 (by decide +kernel) (by decide +kernel), hx]
    decide +kernel
  · rw [hstepped 32 (by decide +kernel) (by decide +kernel), hforgot (.inl rfl)]
    decide +kernel

/-- The caret is placed on the second line, after a move to it, one column from the line's start.
The next move does not go below that place but below where the first one began. -/
theorem next_move_stale :
    let text : Text := [0x61, 0x62, 0x63, 0x64, 0x65, 0x66, 0x0A, 0x61, 0x62, 0x63, 0x64, 0x65,
      0x66, 0x0A, 0x61, 0x62, 0x63, 0x64, 0x65, 0x66]
    let w := (ofSettings {}).run [.load text .plain, .resize 200 100, .placeCaret 3,
      .moveByLines 1 false, .placeCaret 8]
    w.Reachable ∧ w.numLines * w.grid.rowPixels ≤ Pixel.greatest ∧
      w.pixelOf w.cursor.caret = ⟨40, 16⟩ ∧ w.positionAt ⟨40, 32⟩ = 15 ∧
      (w.moveByLines 1 false).cursor.caret = 17 :=
  ⟨⟨{}, _, rfl⟩, by decide +kernel, by decide +kernel, by decide +kernel, by decide +kernel⟩

end View

end CodePane

import CodePane.Proofs.History
import CodePane.View.Operation

/-!
# Dragging and extending

A drag selects what moves of the caret over the same positions select when they extend. A drag keeps
its fixed end for itself, while each extending move finds it again: in the selection if that holds
something, else at the caret. And whatever else happens to the cursor, a drag goes on until it is
ended, always from the position where it began.

1. `CursorStep`, `Cursor.perform`, `Cursor.reply`: all that can happen to a cursor.
2. `Cursor.Spans`: the caret and the selection after a drag or extending moves (`Spans.dragTo`,
   `Spans.extend`).
3. `Cursor.Held`: a drag in progress, told from what happened (`Cursor.drag_eq_some_iff`).
4. `Cursor.drags_agree`: both.
-/

namespace CodePane

/-! ## What can happen to a cursor -/

/-- One step of a cursor. -/
inductive CursorStep where
  | reset
  | move (pos : Nat) (extend : Bool)
  | beginDrag (pos : Nat)
  | dragTo (pos : Nat)
  | endDrag (pos : Option Nat)
  | selectSpan (a b : Nat) (setAnchor : Bool)
  | deselect
  | place (pos : Nat)
  | aimAt (x : Int)
  | forgetGoal
  deriving DecidableEq, Repr

/-- The step begins a drag, or ends one by a release or by a fresh start. -/
def CursorStep.changesDrag : CursorStep → Bool
  | .reset | .beginDrag _ | .endDrag _ => true
  | _ => false

namespace Cursor

variable {c : Cursor} {anchor pos : Nat}

def perform (c : Cursor) : CursorStep → Cursor
  | .reset => initial
  | .move pos extend => c.move pos extend
  | .beginDrag pos => c.beginDrag pos
  | .dragTo pos => c.dragTo pos
  | .endDrag pos => c.endDrag pos
  | .selectSpan a b setAnchor => c.selectSpan a b setAnchor
  | .deselect => c.deselect
  | .place pos => c.place pos
  | .aimAt x => c.aimAt x
  | .forgetGoal => c.forgetGoal

/-- What a step answers: one that continues a drag, whether there is one. -/
def reply (c : Cursor) : CursorStep → Reply
  | .dragTo _ => .done c.dragging
  | _ => .nothing

def run (c : Cursor) (steps : List CursorStep) : Cursor := steps.foldl perform c

theorem dragTo_eq (h : c.drag = some anchor) (q : Nat) :
    c.dragTo q = { c with caret := q, selection := .ofEnds anchor q } := by
  unfold dragTo
  rw [h]

theorem dragTo_of_not_dragging (h : c.dragging = false) (q : Nat) : c.dragTo q = c := by
  have hdrag : c.drag = none := by simpa [dragging] using h
  unfold dragTo
  rw [hdrag]

theorem perform_pointerMoved [CharWidths] (v : View) (p : Point) :
    let step : CursorStep := .dragTo (v.windowPositionAt p)
    (v.pointerMoved p).cursor = v.cursor.perform step ∧
      v.reply (.pointerMoved p) = v.cursor.reply step := by
  refine ⟨?_, rfl⟩
  unfold View.pointerMoved
  split
  · rfl
  · next hfree =>
    exact (dragTo_of_not_dragging (Bool.not_eq_true _ ▸ hfree) _).symm

/-! ## From a fixed end to the caret -/

/-- The caret is at `pos`, and all between `anchor` and it is selected. -/
structure Spans (anchor pos : Nat) (c : Cursor) : Prop where
  caret : c.caret = pos
  selection : c.selection = .ofEnds anchor pos

theorem emptyAt_eq_ofEnds (pos : Nat) : Selection.emptyAt pos = .ofEnds pos pos := by
  simp [Selection.ofEnds, Selection.emptyAt]

theorem spans_beginDrag (c : Cursor) (pos : Nat) : (c.beginDrag pos).Spans pos pos :=
  ⟨rfl, emptyAt_eq_ofEnds pos⟩

theorem spans_move (c : Cursor) (pos : Nat) : (c.move pos false).Spans pos pos :=
  ⟨rfl, emptyAt_eq_ofEnds pos⟩

/-- An extending move finds the fixed end again: nothing is selected only if the caret is there. -/
theorem Spans.extend (h : c.Spans anchor pos) (q : Nat) : (c.move q true).Spans anchor q := by
  refine ⟨rfl, ?_⟩
  show Selection.ofEnds (if c.selection.active then c.selection.anchor else c.caret) q =
    .ofEnds anchor q
  rw [h.selection, h.caret]
  split
  · rfl
  · next hempty =>
    have heq : anchor = pos := by simpa [Selection.ofEnds] using hempty
    rw [heq]

theorem Spans.extendAll (h : c.Spans anchor pos) (qs : List Nat) :
    (c.run (qs.map (.move · true))).Spans anchor (qs.getLastD pos) := by
  induction qs generalizing c pos with
  | nil => exact h
  | cons q qs ih =>
    rw [List.getLastD_cons]
    exact ih (h.extend q)

theorem Spans.dragAll (hdrag : c.drag = some anchor) (h : c.Spans anchor pos) (qs : List Nat) :
    (c.run (qs.map .dragTo)).Spans anchor (qs.getLastD pos) := by
  induction qs generalizing c pos with
  | nil => exact h
  | cons q qs ih =>
    have hstep : c.dragTo q = { c with caret := q, selection := .ofEnds anchor q } :=
      dragTo_eq hdrag q
    rw [List.getLastD_cons]
    show ((c.dragTo q).run (qs.map .dragTo)).Spans anchor (qs.getLastD q)
    rw [hstep]
    exact ih hdrag ⟨rfl, rfl⟩

/-! ## A drag in progress -/

/-- A drag was begun at `anchor`, and since then none was begun or ended. -/
def Held (anchor : Nat) (steps : List CursorStep) : Prop :=
  Since (·.changesDrag = false) (fun _ step => step = .beginDrag anchor) steps

theorem drag_perform_of_keeps {step : CursorStep} (c : Cursor)
    (hkeep : step.changesDrag = false) : (c.perform step).drag = c.drag := by
  cases step with
  | move pos extend => cases extend <;> rfl
  | dragTo pos =>
    show (c.dragTo pos).drag = c.drag
    unfold dragTo
    split <;> rfl
  | reset | beginDrag _ | endDrag _ => cases hkeep
  | _ => rfl

/-- One step: the fixed end of a drag is where it began, or what it was before. -/
theorem drag_perform (c : Cursor) (step : CursorStep) (anchor : Nat) :
    (c.perform step).drag = some anchor ↔
      step = .beginDrag anchor ∨ step.changesDrag = false ∧ c.drag = some anchor := by
  cases hkeep : step.changesDrag with
  | false =>
    have hother : step ≠ .beginDrag anchor := by
      rintro rfl
      cases hkeep
    rw [c.drag_perform_of_keeps hkeep]
    simp [hother]
  | true =>
    cases step with
    | beginDrag pos => simp [perform, beginDrag]
    | reset | endDrag _ => simp [perform, initial, endDrag]
    | _ => cases hkeep

/-- **A drag in progress is the latest one that was begun, unless it was ended.** -/
theorem drag_eq_some_iff (steps : List CursorStep) (anchor : Nat) :
    (initial.run steps).drag = some anchor ↔ Held anchor steps :=
  have hstart : initial.drag ≠ some anchor := (Option.some_ne_none anchor).symm
  have hstep (c : Cursor) (step : CursorStep) := c.drag_perform step anchor
  since_run (fun c : Cursor => c.drag = some anchor)
    (fun _ (step : CursorStep) => step = .beginDrag anchor) hstart hstep steps

theorem dragging_iff (steps : List CursorStep) :
    (initial.run steps).dragging = true ↔ ∃ anchor, Held anchor steps := by
  unfold dragging
  simp only [Option.isSome_iff_exists, drag_eq_some_iff]

/-! ## Drags and extending moves -/

/-- **A drag and extending moves over the same positions end alike**, from any cursor: the caret is
at the last position, and all from the first one to it is selected. And after whatever steps, a move
of the pointer is answered with yes exactly if a drag was begun that was neither ended nor followed
by another one. Then it selects from where that drag began, and otherwise it changes nothing. -/
theorem drags_agree :
    (∀ (c : Cursor) (p : Nat) (qs : List Nat),
      let last := qs.getLastD p
      let dragged := c.run (.beginDrag p :: qs.map .dragTo ++ [.endDrag (some last)])
      let moved := c.run (.move p false :: qs.map (.move · true))
      dragged.caret = last ∧ moved.caret = last ∧
        dragged.selection = ⟨p, min p last, max p last, p != last⟩ ∧
        moved.selection = ⟨p, min p last, max p last, p != last⟩) ∧
    ∀ (steps : List CursorStep) (q : Nat),
      let c := initial.run steps
      (c.reply (.dragTo q) = .done true ↔ ∃ anchor, Held anchor steps) ∧
        (∀ anchor, Held anchor steps → (c.perform (.dragTo q)).caret = q ∧
          (c.perform (.dragTo q)).selection = .ofEnds anchor q) ∧
        ((∀ anchor, ¬ Held anchor steps) →
          c.reply (.dragTo q) = .done false ∧ c.perform (.dragTo q) = c) := by
  constructor
  · intro c p qs last dragged moved
    have hdragged := (c.spans_beginDrag p).dragAll rfl qs
    have hmoved := (c.spans_move p).extendAll qs
    -- the caret is at the last position already when the drag ends
    have hend : dragged = ((c.beginDrag p).run (qs.map .dragTo)).endDrag (some last) :=
      List.foldl_append
    refine ⟨by rw [hend]; rfl, hmoved.caret, ?_, hmoved.selection⟩
    rw [hend]
    exact hdragged.selection
  · intro steps q c
    refine ⟨?_, fun anchor hheld => ?_, fun hfree => ?_⟩
    · rw [← dragging_iff]
      simp [reply, c]
    · have hdrag : c.drag = some anchor := (drag_eq_some_iff steps anchor).mpr hheld
      show (c.dragTo q).caret = q ∧ (c.dragTo q).selection = .ofEnds anchor q
      rw [dragTo_eq hdrag]
      exact ⟨rfl, rfl⟩
    · have hdrag : c.dragging = false := by
        refine Bool.eq_false_iff.mpr fun hdrag => ?_
        obtain ⟨anchor, hheld⟩ := (dragging_iff steps).mp hdrag
        exact hfree anchor hheld
      exact ⟨congrArg Reply.done hdrag, dragTo_of_not_dragging hdrag q⟩

/-- The fixed end of a drag stays where it began, also when moves and selections contradict it. -/
theorem drags_agree_contradicted :
    let c : Cursor := ⟨9, ⟨1, 2, 5, true⟩, some 4, some 7⟩
    let steps : List CursorStep :=
      [.beginDrag 4, .dragTo 6, .move 2 true, .selectSpan 1 3 true, .deselect, .place 8, .aimAt 5]
    (c.run [.beginDrag 3, .dragTo 5, .dragTo 3, .dragTo 1, .endDrag (some 1)]).selection =
        ⟨3, 1, 3, true⟩ ∧
      (c.run [.move 3 false, .move 5 true, .move 3 true, .move 1 true]).selection =
        ⟨3, 1, 3, true⟩ ∧
      ((initial.run steps).perform (.dragTo 2)).selection = ⟨4, 2, 4, true⟩ ∧
      (initial.run (steps ++ [.endDrag none])).reply (.dragTo 2) = .done false := by
  intro c steps
  obtain ⟨-, -, hdragged, hmoved⟩ := drags_agree.1 c 3 [5, 3, 1]
  have hheld : Held 4 steps := (drag_eq_some_iff steps 4).mp rfl
  have hfree : ∀ anchor, ¬ Held anchor (steps ++ [.endDrag none]) := fun anchor hheld =>
    absurd ((drag_eq_some_iff _ anchor).mpr hheld) (Option.some_ne_none anchor).symm
  obtain ⟨-, hselects, -⟩ := drags_agree.2 steps 2
  obtain ⟨-, -, hends⟩ := drags_agree.2 (steps ++ [.endDrag none]) 2
  exact ⟨hdragged, hmoved, (hselects 4 hheld).2, (hends hfree).1⟩

end Cursor

end CodePane

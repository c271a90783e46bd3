import CodePane.View.Operation

/-!
# Scrolling and moving the caret leave what is shown alone

Few operations change what a view shows and how it is laid out. All others change the window and the
cursor at most, and those that scroll change only the window, so whatever reads neither of them is
the same after as before.

1. `Operation.movesWindow`, `View.exists_perform_eq`: the operations that change only the window.
2. `View.subject`: a view without its window and its cursor.
3. `Operation.changesSubject`, `View.subject_perform`: the operations that leave the subject alone.
-/

namespace CodePane

/-! ## Operations that change only the window -/

/-- The action scrolls and leaves the caret where it is. -/
def KeyAction.scrolls : KeyAction → Bool
  | .scrollPage _ => true
  | _ => false

/-- The operations that scroll or give the window another size, or do nothing. -/
def Operation.movesWindow : Operation → Bool
  | .resize _ _ | .scrollToValue _ | .scrollToPixel _ | .scrollToLine _ | .scrollToPosition _
  | .reveal _ | .scrollByLines _ | .scrollByPixels _ | .turnWheel _ _ | .scrollByPage _
  | .reportScroll => true
  | .act a => a.scrolls
  | .key k m => (KeyAction.ofKey? k m).all KeyAction.scrolls
  | _ => false

namespace View

theorem exists_scrollByPixels_eq (v : View) (delta : Int) :
    ∃ window, v.scrollByPixels delta = { v with window } := by
  unfold scrollByPixels
  split
  · exact ⟨v.window, rfl⟩
  · exact ⟨_, rfl⟩

theorem exists_turnWheel_eq (v : View) (d : Direction) (m : Modifiers) :
    ∃ window, v.turnWheel d m = { v with window } := by
  unfold turnWheel
  simp only
  split
  · exact v.exists_scrollByPixels_eq _
  · exact ⟨_, rfl⟩

variable [CharWidths] {op : Operation}

theorem exists_act_eq (v : View) {a : KeyAction} (h : a.scrolls = true) :
    ∃ window, v.act a = { v with window } := by
  cases a with
  | scrollPage d => exact ⟨_, rfl⟩
  | _ => cases h

theorem exists_key_eq (v : View) {k : Key} {m : Modifiers}
    (h : (KeyAction.ofKey? k m).all KeyAction.scrolls = true) :
    ∃ window, v.perform (.key k m) = { v with window } := by
  show ∃ window, ((KeyAction.ofKey? k m).map v.act).getD v = { v with window }
  cases hk : KeyAction.ofKey? k m with
  | none => exact ⟨v.window, rfl⟩
  | some a =>
    rw [hk] at h
    exact v.exists_act_eq h

/-- **Scrolling and giving the window another size change only the window.** -/
theorem exists_perform_eq (v : View) (h : op.movesWindow = true) :
    ∃ window, v.perform op = { v with window } := by
  cases op with
  | scrollByPixels delta => exact v.exists_scrollByPixels_eq delta
  | turnWheel d m => exact v.exists_turnWheel_eq d m
  | act a => exact v.exists_act_eq h
  | key k m => exact v.exists_key_eq h
  | resize _ _ | scrollToValue _ | scrollToPixel _ | scrollToLine _ | scrollToPosition _
  | reveal _ | scrollByLines _ | scrollByPage _ | reportScroll => exact ⟨_, rfl⟩
  | _ => cases h

end View

/-! ## Operations that leave the subject alone -/

/-- What a view shows and how: all of it but the window and the cursor. -/
def View.subject (v : View) : View := { v with window := .ofSize 0 0, cursor := .initial }

/-- The operations that change the text, the tokens, the cells, the gutter or the colours. -/
def Operation.changesSubject : Operation → Bool
  | .load _ _ | .recolor _ | .highlight _ | .withCells _ | .fitFont _ | .showGutter _
  | .withTheme _ => true
  | _ => false

namespace View

variable [CharWidths] {op : Operation}

theorem subject_pointerMoved (v : View) (p : Point) : (v.pointerMoved p).subject = v.subject := by
  unfold pointerMoved
  split <;> rfl

theorem subject_pointerUp (v : View) (p : Point) : (v.pointerUp p).subject = v.subject := by
  unfold pointerUp
  split <;> rfl

theorem subject_act (v : View) (a : KeyAction) : (v.act a).subject = v.subject := by
  cases a <;> rfl

theorem subject_key (v : View) (k : Key) (m : Modifiers) :
    (v.perform (.key k m)).subject = v.subject := by
  show (((KeyAction.ofKey? k m).map v.act).getD v).subject = v.subject
  cases KeyAction.ofKey? k m with
  | none => rfl
  | some a => exact v.subject_act a

/-- **All other operations change the window and the cursor at most.** -/
theorem subject_perform (v : View) (hop : op.changesSubject = false) :
    (v.perform op).subject = v.subject := by
  by_cases hwindow : op.movesWindow = true
  · obtain ⟨window, heq⟩ := v.exists_perform_eq hwindow
    rw [heq]
    rfl
  cases op with
  | load _ _ | recolor _ | highlight _ | withCells _ | fitFont _ | showGutter _ | withTheme _ =>
    cases hop
  | resize _ _ | scrollToValue _ | scrollToPixel _ | scrollToLine _ | scrollToPosition _
  | reveal _ | scrollByLines _ | scrollByPixels _ | turnWheel _ _ | scrollByPage _
  | reportScroll => exact absurd rfl hwindow
  | pointerMoved p => exact v.subject_pointerMoved p
  | pointerUp p => exact v.subject_pointerUp p
  | act a => exact v.subject_act a
  | key k m => exact v.subject_key k m
  | placeCaret _ | selectBetween _ _ | selectAndReveal _ _ | selectEverything | deselect
  | selectWord _ | stepCaret _ _ | moveByLines _ _ | moveToEdge _ _ _ | moveByPage _ _
  | pointerDown _ => rfl

end View

end CodePane

import CodePane.Proofs.Text.Boundary
import CodePane.Proofs.View.Subject
import CodePane.Text.WidthTable

/-!
# Every position of a view is a boundary

The operations place the caret, the ends of the selection and the fixed end of a drag by several
routes: snapping, widening to whole codepoints, hit testing, steps and line edges. All of them end
at boundaries of the text, and the fixed ends that an operation keeps are positions the cursor
already had.

1. `Cursor.Within`: all positions of a cursor satisfy a predicate.
2. `Cursor.Within.move`, ..., `Cursor.Within.selectSpan`: what the operations on cursors keep.
3. `View.OnBoundaries.perform`, `View.OnBoundaries.run`: one operation, and all of a run.
4. `View.positions_are_boundaries`: what holds of every view that can be reached.
-/

namespace CodePane

/-! ## Cursors whose positions satisfy a predicate -/

/-- The positions of a selection satisfy `P`, its ends are in order, and it is marked as active
exactly when it holds something. -/
structure Selection.Within (P : Nat → Prop) (s : Selection) : Prop where
  anchor : P s.anchor
  start : P s.start
  stop : P s.stop
  ordered : s.start ≤ s.stop
  active_iff : s.active = true ↔ s.start < s.stop

/-- The positions of a cursor satisfy `P`. -/
structure Cursor.Within (P : Nat → Prop) (c : Cursor) : Prop where
  caret : P c.caret
  selection : c.selection.Within P
  drag : ∀ anchor, c.drag = some anchor → P anchor

variable {P Q : Nat → Prop}

namespace Selection.Within

theorem emptyAt {pos : Nat} (h : P pos) : (emptyAt pos).Within P where
  anchor := h
  start := h
  stop := h
  ordered := Nat.le_refl pos
  active_iff := by simp [Selection.emptyAt]

theorem ofEnds {anchor pos : Nat} (hanchor : P anchor) (hpos : P pos) :
    (ofEnds anchor pos).Within P where
  anchor := hanchor
  start := by
    show P (min anchor pos)
    rcases Nat.le_total anchor pos with h | h
    · rwa [Nat.min_eq_left h]
    · rwa [Nat.min_eq_right h]
  stop := by
    show P (max anchor pos)
    rcases Nat.le_total anchor pos with h | h
    · rwa [Nat.max_eq_right h]
    · rwa [Nat.max_eq_left h]
  ordered := by
    show min anchor pos ≤ max anchor pos
    omega
  active_iff := active_ofEnds anchor pos

theorem imp {s : Selection} (h : s.Within P) (himp : ∀ pos, P pos → Q pos) : s.Within Q where
  anchor := himp _ h.anchor
  start := himp _ h.start
  stop := himp _ h.stop
  ordered := h.ordered
  active_iff := h.active_iff

end Selection.Within

namespace Cursor.Within

variable {c : Cursor} {pos : Nat}

theorem initial (h : P 0) : Cursor.initial.Within P where
  caret := h
  selection := .emptyAt h
  drag := by simp [Cursor.initial]

theorem imp (h : c.Within P) (himp : ∀ pos, P pos → Q pos) : c.Within Q where
  caret := himp _ h.caret
  selection := h.selection.imp himp
  drag anchor hanchor := himp _ (h.drag anchor hanchor)

theorem aimAt (h : c.Within P) (x : Int) : (c.aimAt x).Within P :=
  ⟨h.caret, h.selection, h.drag⟩

theorem forgetGoal (h : c.Within P) : c.forgetGoal.Within P := ⟨h.caret, h.selection, h.drag⟩

theorem place (h : c.Within P) (hpos : P pos) : (c.place pos).Within P :=
  ⟨hpos, h.selection, h.drag⟩

theorem deselect (h : c.Within P) : c.deselect.Within P := ⟨h.caret, .emptyAt h.caret, h.drag⟩

theorem move (h : c.Within P) (hpos : P pos) (extend : Bool) : (c.move pos extend).Within P := by
  unfold Cursor.move
  split
  · refine ⟨hpos, .ofEnds ?_ hpos, h.drag⟩
    split
    · exact h.selection.anchor
    · exact h.caret
  · exact ⟨hpos, .emptyAt hpos, h.drag⟩

theorem beginDrag (hpos : P pos) : (c.beginDrag pos).Within P where
  caret := hpos
  selection := .emptyAt hpos
  drag _ hanchor := Option.some.inj hanchor ▸ hpos

theorem dragTo (h : c.Within P) (hpos : P pos) : (c.dragTo pos).Within P := by
  unfold Cursor.dragTo
  split
  · next anchor hanchor => exact ⟨hpos, .ofEnds (h.drag anchor hanchor) hpos, h.drag⟩
  · exact h

theorem endDrag (h : c.Within P) (hpos : P pos) : (c.endDrag (some pos)).Within P where
  caret := hpos
  selection := h.selection
  drag _ hanchor := by simp [Cursor.endDrag] at hanchor

/-- Whether the fixed end is set or kept, it is a position the cursor has or gets. -/
theorem selectSpan (h : c.Within P) {a b : Nat} (ha : P a) (hb : P b) (setAnchor : Bool) :
    (c.selectSpan a b setAnchor).Within P := by
  have hends := Selection.Within.ofEnds ha hb
  refine ⟨hends.stop, ⟨?_, hends.start, hends.stop, hends.ordered, ?_⟩, h.drag⟩
  · show P (if setAnchor then min a b else c.selection.anchor)
    split
    · exact hends.start
    · exact h.selection.anchor
  · exact decide_eq_true_iff

end Cursor.Within

/-! ## Hit testing -/

theorem Grid.mem_of_codepointReaching [CharWidths] {target column pos : Nat}
    {list : List (Nat × Codepoint)}
    (h : codepointReaching target column list = some pos) : ∃ c, (pos, c) ∈ list := by
  induction list generalizing column with
  | nil => simp [codepointReaching] at h
  | cons head rest ih =>
    obtain ⟨first, c⟩ := head
    simp only [codepointReaching] at h
    split at h
    · obtain rfl := Option.some.inj h
      exact ⟨c, List.mem_cons_self⟩
    · obtain ⟨d, hd⟩ := ih h
      exact ⟨d, List.mem_cons_of_mem _ hd⟩

theorem Grid.boundary_positionAt [CharWidths] (g : Grid) (text : Text) (p : Point) :
    Text.Boundary text (g.positionAt text p) := by
  unfold Grid.positionAt
  simp only
  cases hreach : codepointReaching (g.columnAt text p.x) 0
      (Text.codepoints text (Text.startOfLine text (g.lineAt text p.y))
        (Text.endOfLine text (g.lineAt text p.y))) with
  | none => exact Text.boundary_endOfLine text _
  | some pos =>
    obtain ⟨c, hc⟩ := Grid.mem_of_codepointReaching hreach
    exact Text.boundary_of_mem_codepoints (Text.boundary_startOfLine text _) hc

namespace View

/-! ## The cursor of a view -/

/-- The positions of the cursor are boundaries of the text. -/
def OnBoundaries (v : View) : Prop := v.cursor.Within (Text.Boundary v.text)

theorem boundary_snapSpan_fst (v : View) (a b : Nat) : Text.Boundary v.text (v.snapSpan a b).1 :=
  Text.boundary_floorBoundary v.text _

theorem boundary_snapSpan_snd (v : View) (a b : Nat) : Text.Boundary v.text (v.snapSpan a b).2 :=
  Text.boundary_ceilBoundary v.text _

theorem OnBoundaries.selectBetween {v : View} (h : v.OnBoundaries) (a b : Nat) :
    (v.selectBetween a b).OnBoundaries :=
  h.selectSpan (boundary_snapSpan_fst v a b) (boundary_snapSpan_snd v a b) false

theorem OnBoundaries.selectEverything {v : View} (h : v.OnBoundaries) :
    v.selectEverything.OnBoundaries :=
  h.selectSpan .zero (Text.boundary_length v.text) true

section

variable [CharWidths] {v : View}

theorem boundary_windowPositionAt (v : View) (p : Point) :
    Text.Boundary v.text (v.windowPositionAt p) :=
  Grid.boundary_positionAt v.grid v.text _

namespace OnBoundaries

/-! ## Operations on the cursor -/

theorem selectAndReveal (h : v.OnBoundaries) (a b : Nat) :
    (v.selectAndReveal a b).OnBoundaries :=
  h.selectSpan (boundary_snapSpan_fst v a b) (boundary_snapSpan_snd v a b) true

theorem moveAndReveal (h : v.OnBoundaries) {pos : Nat} (hpos : Text.Boundary v.text pos)
    (extend : Bool) : (v.moveAndReveal pos extend).OnBoundaries :=
  h.move hpos extend

theorem stepCaret (h : v.OnBoundaries) (d : Direction) (extend : Bool) :
    (v.stepCaret d extend).OnBoundaries := by
  have hforget : v.forgetGoal.OnBoundaries := Cursor.Within.forgetGoal h
  unfold View.stepCaret
  apply hforget.moveAndReveal
  cases d with
  | backward => exact h.caret.stepBack
  | forward => exact h.caret.stepForward

theorem moveByLines (h : v.OnBoundaries) (lines : Int) (extend : Bool) :
    (v.moveByLines lines extend).OnBoundaries := by
  have haim (x : Int) : OnBoundaries { v with cursor := v.cursor.aimAt x } :=
    Cursor.Within.aimAt h x
  unfold View.moveByLines
  apply (haim _).moveAndReveal
  exact Grid.boundary_positionAt v.grid v.text _

theorem moveToEdge (h : v.OnBoundaries) (d : Direction) (whole extend : Bool) :
    (v.moveToEdge d whole extend).OnBoundaries := by
  have hforget : v.forgetGoal.OnBoundaries := Cursor.Within.forgetGoal h
  unfold View.moveToEdge
  apply hforget.moveAndReveal
  cases whole <;> cases d
  · exact Text.boundary_startOfLine v.text _
  · exact Text.boundary_endOfLine v.text _
  · exact .zero
  · exact Text.boundary_length v.text

theorem pointerDown (v : View) (p : Point) : (v.pointerDown p).OnBoundaries :=
  Cursor.Within.beginDrag (c := v.cursor) (boundary_windowPositionAt v p)

theorem pointerMoved (h : v.OnBoundaries) (p : Point) : (v.pointerMoved p).OnBoundaries := by
  unfold View.pointerMoved
  split
  · exact h.dragTo (boundary_windowPositionAt v p)
  · exact h

theorem pointerUp (h : v.OnBoundaries) (p : Point) : (v.pointerUp p).OnBoundaries := by
  have hpos := boundary_windowPositionAt v p
  unfold View.pointerUp
  split
  · exact (h.dragTo hpos).endDrag hpos
  · exact h

theorem act (h : v.OnBoundaries) (a : KeyAction) : (v.act a).OnBoundaries := by
  cases a with
  | step d extend => exact h.stepCaret d extend
  | line d extend => exact h.moveByLines _ extend
  | lineEdge d extend => exact h.moveToEdge d false extend
  | textEdge d extend => exact h.moveToEdge d true extend
  | page d extend => exact h.moveByLines _ extend
  | scrollPage d => exact h
  | everything => exact h.selectEverything

theorem key (h : v.OnBoundaries) (k : Key) (m : Modifiers) :
    (v.perform (.key k m)).OnBoundaries := by
  show (((KeyAction.ofKey? k m).map v.act).getD v).OnBoundaries
  cases KeyAction.ofKey? k m with
  | none => exact h
  | some a => exact h.act a

/-! ## Runs -/

/-- One operation: a new text comes with a cursor at its start, scrolling and layout touch neither
text nor cursor, and all others go to boundaries. -/
theorem perform (h : v.OnBoundaries) (op : Operation) : (v.perform op).OnBoundaries := by
  by_cases hwindow : op.movesWindow = true
  · obtain ⟨window, heq⟩ := v.exists_perform_eq hwindow
    rw [heq]
    exact h
  cases op with
  | load text kind => exact Cursor.Within.initial .zero
  | recolor _ | highlight _ | withCells _ | fitFont _ | showGutter _ | withTheme _ => exact h
  | resize _ _ | scrollToValue _ | scrollToPixel _ | scrollToLine _ | scrollToPosition _
  | reveal _ | scrollByLines _ | scrollByPixels _ | turnWheel _ _ | scrollByPage _
  | reportScroll => exact absurd rfl hwindow
  | placeCaret pos => exact h.place (Text.boundary_floorBoundary v.text pos)
  | selectBetween a b => exact h.selectBetween a b
  | selectAndReveal a b => exact h.selectAndReveal a b
  | selectEverything => exact h.selectEverything
  | deselect => exact Cursor.Within.deselect h
  | selectWord pos => exact h.selectAndReveal _ _
  | stepCaret d extend => exact h.stepCaret d extend
  | moveByLines lines extend => exact h.moveByLines lines extend
  | moveToEdge d whole extend => exact h.moveToEdge d whole extend
  | moveByPage d extend => exact h.moveByLines _ extend
  | pointerDown p => exact pointerDown v p
  | pointerMoved p => exact h.pointerMoved p
  | pointerUp p => exact h.pointerUp p
  | act a => exact h.act a
  | key k m => exact h.key k m

theorem run (h : v.OnBoundaries) (ops : List Operation) : (v.run ops).OnBoundaries := by
  induction ops generalizing v with
  | nil => exact h
  | cons op ops ih => exact ih (h.perform op)

end OnBoundaries

theorem Reachable.onBoundaries (h : v.Reachable) : v.OnBoundaries := by
  obtain ⟨s, ops, rfl⟩ := h
  have hstart : (ofSettings s).OnBoundaries := Cursor.Within.initial .zero
  exact hstart.run ops

/-- **The caret, the ends of the selection and the fixed end of a drag are always boundaries of the
text, hence inside it; the selection is in order and active exactly when it holds something.** -/
theorem positions_are_boundaries (h : v.Reachable) :
    v.cursor.Within fun pos => Text.Boundary v.text pos ∧ pos ≤ v.text.length := by
  obtain ⟨s, ops, rfl⟩ := h
  have hstart : (ofSettings s).OnBoundaries := Cursor.Within.initial .zero
  exact (hstart.run ops).imp fun pos hpos => ⟨hpos, hpos.le_length⟩

end

/-- A position inside a codepoint behind two malformed bytes, selected. -/
theorem positions_are_boundaries_malformed :
    let v := (ofSettings {}).run
      [.load [0xE2, 0x82, 0xC3, 0xA9, 0x21] .plain, .selectBetween 3 3]
    v.Reachable ∧ v.cursor.selection = ⟨0, 2, 4, true⟩ ∧
      v.cursor.Within fun pos => Text.Boundary v.text pos ∧ pos ≤ v.text.length :=
  ⟨⟨_, _, rfl⟩, by decide, positions_are_boundaries ⟨_, _, rfl⟩⟩

end View

end CodePane

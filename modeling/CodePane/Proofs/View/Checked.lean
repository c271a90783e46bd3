import CodePane.Proofs.Grid.Pixels
import CodePane.Proofs.View.Subject
import CodePane.Proofs.View.Limits
import CodePane.View.Checked

/-!
# Operations that do not fail

Whatever an operation that can fail gives is what the operation gives that cannot, so a view that
some of them lead to is reachable, and all that is true of reachable views is true of it. None of
them fails where cells have a width, the settings' margin fits into the range of pixels beside the
content, and a font is no higher than a size can be.

1. `Window.eq_of_revealColumn?`, `Window.revealColumn?_eq`: revealing a pixel column.
2. `View.eq_of_perform?`, `View.eq_of_run?`, `View.Reachable.run?`: what comes out.
3. `View.RoomForMargin`, `View.InLimits.perform?_eq`: when something comes out.
-/

namespace CodePane

/-! ## Cells and windows -/

theorem CellSize.eq_of_measure? {m : FontMeasure} {f : FallbackCell} {c : CellSize}
    (h : measure? m f = some c) : c = measure m f := by
  unfold measure? at h
  split at h
  · split at h
    · exact (Option.some.inj h).symm
    · cases h
  · exact (Option.some.inj h).symm

/-- Ascent and descent together are no more than a size can be. -/
def FontMeasure.Fits (m : FontMeasure) : Prop :=
  ∀ ascent descent, m.ascent = some ascent → m.descent = some descent →
    ascent + descent < UInt32.size

theorem FontMeasure.Fits.measure?_eq {m : FontMeasure} (h : m.Fits) (f : FallbackCell) :
    CellSize.measure? m f = some (.measure m f) := by
  unfold CellSize.measure?
  split
  · next hascent hdescent => exact if_pos (h _ _ hascent hdescent)
  · rfl

namespace Window

variable {w w' : Window} {x gutter margin left : Int}

theorem eq_of_columnOffset? (h : w.columnOffset? x gutter margin = some left) :
    left = w.columnOffset x gutter margin := by
  obtain ⟨shown, hshown, h⟩ := Option.bind_eq_some_iff.mp h
  obtain rfl := Pixel.eq_of_sub? hshown
  unfold columnOffset
  split at h
  · next hhidden => rw [if_pos hhidden, Pixel.eq_of_sub? h]
  · next hbehind =>
    rw [if_neg hbehind]
    split at h
    · next hhidden =>
      obtain ⟨edge, hedge, h⟩ := Option.bind_eq_some_iff.mp h
      rw [if_pos hhidden, Pixel.eq_of_sub? h, Pixel.eq_of_sub? hedge]
    · next hbefore => rw [if_neg hbefore, Option.some.inj h]

/-- Only the differences for a column that is hidden on the right can leave the range. -/
theorem columnOffset?_eq (hx : 0 ≤ x ∧ x ≤ Pixel.greatest)
    (hgutter : 0 ≤ gutter ∧ gutter ≤ Pixel.greatest)
    (hleft : 0 ≤ w.scroll.left ∧ w.scroll.left ≤ Pixel.greatest)
    (hmargin : w.width ≤ x - w.scroll.left →
      (Pixel.least ≤ w.width - margin ∧ w.width - margin ≤ Pixel.greatest) ∧
        Pixel.least ≤ x - (w.width - margin) ∧ x - (w.width - margin) ≤ Pixel.greatest) :
    w.columnOffset? x gutter margin = some (w.columnOffset x gutter margin) := by
  have hdifference {a b : Int} (ha : 0 ≤ a ∧ a ≤ Pixel.greatest)
      (hb : 0 ≤ b ∧ b ≤ Pixel.greatest) : Pixel.sub? a b = some (a - b) :=
    Pixel.sub?_eq (by unfold Pixel.least Pixel.greatest at *; omega) (by omega)
  unfold columnOffset? columnOffset
  rw [hdifference hx hleft, Option.bind_eq_bind, Option.bind_some]
  by_cases hhidden : x - w.scroll.left < gutter
  · rw [if_pos hhidden, if_pos hhidden, hdifference hx hgutter]
  · rw [if_neg hhidden, if_neg hhidden]
    split
    · next hhidden =>
      obtain ⟨⟨hlow, hhigh⟩, hlow', hhigh'⟩ := hmargin hhidden
      rw [Pixel.sub?_eq hlow hhigh, ← Pixel.sub?_eq hlow' hhigh']
      rfl
    · rfl

theorem eq_of_revealColumn? {limit : Int} (h : w.revealColumn? x gutter margin limit = some w') :
    w' = w.revealColumn x gutter margin limit := by
  obtain ⟨left, hleft, rfl⟩ := Option.map_eq_some_iff.mp h
  rw [revealColumn, eq_of_columnOffset? hleft]

/-- A margin for which there is room behind the column, or in the window, keeps all in the range. -/
theorem revealColumn?_eq (hx : 0 ≤ x ∧ x ≤ Pixel.greatest)
    (hgutter : 0 ≤ gutter ∧ gutter ≤ Pixel.greatest)
    (hleft : 0 ≤ w.scroll.left ∧ w.scroll.left ≤ Pixel.greatest) (hwidth : 0 ≤ w.width)
    (hmargin : 0 ≤ margin) (hroom : x + margin ≤ Pixel.greatest ∨ margin ≤ w.width) (limit : Int) :
    w.revealColumn? x gutter margin limit = some (w.revealColumn x gutter margin limit) := by
  have hoffset : w.columnOffset? x gutter margin = some (w.columnOffset x gutter margin) := by
    refine columnOffset?_eq hx hgutter hleft fun hhidden => ?_
    unfold Pixel.least Pixel.greatest at *
    omega
  rw [revealColumn?, hoffset, Option.map_some, revealColumn]

end Window

namespace View

variable {v w : View} {op : Operation} {ops : List Operation}

/-- Beside the content the margin that the settings ask for is in the range of pixels. -/
def RoomForMargin (v : View) : Prop :=
  v.contentWidth + v.settings.scroll.horizontalMargin.toNat ≤ Pixel.greatest

theorem RoomForMargin.withCursor (h : v.RoomForMargin) (c : Cursor) :
    RoomForMargin { v with cursor := c } :=
  h

variable [CharWidths]

/-! ## What comes out -/

theorem eq_of_positionAt? {p : Point} {pos : Nat} (h : v.positionAt? p = some pos) :
    pos = v.positionAt p := by
  unfold positionAt? Grid.positionAt? at h
  split at h
  · cases h
  · exact (Option.some.inj h).symm

theorem eq_of_fitFont? {m : FontMeasure} (h : v.fitFont? m = some w) : w = v.fitFont m := by
  obtain ⟨c, hc, rfl⟩ := Option.map_eq_some_iff.mp h
  rw [fitFont, CellSize.eq_of_measure? hc]

theorem eq_of_reveal? {pos : Nat} (h : v.reveal? pos = some w) : w = v.reveal pos := by
  unfold reveal? at h
  obtain ⟨window, hwindow, h⟩ := Option.bind_eq_some_iff.mp h
  obtain rfl := Option.some.inj h
  rw [Window.eq_of_revealColumn? hwindow]
  rfl

theorem eq_of_moveByLines? {lines : Int} {extend : Bool}
    (h : v.moveByLines? lines extend = some w) : w = v.moveByLines lines extend := by
  unfold moveByLines? at h
  obtain ⟨pos, hpos, h⟩ := Option.bind_eq_some_iff.mp h
  obtain rfl := eq_of_positionAt? hpos
  exact eq_of_reveal? h

theorem eq_of_pointerDown? {p : Point} (h : v.pointerDown? p = some w) : w = v.pointerDown p := by
  obtain ⟨pos, hpos, h⟩ := Option.bind_eq_some_iff.mp h
  obtain rfl := eq_of_positionAt? hpos
  exact (Option.some.inj h).symm

theorem eq_of_pointerMoved? {p : Point} (h : v.pointerMoved? p = some w) :
    w = v.pointerMoved p := by
  unfold pointerMoved? at h
  unfold pointerMoved
  split at h
  · next hdragging =>
    obtain ⟨pos, hpos, h⟩ := Option.bind_eq_some_iff.mp h
    obtain rfl := eq_of_positionAt? hpos
    rw [if_pos hdragging]
    exact eq_of_reveal? h
  · next hidle => rw [if_neg hidle, Option.some.inj h]

theorem eq_of_pointerUp? {p : Point} (h : v.pointerUp? p = some w) : w = v.pointerUp p := by
  unfold pointerUp? at h
  unfold pointerUp
  split at h
  · next hdragging =>
    obtain ⟨pos, hpos, h⟩ := Option.bind_eq_some_iff.mp h
    obtain rfl := eq_of_positionAt? hpos
    rw [if_pos hdragging, ← Option.some.inj h]
    rfl
  · next hidle => rw [if_neg hidle, Option.some.inj h]

theorem eq_of_act? {a : KeyAction} (h : v.act? a = some w) : w = v.act a := by
  cases a with
  | step _ _ | lineEdge _ _ | textEdge _ _ => exact eq_of_reveal? h
  | line _ _ | page _ _ => exact eq_of_moveByLines? h
  | scrollPage _ | everything => exact (Option.some.inj h).symm

theorem eq_of_key? {k : Key} {m : Modifiers} (h : v.perform? (.key k m) = some w) :
    w = v.perform (.key k m) := by
  change ((KeyAction.ofKey? k m).map v.act?).getD (some v) = some w at h
  show w = ((KeyAction.ofKey? k m).map v.act).getD v
  cases hk : KeyAction.ofKey? k m with
  | none =>
    rw [hk] at h
    exact (Option.some.inj h).symm
  | some a =>
    rw [hk] at h
    exact eq_of_act? h

/-- **An operation that does not fail is the one that cannot.** -/
theorem eq_of_perform? (h : v.perform? op = some w) : w = v.perform op := by
  cases op with
  | fitFont _ => exact eq_of_fitFont? h
  | reveal _ | selectAndReveal _ _ | selectWord _ | stepCaret _ _ | moveToEdge _ _ _ =>
    exact eq_of_reveal? h
  | moveByLines _ _ | moveByPage _ _ => exact eq_of_moveByLines? h
  | pointerDown _ => exact eq_of_pointerDown? h
  | pointerMoved _ => exact eq_of_pointerMoved? h
  | pointerUp _ => exact eq_of_pointerUp? h
  | act _ => exact eq_of_act? h
  | key _ _ => exact eq_of_key? h
  | _ => exact (Option.some.inj h).symm

theorem run?_cons (v : View) (op : Operation) (ops : List Operation) :
    v.run? (op :: ops) = (v.perform? op).bind fun next => next.run? ops :=
  List.foldlM_cons

theorem eq_of_run? (h : v.run? ops = some w) : w = v.run ops := by
  induction ops generalizing v with
  | nil => exact (Option.some.inj h).symm
  | cons op ops ih =>
    rw [run?_cons] at h
    obtain ⟨next, hnext, hrest⟩ := Option.bind_eq_some_iff.mp h
    obtain rfl := eq_of_perform? hnext
    exact ih hrest

/-- What is true of every reachable view is true of what comes out of a run. -/
theorem Reachable.run? (h : v.Reachable) (hrun : v.run? ops = some w) : w.Reachable := by
  obtain ⟨s, past, rfl⟩ := h
  obtain rfl := eq_of_run? hrun
  exact ⟨s, past ++ ops, List.foldl_append.symm⟩

/-! ## When something comes out -/

theorem positionAt?_eq {p : Point}
    (h : 0 < v.grid.cell.width ∨ p.x ≤ v.grid.gutterPixels v.numLines) :
    v.positionAt? p = some (v.positionAt p) := by
  refine if_neg fun ⟨hnone, hright⟩ => ?_
  unfold numLines at h
  omega

theorem windowPositionAt?_eq (hcell : 0 < v.grid.cell.width) (p : Point) :
    v.windowPositionAt? p = some (v.windowPositionAt p) :=
  positionAt?_eq (.inl hcell)

theorem pointerDown?_eq (hcell : 0 < v.grid.cell.width) (p : Point) :
    v.pointerDown? p = some (v.pointerDown p) := by
  rw [pointerDown?, windowPositionAt?_eq hcell]
  rfl

theorem pointerUp?_eq (hcell : 0 < v.grid.cell.width) (p : Point) :
    v.pointerUp? p = some (v.pointerUp p) := by
  rw [pointerUp?, windowPositionAt?_eq hcell, pointerUp]
  split <;> rfl

namespace InLimits

theorem contentWidth_nonneg (h : v.InLimits) : 0 ≤ v.contentWidth := by
  have hcontent := (v.grid.pixelOf_x_le v.text 0).2
  rw [← h.measured] at hcontent
  exact Int.le_trans (v.grid.pixelOf_inside v.text 0).1.1 hcontent

/-- Revealing has room where the margin fits behind the content or into the window. -/
theorem reveal?_eq_of_margin (h : v.InLimits)
    (hmargin : 0 ≤ v.settings.scroll.horizontalMargin.toInt32.toInt)
    (hroom : v.contentWidth + v.settings.scroll.horizontalMargin.toInt32.toInt ≤ Pixel.greatest ∨
      v.settings.scroll.horizontalMargin.toInt32.toInt ≤ v.window.width) (pos : Nat) :
    v.reveal? pos = some (v.reveal pos) := by
  have hx := (v.grid.pixelOf_inside v.text (v.snap pos)).1
  have hcontent := (v.grid.pixelOf_x_le v.text (v.snap pos)).2
  rw [← h.measured] at hcontent
  have hcolumn := Window.revealColumn?_eq
    (w := v.window.revealLine (v.lineNumber (v.snap pos)) v.rows v.topLimit) hx
    ⟨v.grid.gutterPixels_nonneg v.numLines, v.grid.gutterPixels_le_greatest v.numLines⟩
    ⟨h.left_nonneg, h.left_le_greatest⟩ h.width_nonneg hmargin
    (hroom.imp_left fun hroom => Int.le_trans (Int.add_le_add_right hcontent _) hroom) v.leftLimit
  exact congrArg (·.bind fun window => some { v with window }) hcolumn

theorem reveal?_eq (h : v.InLimits) (hroom : v.RoomForMargin) (pos : Nat) :
    v.reveal? pos = some (v.reveal pos) := by
  have hcontent := h.contentWidth_nonneg
  unfold RoomForMargin at hroom
  -- the margin is read as a signed quantity, which it still is here
  have hmargin : v.settings.scroll.horizontalMargin.toInt32.toInt =
      v.settings.scroll.horizontalMargin.toNat := by
    refine BitVec.toInt_eq_toNat_of_lt ?_
    show 2 * v.settings.scroll.horizontalMargin.toNat < 2 ^ 32
    unfold Pixel.greatest at hroom
    omega
  exact h.reveal?_eq_of_margin (by omega) (.inl (by omega)) pos

theorem moveAndReveal?_eq (h : v.InLimits) (hroom : v.RoomForMargin) (pos : Nat) (extend : Bool) :
    v.moveAndReveal? pos extend = some (v.moveAndReveal pos extend) :=
  (h.withCursor _).reveal?_eq (hroom.withCursor _) pos

theorem selectAndReveal?_eq (h : v.InLimits) (hroom : v.RoomForMargin) (a b : Nat) :
    v.selectAndReveal? a b = some (v.selectAndReveal a b) :=
  (h.withCursor _).reveal?_eq (hroom.withCursor _) _

theorem stepCaret?_eq (h : v.InLimits) (hroom : v.RoomForMargin) (d : Direction) (extend : Bool) :
    v.stepCaret? d extend = some (v.stepCaret d extend) :=
  (h.withCursor _).moveAndReveal?_eq (hroom.withCursor _) _ extend

theorem moveToEdge?_eq (h : v.InLimits) (hroom : v.RoomForMargin) (d : Direction)
    (whole extend : Bool) : v.moveToEdge? d whole extend = some (v.moveToEdge d whole extend) :=
  (h.withCursor _).moveAndReveal?_eq (hroom.withCursor _) _ extend

theorem moveByLines?_eq (h : v.InLimits) (hroom : v.RoomForMargin)
    (hcell : 0 < v.grid.cell.width ∨
      v.cursor.goal.getD (v.pixelOf v.cursor.caret).x ≤ v.grid.gutterPixels v.numLines)
    (lines : Int) (extend : Bool) :
    v.moveByLines? lines extend = some (v.moveByLines lines extend) := by
  have hgutter := v.grid.gutterPixels_nonneg v.numLines
  have hpoint (y : Int) :
      v.positionAt? ⟨Pixel.clamp (v.cursor.goal.getD (v.pixelOf v.cursor.caret).x), y⟩ =
        some (v.positionAt ⟨Pixel.clamp (v.cursor.goal.getD (v.pixelOf v.cursor.caret).x), y⟩) :=
    positionAt?_eq <| hcell.imp_right fun hle => by
      show Pixel.clamp _ ≤ _
      unfold Pixel.clamp Pixel.least
      omega
  simp only [moveByLines?, hpoint, Option.bind_eq_bind, Option.bind_some]
  exact (h.withCursor _).moveAndReveal?_eq (hroom.withCursor _) _ extend

theorem pointerMoved?_eq (h : v.InLimits) (hroom : v.RoomForMargin) (hcell : 0 < v.grid.cell.width)
    (p : Point) : v.pointerMoved? p = some (v.pointerMoved p) := by
  rw [pointerMoved?, windowPositionAt?_eq hcell, View.pointerMoved]
  split
  · exact (h.withCursor _).reveal?_eq (hroom.withCursor _) _
  · rfl

theorem act?_eq (h : v.InLimits) (hroom : v.RoomForMargin) {a : KeyAction}
    (hcell : a.scrolls = true ∨ 0 < v.grid.cell.width) : v.act? a = some (v.act a) := by
  cases a with
  | step d extend => exact h.stepCaret?_eq hroom d extend
  | lineEdge d extend => exact h.moveToEdge?_eq hroom d false extend
  | textEdge d extend => exact h.moveToEdge?_eq hroom d true extend
  | line _ _ | page _ _ => exact h.moveByLines?_eq hroom (.inl (hcell.resolve_left nofun)) _ _
  | scrollPage _ | everything => rfl

theorem key?_eq (h : v.InLimits) (hroom : v.RoomForMargin) {k : Key} {m : Modifiers}
    (hcell : (KeyAction.ofKey? k m).all KeyAction.scrolls = true ∨ 0 < v.grid.cell.width) :
    v.perform? (.key k m) = some (v.perform (.key k m)) := by
  show ((KeyAction.ofKey? k m).map v.act?).getD (some v) =
    some (((KeyAction.ofKey? k m).map v.act).getD v)
  cases hk : KeyAction.ofKey? k m with
  | none => rfl
  | some a =>
    rw [hk] at hcell
    exact h.act?_eq hroom hcell

/-- **No operation fails that has room.** Scrolling does not even need cells with a width. -/
theorem perform?_eq (h : v.InLimits) (hroom : v.RoomForMargin)
    (hcell : op.movesWindow = true ∨ 0 < v.grid.cell.width)
    (hfont : ∀ m, op = .fitFont m → m.Fits) : v.perform? op = some (v.perform op) := by
  cases op with
  | fitFont m => exact congrArg (Option.map _) ((hfont m rfl).measure?_eq _)
  | reveal pos => exact h.reveal?_eq hroom pos
  | selectAndReveal a b => exact h.selectAndReveal?_eq hroom a b
  | selectWord _ => exact h.selectAndReveal?_eq hroom _ _
  | stepCaret d extend => exact h.stepCaret?_eq hroom d extend
  | moveToEdge d whole extend => exact h.moveToEdge?_eq hroom d whole extend
  | moveByLines _ _ | moveByPage _ _ =>
    exact h.moveByLines?_eq hroom (.inl (hcell.resolve_left nofun)) _ _
  | pointerDown p => exact pointerDown?_eq (hcell.resolve_left nofun) p
  | pointerMoved p => exact h.pointerMoved?_eq hroom (hcell.resolve_left nofun) p
  | pointerUp p => exact pointerUp?_eq (hcell.resolve_left nofun) p
  | act a => exact h.act?_eq hroom hcell
  | key k m => exact h.key?_eq hroom hcell
  | _ => rfl

end InLimits

end View

end CodePane

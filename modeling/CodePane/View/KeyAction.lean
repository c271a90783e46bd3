import CodePane.View.Caret

/-!
# Keys of a view

Every key that means something moves the caret, with or without extending the selection, or scrolls,
or selects all.

1. `KeyAction`, `KeyAction.ofKey?`: what keys mean.
2. `View.act`: doing it.
-/

namespace CodePane

/-! ## Actions -/

/-- What a key can ask for. -/
inductive KeyAction where
  /-- One codepoint. -/
  | step (d : Direction) (extend : Bool)
  /-- One line, backward meaning up. -/
  | line (d : Direction) (extend : Bool)
  /-- To an end of the line. -/
  | lineEdge (d : Direction) (extend : Bool)
  /-- To an end of the text. -/
  | textEdge (d : Direction) (extend : Bool)
  /-- As many lines as are visible. -/
  | page (d : Direction) (extend : Bool)
  /-- As many lines as are visible, without the caret. -/
  | scrollPage (d : Direction)
  /-- All of the text selected. -/
  | everything
  deriving DecidableEq, Repr

/-- The action of a key. Shift extends the selection. Ctrl makes Home and End mean the whole text,
and the page keys scroll without the caret; with the letter A it selects all. -/
def KeyAction.ofKey? (k : Key) (m : Modifiers) : Option KeyAction :=
  match k with
  | .left => some (.step .backward m.shift)
  | .right => some (.step .forward m.shift)
  | .up => some (.line .backward m.shift)
  | .down => some (.line .forward m.shift)
  | .homeKey => some (if m.ctrl then .textEdge .backward m.shift else .lineEdge .backward m.shift)
  | .endKey => some (if m.ctrl then .textEdge .forward m.shift else .lineEdge .forward m.shift)
  | .pageUp => some (if m.ctrl then .scrollPage .backward else .page .backward m.shift)
  | .pageDown => some (if m.ctrl then .scrollPage .forward else .page .forward m.shift)
  | .char c => if m.ctrl && (c == 'a' || c == 'A') then some .everything else none

/-! ## Doing them -/

def View.act [CharWidths] (v : View) : KeyAction → View
  | .step d extend => v.stepCaret d extend
  | .line d extend => v.moveByLines (d.signed 1) extend
  | .lineEdge d extend => v.moveToEdge d false extend
  | .textEdge d extend => v.moveToEdge d true extend
  | .page d extend => v.moveByPage d extend
  | .scrollPage d => v.scrollByPage d
  | .everything => v.selectEverything

end CodePane

import CodePane.View.Operation

/-!
# Operations that can fail

Three things stop the program in the middle of an operation: a difference of pixels that is not kept
in the range leaves it, a font is higher than a size can be, or a pixel is to be found among cells
without width. The operations below have no result then, and are the ones of `View.perform`
otherwise.

1. `reveal?`, `moveAndReveal?` and what else ends with revealing a position.
2. `pointerDown?`, `pointerMoved?`, `pointerUp?`: the pointer.
3. `perform?`, `run?`: any operation, and several of them.
-/

namespace CodePane.View

variable [CharWidths]

/-! ## Revealing -/

def fitFont? (v : View) (m : FontMeasure) : Option View :=
  (CellSize.measure? m v.settings.cell).map v.withCells

/-- The position under a pixel of the content. -/
def positionAt? (v : View) (p : Point) : Option Nat := v.grid.positionAt? v.text p

/-- The position under a pixel of the window. -/
def windowPositionAt? (v : View) (p : Point) : Option Nat :=
  v.positionAt? (v.grid.ofWindow v.window.scroll p)

def reveal? (v : View) (pos : Nat) : Option View := do
  let pos := v.snap pos
  let window ← (v.window.revealLine (v.lineNumber pos) v.rows v.topLimit).revealColumn?
    (v.pixelOf pos).x (v.grid.gutterPixels v.numLines)
    v.settings.scroll.horizontalMargin.toInt32.toInt v.leftLimit
  return { v with window }

def selectAndReveal? (v : View) (a b : Nat) : Option View :=
  let (start, stop) := v.snapSpan a b
  reveal? { v with cursor := v.cursor.selectSpan start stop true } stop

def selectWord? (v : View) (pos : Nat) : Option View :=
  let (start, stop) := Text.wordAround v.text pos
  v.selectAndReveal? start stop

/-! ## Moves -/

def moveAndReveal? (v : View) (pos : Nat) (extend : Bool) : Option View :=
  reveal? { v with cursor := v.cursor.move pos extend } pos

def stepCaret? (v : View) (d : Direction) (extend : Bool) : Option View :=
  v.forgetGoal.moveAndReveal? (v.nextToCaret d) extend

def moveByLines? (v : View) (lines : Int) (extend : Bool) : Option View := do
  let goal := v.cursor.goal.getD (v.pixelOf v.cursor.caret).x
  let pos ← v.positionAt? ⟨Pixel.clamp goal, v.rowAfter lines⟩
  moveAndReveal? { v with cursor := v.cursor.aimAt goal } pos extend

def moveToEdge? (v : View) (d : Direction) (whole extend : Bool) : Option View :=
  v.forgetGoal.moveAndReveal? (v.edge d whole) extend

def moveByPage? (v : View) (d : Direction) (extend : Bool) : Option View :=
  v.moveByLines? (d.signed v.rows) extend

/-! ## The pointer -/

def pointerDown? (v : View) (p : Point) : Option View := do
  let pos ← v.windowPositionAt? p
  return { v with cursor := v.cursor.beginDrag pos }

def pointerMoved? (v : View) (p : Point) : Option View :=
  if v.cursor.dragging then do
    let pos ← v.windowPositionAt? p
    reveal? { v with cursor := v.cursor.dragTo pos } pos
  else some v

def pointerUp? (v : View) (p : Point) : Option View :=
  if v.cursor.dragging then do
    let pos ← v.windowPositionAt? p
    return { v with cursor := (v.cursor.dragTo pos).endDrag (some pos) }
  else some v

/-! ## Operations -/

def act? (v : View) : KeyAction → Option View
  | .step d extend => v.stepCaret? d extend
  | .line d extend => v.moveByLines? (d.signed 1) extend
  | .lineEdge d extend => v.moveToEdge? d false extend
  | .textEdge d extend => v.moveToEdge? d true extend
  | .page d extend => v.moveByPage? d extend
  | .scrollPage d => some (v.scrollByPage d)
  | .everything => some v.selectEverything

/-- The view after an operation. -/
def perform? (v : View) : Operation → Option View
  | .fitFont m => v.fitFont? m
  | .reveal pos => v.reveal? pos
  | .selectAndReveal a b => v.selectAndReveal? a b
  | .selectWord pos => v.selectWord? pos
  | .stepCaret d extend => v.stepCaret? d extend
  | .moveByLines lines extend => v.moveByLines? lines extend
  | .moveToEdge d whole extend => v.moveToEdge? d whole extend
  | .moveByPage d extend => v.moveByPage? d extend
  | .pointerDown p => v.pointerDown? p
  | .pointerMoved p => v.pointerMoved? p
  | .pointerUp p => v.pointerUp? p
  | .act a => v.act? a
  | .key k m => ((KeyAction.ofKey? k m).map v.act?).getD (some v)
  | op => some (v.perform op)

def run? (v : View) (operations : List Operation) : Option View := operations.foldlM perform? v

end CodePane.View

import CodePane.View.KeyAction

/-!
# Operations on a view

All that a client can do to a view, as data, so that one can speak of every state that a view can
reach.

1. `Operation`: the operations.
2. `View.perform`, `View.reply`: the view after an operation, and what the operation answers.
3. `View.run`, `View.Reachable`: the view after several operations, and the views that can be
   reached.
-/

namespace CodePane

/-- One operation of a client. -/
inductive Operation where
  | load (text : Text) (kind : TextKind)
  | recolor (tokens : List Token)
  | highlight (tokens : List Token)
  | withCells (c : CellSize)
  | fitFont (m : FontMeasure)
  | showGutter (enabled : Bool)
  | withTheme (t : Theme)
  | resize (width height : Int)
  | scrollToValue (value : Nat)
  | scrollToPixel (pixels : Int)
  | scrollToLine (line : Nat)
  | scrollToPosition (pos : Nat)
  | reveal (pos : Nat)
  | scrollByLines (delta : Int)
  | scrollByPixels (delta : Int)
  | turnWheel (d : Direction) (m : Modifiers)
  | scrollByPage (d : Direction)
  | reportScroll
  | placeCaret (pos : Nat)
  | selectBetween (a b : Nat)
  | selectAndReveal (a b : Nat)
  | selectEverything
  | deselect
  | selectWord (pos : Nat)
  | stepCaret (d : Direction) (extend : Bool)
  | moveByLines (lines : Int) (extend : Bool)
  | moveToEdge (d : Direction) (whole extend : Bool)
  | moveByPage (d : Direction) (extend : Bool)
  | pointerDown (p : Point)
  | pointerMoved (p : Point)
  | pointerUp (p : Point)
  | act (a : KeyAction)
  | key (k : Key) (m : Modifiers)

/-- What an operation answers: nothing, whether it did something, or where the view is scrolled
to. -/
inductive Reply where
  | nothing
  | done (happened : Bool)
  | change (scroll : Option Scroll)
  deriving DecidableEq, Repr

namespace View

variable [CharWidths]

/-- The view after an operation. -/
def perform (v : View) : Operation → View
  | .load text kind => v.load text kind
  | .recolor tokens => v.recolor tokens
  | .highlight tokens => v.highlight tokens
  | .withCells c => v.withCells c
  | .fitFont m => v.fitFont m
  | .showGutter enabled => v.showGutter enabled
  | .withTheme t => v.withTheme t
  | .resize width height => v.resize width height
  | .scrollToValue value => v.scrollToValue value
  | .scrollToPixel pixels => v.scrollToPixel pixels
  | .scrollToLine line => v.scrollToLine line
  | .scrollToPosition pos => v.scrollToPosition pos
  | .reveal pos => v.reveal pos
  | .scrollByLines delta => v.scrollByLines delta
  | .scrollByPixels delta => v.scrollByPixels delta
  | .turnWheel d m => v.turnWheel d m
  | .scrollByPage d => v.scrollByPage d
  | .reportScroll => { v with window := v.window.reportScroll.2 }
  | .placeCaret pos => v.placeCaret pos
  | .selectBetween a b => v.selectBetween a b
  | .selectAndReveal a b => v.selectAndReveal a b
  | .selectEverything => v.selectEverything
  | .deselect => v.deselect
  | .selectWord pos => v.selectWord pos
  | .stepCaret d extend => v.stepCaret d extend
  | .moveByLines lines extend => v.moveByLines lines extend
  | .moveToEdge d whole extend => v.moveToEdge d whole extend
  | .moveByPage d extend => v.moveByPage d extend
  | .pointerDown p => v.pointerDown p
  | .pointerMoved p => v.pointerMoved p
  | .pointerUp p => v.pointerUp p
  | .act a => v.act a
  | .key k m => ((KeyAction.ofKey? k m).map v.act).getD v

def reply (v : View) : Operation → Reply
  | .reportScroll => .change v.window.reportScroll.1
  | .pointerMoved _ => .done v.cursor.dragging
  | .key k m => .done (KeyAction.ofKey? k m).isSome
  | _ => .nothing

def run (v : View) (operations : List Operation) : View := operations.foldl perform v

theorem run_concat (v : View) (operations : List Operation) (op : Operation) :
    v.run (operations ++ [op]) = (v.run operations).perform op :=
  List.foldl_append

/-- A view that some operations lead to from the view of an empty text. -/
def Reachable (v : View) : Prop := ∃ s operations, v = (ofSettings s).run operations

end View

end CodePane

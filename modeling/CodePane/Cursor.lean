/-!
# The cursor

The caret, the selection, a drag in progress and the pixel column that vertical moves aim at. All
positions are offsets that the caller has moved to boundaries.

1. `Selection`: a span with the end that stays fixed when it is extended.
2. `Cursor.move`, `Cursor.selectSpan`: moves and selections.
3. `Cursor.beginDrag`, `Cursor.dragTo`, `Cursor.endDrag`: dragging.
-/

namespace CodePane

/-! ## Selections -/

/-- A selected span, its fixed end, and whether it holds anything. -/
structure Selection where
  anchor : Nat
  start : Nat
  stop : Nat
  active : Bool
  deriving DecidableEq, Repr

namespace Selection

def emptyAt (pos : Nat) : Selection := ⟨pos, pos, pos, false⟩

/-- All between a fixed end and a position. -/
def ofEnds (anchor pos : Nat) : Selection :=
  ⟨anchor, min anchor pos, max anchor pos, anchor != pos⟩

theorem active_ofEnds (anchor pos : Nat) :
    (ofEnds anchor pos).active = true ↔ (ofEnds anchor pos).start < (ofEnds anchor pos).stop := by
  simp only [ofEnds, bne_iff_ne]
  omega

/-- The selected span, unless it is empty. -/
def range (s : Selection) : Option (Nat × Nat) := if s.active then some (s.start, s.stop) else none

end Selection

/-! ## Cursors -/

/-- The caret and what belongs to it. `drag` holds the fixed end of a drag in progress, and `goal`
the pixel column that vertical moves aim at. -/
structure Cursor where
  caret : Nat
  selection : Selection
  drag : Option Nat
  goal : Option Int
  deriving DecidableEq, Repr

namespace Cursor

/-- The caret at the start of a text. -/
def initial : Cursor := ⟨0, .emptyAt 0, none, none⟩

def dragging (c : Cursor) : Bool := c.drag.isSome

def aimAt (c : Cursor) (x : Int) : Cursor := { c with goal := some x }

def forgetGoal (c : Cursor) : Cursor := { c with goal := none }

/-- Moves the caret. An extending move selects from the fixed end, which is the caret if nothing is
selected; any other one selects nothing. -/
def move (c : Cursor) (pos : Nat) (extend : Bool) : Cursor :=
  if extend then
    let anchor := if c.selection.active then c.selection.anchor else c.caret
    { c with caret := pos, selection := .ofEnds anchor pos }
  else { c with caret := pos, selection := .emptyAt pos }

def beginDrag (c : Cursor) (pos : Nat) : Cursor :=
  { c with caret := pos, selection := .emptyAt pos, drag := some pos, goal := none }

/-- Continues a drag; without one nothing changes. -/
def dragTo (c : Cursor) (pos : Nat) : Cursor :=
  match c.drag with
  | some anchor => { c with caret := pos, selection := .ofEnds anchor pos }
  | none => c

/-- Ends a drag, with the caret where the pointer is, if that is known. -/
def endDrag (c : Cursor) (pos : Option Nat) : Cursor :=
  { c with caret := pos.getD c.caret, drag := none }

/-- Selects all between two positions, with the caret at the later one. Without `setAnchor` the
fixed end stays what it was. -/
def selectSpan (c : Cursor) (a b : Nat) (setAnchor : Bool) : Cursor :=
  let start := min a b
  let stop := max a b
  let anchor := if setAnchor then start else c.selection.anchor
  { c with caret := stop, selection := ⟨anchor, start, stop, start < stop⟩ }

def deselect (c : Cursor) : Cursor := { c with selection := .emptyAt c.caret }

/-- Moves the caret and leaves the selection alone. -/
def place (c : Cursor) (pos : Nat) : Cursor := { c with caret := pos }

end Cursor

end CodePane

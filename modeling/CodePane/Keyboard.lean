/-!
# Keyboard

The keys, and the modifier keys held with them.
-/

namespace CodePane

/-- A key that a view can react to. -/
inductive Key where
  | left
  | right
  | up
  | down
  | homeKey
  | endKey
  | pageUp
  | pageDown
  | char (c : Char)
  deriving DecidableEq, Repr

/-- The modifier keys held during a key press or a step of the wheel. -/
structure Modifiers where
  shift : Bool
  ctrl : Bool
  alt : Bool
  deriving DecidableEq, Repr

end CodePane

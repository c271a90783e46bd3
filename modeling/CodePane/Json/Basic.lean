import CodePane.Decimal.Numeral

/-!
# JSON values

1. `Json`: values. Numbers keep their digits, objects the order and the repetitions of their
   members.
2. `ofNat`, `ofInt`, `text`, `ofMembers`: the values that are written.
-/

namespace CodePane

/-- A JSON value. A string is `none` if an escape in it is only half of a surrogate pair, so that it
spells no text. -/
inductive Json where
  | null
  | bool (b : Bool)
  | number (n : Decimal.Numeral)
  | string (s : Option String)
  | array (items : List Json)
  | object (members : List (Option String × Json))
  deriving Repr

namespace Json

def ofNat (n : Nat) : Json := .number (.ofNat n)

def ofInt (n : Int) : Json := .number (.ofInt n)

def text (s : String) : Json := .string (some s)

/-- An object with the given members. -/
def ofMembers (members : List (String × Json)) : Json :=
  .object (members.map fun (name, value) => (some name, value))

end Json

end CodePane

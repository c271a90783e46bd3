import CodePane.Hex
import CodePane.Json.Basic

/-!
# Writing JSON

Every item and every member stands on a line of its own, two blanks further in than its array or
object; what is empty stays on one line.
-/

namespace CodePane.Json

namespace Writer

/-! ## Strings -/

/-- A character inside a string. -/
def stringChar (c : Char) : List Char :=
  match c with
  | '"' => ['\\', '"']
  | '\\' => ['\\', '\\']
  | '\x08' => ['\\', 'b']
  | '\x0c' => ['\\', 'f']
  | '\n' => ['\\', 'n']
  | '\r' => ['\\', 'r']
  | '\t' => ['\\', 't']
  | c => if c.toNat < 0x20 then ['\\', 'u', '0', '0'] ++ Hex.byteDigits c.toUInt8 else [c]

def string (s : String) : List Char := '"' :: (s.toList.flatMap stringChar ++ ['"'])

/-- A new line, `depth` steps in. -/
def newLine (depth : Nat) : List Char := '\n' :: List.replicate (2 * depth) ' '

/-! ## Values -/

mutual

/-- The text of a value `depth` steps in. -/
def value (depth : Nat) : Json → List Char
  | .null => ['n', 'u', 'l', 'l']
  | .bool true => ['t', 'r', 'u', 'e']
  | .bool false => ['f', 'a', 'l', 's', 'e']
  | .number n => n.chars
  | .string s => string (s.getD "")
  | .array [] => ['[', ']']
  | .array (item :: items) =>
    '[' :: (newLine (depth + 1) ++ value (depth + 1) item ++ moreItems (depth + 1) items ++
      newLine depth ++ [']'])
  | .object [] => ['{', '}']
  | .object (m :: members) =>
    '{' :: (newLine (depth + 1) ++ member (depth + 1) m ++ moreMembers (depth + 1) members ++
      newLine depth ++ ['}'])

def moreItems (depth : Nat) : List Json → List Char
  | [] => []
  | item :: items => ',' :: (newLine depth ++ value depth item ++ moreItems depth items)

/-- The text of a member. -/
def member (depth : Nat) : Option String × Json → List Char
  | (name, v) => string (name.getD "") ++ ':' :: ' ' :: value depth v

def moreMembers (depth : Nat) : List (Option String × Json) → List Char
  | [] => []
  | m :: members => ',' :: (newLine depth ++ member depth m ++ moreMembers depth members)

end

end Writer

def render (v : Json) : String := String.ofList (Writer.value 0 v)

end CodePane.Json

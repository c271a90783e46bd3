import CodePane.Text.Characters

/-!
# Escaped texts

How a text is shown on one line between single quotes.
-/

namespace CodePane.Text

/-- A mark that joins the character before it. -/
def isCombining (c : Char) : Bool := 0x300 ≤ c.toNat && c.toNat ≤ 0x36F

/-- A control character. -/
def isControl (c : Char) : Bool := c.toNat < 0x20 || (0x7F ≤ c.toNat && c.toNat < 0xA0)

/-- A character by its number. -/
def numberEscape (c : Char) : List Char :=
  ['\\', 'u', '\x7b'] ++ Nat.toDigits 16 c.toNat ++ ['\x7d']

/-- A character as it is shown. Quotes, backslashes and common controls have short escapes, other
controls are shown by their numbers, and so is a combining mark with nothing before it. -/
def escapeChar (isFirst : Bool) (c : Char) : List Char :=
  match c with
  | '\x00' => ['\\', '0']
  | '\t' => ['\\', 't']
  | '\r' => ['\\', 'r']
  | '\n' => ['\\', 'n']
  | '\'' => ['\\', '\'']
  | '"' => ['\\', '"']
  | '\\' => ['\\', '\\']
  | c => if isControl c || (isFirst && isCombining c) then numberEscape c else [c]

/-- A text as it is shown. -/
def escaped (text : Text) : List Char :=
  match lossyChars text with
  | [] => []
  | c :: rest => escapeChar true c ++ rest.flatMap (escapeChar false)

end CodePane.Text

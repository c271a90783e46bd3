/-!
# Bytes and texts

A text is a list of bytes; nothing is assumed about its encoding.

1. `Text`, `ascii`: texts, and the bytes of an ASCII word.
2. `Byte`: the named bytes and the ASCII classes that the lexers ask for.
3. `Text.between`, `Text.offsetOf`: parts of a text and the first occurrence of a word.
-/

namespace CodePane

/-- A text as its bytes. -/
abbrev Text := List UInt8

/-- The bytes of a word written in ASCII. -/
def ascii (word : String) : Text := word.toList.map Char.toUInt8

theorem toNat_toUInt8 {c : Char} (h : c.toNat < 0x100) : c.toUInt8.toNat = c.toNat := by
  show c.val.toUInt8.toNat = c.val.toNat
  rw [UInt32.toNat_toUInt8]
  exact Nat.mod_eq_of_lt h

/-! ## Named bytes -/

namespace Byte

/-- The byte that ends a line of the index. -/
def lineFeed : UInt8 := 0x0A

/-- The byte that may end a line together with a line feed, or alone. -/
def carriageReturn : UInt8 := 0x0D

/-- The byte that escapes the next one in a literal. -/
def backslash : UInt8 := '\\'.toUInt8

def quote : UInt8 := '"'.toUInt8

/-- The quote of a character, and the separator of digits. -/
def apostrophe : UInt8 := '\''.toUInt8

def underscore : UInt8 := '_'.toUInt8

/-! ## Classes -/

/-- A space or a tab. -/
def isSpaceOrTab (b : UInt8) : Bool := b == ' '.toUInt8 || b == '\t'.toUInt8

/-- A byte that ends a physical line. -/
def endsLine (b : UInt8) : Bool := b == lineFeed || b == carriageReturn

def isDigit (b : UInt8) : Bool := '0'.toUInt8 ≤ b && b ≤ '9'.toUInt8

def isOctalDigit (b : UInt8) : Bool := '0'.toUInt8 ≤ b && b ≤ '7'.toUInt8

def isBinaryDigit (b : UInt8) : Bool := b == '0'.toUInt8 || b == '1'.toUInt8

/-- A hexadecimal digit of either case. -/
def isHexDigit (b : UInt8) : Bool :=
  isDigit b || ('a'.toUInt8 ≤ b && b ≤ 'f'.toUInt8) || ('A'.toUInt8 ≤ b && b ≤ 'F'.toUInt8)

def isLetter (b : UInt8) : Bool :=
  ('a'.toUInt8 ≤ b && b ≤ 'z'.toUInt8) || ('A'.toUInt8 ≤ b && b ≤ 'Z'.toUInt8)

/-- A byte of a word that can be selected: an ASCII letter, a digit or an underscore. -/
def isWord (b : UInt8) : Bool := b == underscore || isLetter b || isDigit b

/-- A byte that can open an identifier: a letter, an underscore or any byte outside ASCII. -/
def startsName (b : UInt8) : Bool := b == underscore || isLetter b || 0x80 ≤ b

/-- A byte that can continue an identifier. -/
def continuesName (b : UInt8) : Bool := startsName b || isDigit b

/-- A UTF-8 continuation byte, `10xxxxxx`. -/
def isTrailing (b : UInt8) : Bool := 0x80 ≤ b && b ≤ 0xBF

end Byte

namespace Text

/-! ## Parts of a text -/

/-- The bytes in `[start, stop)`, clamped to the text. -/
def between (text : Text) (start stop : Nat) : Text :=
  (text.drop start).take (min stop text.length - start)

theorem length_between (text : Text) (start stop : Nat) :
    (between text start stop).length = min stop text.length - start := by
  simp only [between, List.length_take, List.length_drop]
  omega

/-- How many bytes at the head satisfy `p`. -/
def countWhile (p : UInt8 → Bool) (text : Text) : Nat := (text.takeWhile p).length

theorem countWhile_le_length (p : UInt8 → Bool) (text : Text) :
    countWhile p text ≤ text.length :=
  (List.takeWhile_prefix p).length_le

/-- The offset of the first occurrence of `word`. -/
def offsetOf (word : Text) : Text → Option Nat
  | [] => if word.isEmpty then some 0 else none
  | b :: rest => if word.isPrefixOf (b :: rest) then some 0 else (offsetOf word rest).map (· + 1)

end Text

end CodePane

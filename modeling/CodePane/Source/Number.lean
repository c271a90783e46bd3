import CodePane.Text.Byte

/-!
# Numbers in source text

How far a number reaches from its first byte. Digits may be separated by apostrophes and
underscores, and every letter or underscore that follows is part of the number as its suffix.
-/

namespace CodePane.Source

open Text

/-- The length of a run of digits and separators. -/
def digitsLength (isDigit : UInt8 → Bool) (text : Text) : Nat :=
  countWhile (fun b => isDigit b || b == Byte.apostrophe || b == Byte.underscore) text

/-- The length of a point and the digits after it. -/
def fractionLength (isDigit : UInt8 → Bool) : Text → Nat
  | b :: rest => if b = '.'.toUInt8 then 1 + digitsLength isDigit rest else 0
  | [] => 0

/-- The length of an exponent: a marker, a sign if there is one, and decimal digits. -/
def exponentLength (markers : Text) : Text → Nat
  | b :: rest =>
    if markers.contains b then
      let sign := if rest.head?.any (ascii "+-").contains then 1 else 0
      1 + sign + digitsLength Byte.isDigit (rest.drop sign)
    else 0
  | [] => 0

/-- The length of digits, fraction and exponent. -/
def scaledLength (isDigit : UInt8 → Bool) (markers : Text) (text : Text) : Nat :=
  let whole := digitsLength isDigit text
  let fixed := whole + fractionLength isDigit (text.drop whole)
  fixed + exponentLength markers (text.drop fixed)

/-- The length of a number without its suffix: hexadecimal after `0x`, binary after `0b`, octal
after a zero before an octal digit, else decimal. -/
def unsuffixedLength (text : Text) : Nat :=
  match text with
  | zero :: mark :: rest =>
    if zero = '0'.toUInt8 then
      if (ascii "xX").contains mark then 2 + scaledLength Byte.isHexDigit (ascii "pP") rest
      else if (ascii "bB").contains mark then 2 + digitsLength Byte.isBinaryDigit rest
      else if Byte.isOctalDigit mark then 1 + digitsLength Byte.isOctalDigit (mark :: rest)
      else scaledLength Byte.isDigit (ascii "eE") text
    else scaledLength Byte.isDigit (ascii "eE") text
  | _ => scaledLength Byte.isDigit (ascii "eE") text

/-- The length of a number with its suffix. -/
def numberLength (text : Text) : Nat :=
  let n := unsuffixedLength text
  n + countWhile (fun b => Byte.isLetter b || b == Byte.underscore) (text.drop n)

/-- A number begins here: a digit, or a point before a digit. -/
def startsNumber : Text → Bool
  | b :: rest => Byte.isDigit b || (b == '.'.toUInt8 && rest.head?.any Byte.isDigit)
  | [] => false

end CodePane.Source

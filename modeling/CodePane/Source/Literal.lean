import CodePane.Lexeme
import CodePane.Text.Byte

/-!
# Literals in source text

1. `quotedLength`, `rawLength`: how far a quoted and a raw literal reach behind their openings.
2. `literal?`: the string or character literal at the head of a text, with its encoding mark.
-/

namespace CodePane.Source

open Text

/-- The length of a quoted literal behind its opening quote. A backslash takes the next byte with
it; a line break that no backslash takes ends the literal and is not part of it. -/
def quotedLength (quote : UInt8) : Text → Nat
  | [] => 0
  | [b] => if b = Byte.backslash then 1 else if b = quote then 1
      else if Byte.endsLine b then 0 else 1
  | b :: next :: rest =>
    if b = Byte.backslash then 2 + quotedLength quote rest
    else if b = quote then 1
    else if Byte.endsLine b then 0
    else 1 + quotedLength quote (next :: rest)

/-- A parenthesis opens on the first line of a text. -/
def opensRaw : Text → Bool
  | [] => false
  | b :: rest => b == '('.toUInt8 || (!Byte.endsLine b && opensRaw rest)

/-- The length of a raw string behind its opening quote: a delimiter, a parenthesis, and all up to
the closing parenthesis, the delimiter again and a quote. If no parenthesis opens on the line, the
literal is an ordinary quoted one. -/
def rawLength (text : Text) : Nat :=
  if opensRaw text then
    let delimiter := text.takeWhile (· != '('.toUInt8)
    match offsetOf (')'.toUInt8 :: delimiter ++ [Byte.quote])
        (text.drop (delimiter.length + 1)) with
    | some k => delimiter.length + 1 + k + (delimiter.length + 2)
    | none => text.length
  else quotedLength Byte.quote text

/-- The length of the encoding mark that may stand before a literal. -/
def encodingLength (text : Text) : Nat :=
  if (ascii "u8").isPrefixOf text then 2
  else if text.head?.any (ascii "uUL").contains then 1
  else 0

/-- The literal at the head of a text, if one begins there. -/
def literal? (text : Text) : Option Lexeme :=
  let mark := encodingLength text
  match text.drop mark with
  | [] => none
  | b :: rest =>
    if b = Byte.quote then
      some (.single (mark + 1 + quotedLength Byte.quote rest) .string .plain)
    else if b = Byte.apostrophe then
      some (.single (mark + 1 + quotedLength Byte.apostrophe rest) .char .plain)
    else if b = 'R'.toUInt8 ∧ rest.head? = some Byte.quote then
      some (.single (mark + 2 + rawLength rest.tail) .string .plain)
    else none

end CodePane.Source

import CodePane.Source.Comment
import CodePane.Source.Literal

/-!
# Directives in source text

A directive begins with a hash sign that is the first thing on its line besides blanks. It reaches
to the end of the line, or further if a comment or a literal inside it crosses the line's end.

1. `directivePiece`: what stands at one place of a directive line.
2. `directiveBody`, `directive`: the rest of a directive line, and a whole one.
-/

namespace CodePane.Source

open Text

/-- The length of a path in quotes or angle brackets behind its opening, on a line of which `left`
bytes remain. Either close ends either opening. -/
def pathLength : (left : Nat) → Text → Nat
  | left + 1, b :: rest =>
    if b = '>'.toUInt8 ∨ b = Byte.quote then 1 else 1 + pathLength left rest
  | _, _ => 0

/-- What stands at the head of the rest of a directive line of which `left` bytes follow byte `b`.
Comments that run to the end of the line have no documentation commands here. -/
def directivePiece (takesPath : Bool) (left : Nat) (b : UInt8) (rest : Text) : Lexeme :=
  if b = '/'.toUInt8 ∧ rest.head? = some '/'.toUInt8 then
    .single (left + 1) .comment .italicOnly
  else if b = '/'.toUInt8 ∧ rest.head? = some '*'.toUInt8 then
    commentToClose rest.tail
  else if takesPath ∧ (b = '<'.toUInt8 ∨ b = Byte.quote) then
    .single (1 + pathLength left rest) .includePath .plain
  else if b = Byte.quote then
    .single (1 + quotedLength Byte.quote rest) .string .plain
  else if b = Byte.apostrophe then
    .single (1 + quotedLength Byte.apostrophe rest) .char .plain
  else .skip 1

/-- The rest of a directive line from offset `pos` of the directive on, when `left` bytes remain on
the line. Its length is that of the whole directive. -/
def directiveBody (takesPath : Bool) (pos : Nat) : (left : Nat) → Text → Lexeme
  | left + 1, b :: rest =>
    let piece := directivePiece takesPath left b rest
    let following :=
      if piece.length ≤ left then
        directiveBody takesPath (pos + piece.length) (left - (piece.length - 1))
          (rest.drop (piece.length - 1))
      else .skip (pos + piece.length)
    ⟨piece.tokensAt pos ++ following.tokens, following.length⟩
  | _, _ => .skip pos
termination_by left => left
decreasing_by omega

/-- The directives that name a path. -/
def takesPath (name : Text) : Bool := name == ascii "include" || name == ascii "import"

/-- The directive at the head of a text, when the text behind its hash sign is given. -/
def directive (text : Text) : Lexeme :=
  let blanks := countWhile Byte.isSpaceOrTab text
  let name := (text.drop blanks).takeWhile Byte.continuesName
  let head := 1 + blanks + name.length
  let line := text.drop (blanks + name.length)
  let body := directiveBody (takesPath name) head (countWhile (fun b => !Byte.endsLine b) line) line
  ⟨⟨0, head, .directive, .boldOnly⟩ :: body.tokens, body.length⟩

end CodePane.Source

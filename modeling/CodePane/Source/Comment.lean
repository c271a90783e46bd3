import CodePane.Lexeme
import CodePane.Vocabulary

/-!
# Comments in source text

1. `commentTokens`: a comment cut around the documentation commands inside it.
2. `commentToLineEnd`, `commentToClose`: comments up to the end of the line, and up to their close.
-/

namespace CodePane.Source

open Text

/-- The token of a comment's own text, none if the span is empty. -/
def commentText (start stop : Nat) : List Token :=
  if start < stop then [.ofSpan start stop .comment .italicOnly] else []

/-- A byte that can mark a documentation command. -/
def isCommandMark (b : UInt8) : Bool := b == '@'.toUInt8 || b == Byte.backslash

/-- The length of the documentation command's word behind byte `b`, if `b` marks one. -/
def commandLength? (b : UInt8) (rest : Text) : Option Nat :=
  if isCommandMark b then
    let word := rest.takeWhile Byte.continuesName
    if Vocabulary.isDocWord word then some word.length else none
  else none

/-- The tokens of a comment from offset `segment` on, when its content from offset `pos` on is
given and `closing` bytes follow the content. -/
def commentTokens (closing segment pos : Nat) : Text → List Token
  | [] => commentText segment (pos + closing)
  | b :: rest =>
    match commandLength? b rest with
    | some n =>
      let stop := pos + 1 + n
      commentText segment pos ++
        .ofSpan pos stop .docWord .boldOnly :: commentTokens closing stop stop (rest.drop n)
    | none => commentTokens closing segment (pos + 1) rest
termination_by content => content.length

/-- A comment with two opening bytes, the content and `closing` bytes. -/
def comment (content : Text) (closing : Nat) : Lexeme :=
  ⟨commentTokens closing 0 2 content, 2 + content.length + closing⟩

/-- The comment up to the end of the line, when the text behind its slashes is given. -/
def commentToLineEnd (text : Text) : Lexeme :=
  comment (text.takeWhile fun b => !Byte.endsLine b) 0

/-- The comment up to its close, when the text behind its opening is given. Without a close it
reaches to the end of the text. -/
def commentToClose (text : Text) : Lexeme :=
  match offsetOf (ascii "*/") text with
  | some k => comment (text.take k) 2
  | none => comment text 0

end CodePane.Source

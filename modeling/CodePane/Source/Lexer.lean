import CodePane.Source.Directive
import CodePane.Source.Number

/-!
# The source lexer

A source text is a sequence of lexemes, each recognised by what stands at its head. Blanks, stray
bytes and plain identifiers have no token.

1. `classify`: the class of an identifier.
2. `plainLexeme`, `lexeme`: what begins at the head of a text.
3. `scan`, `tokenize`: the tokens of a text.
-/

namespace CodePane.Source

open Text

/-! ## Words and operators -/

/-- The class of an identifier: the first word list that has it, else the default class. -/
def classify (word : Text) : TokenClass :=
  if Vocabulary.isReserved word then .keyword
  else if Vocabulary.isTypeName word then .type
  else if Vocabulary.isLibraryName word then .libraryName
  else if Vocabulary.isForeignName word then .foreignName
  else if Vocabulary.isMarkedVariable word then .markedVariable
  else .default

/-- The piece that an identifier is: keywords are bold, and the default class has no token. -/
def identifier (word : Text) : Lexeme :=
  match classify word with
  | .default => .skip word.length
  | .keyword => .single word.length .keyword .boldOnly
  | c => .single word.length c .plain

/-- The length of the operator at the head of a text that begins with an operator byte. -/
def operatorLength (text : Text) : Nat :=
  match Vocabulary.longOperators.find? (·.isPrefixOf text) with
  | some op => op.length
  | none => 1

/-- A byte that separates list members or statements. -/
def isDelimiter (b : UInt8) : Bool := (ascii ",;").contains b

def isBracket (b : UInt8) : Bool := (ascii "()[]\x7b\x7d").contains b

/-! ## Lexemes -/

/-- What begins at the head of a text, if that is no blank, no directive and no comment. -/
def plainLexeme (b : UInt8) (rest : Text) : Lexeme :=
  match literal? (b :: rest) with
  | some l => l
  | none =>
    if startsNumber (b :: rest) then .single (numberLength (b :: rest)) .number .plain
    else if isDelimiter b then .single 1 .delimiter .plain
    else if isBracket b then .single 1 .bracket .plain
    else if Vocabulary.beginsOperator b then .single (operatorLength (b :: rest)) .operator .plain
    else if Byte.startsName b then identifier (b :: rest.takeWhile Byte.continuesName)
    else .skip 1

/-- What begins at the head of a text. `freshLine` says that only blanks stand before it on its
line. -/
def lexeme (freshLine : Bool) (b : UInt8) (rest : Text) : Lexeme :=
  if Byte.endsLine b || Byte.isSpaceOrTab b then .skip 1
  else if b = '#'.toUInt8 ∧ freshLine then directive rest
  else if b = '/'.toUInt8 ∧ rest.head? = some '/'.toUInt8 then commentToLineEnd rest.tail
  else if b = '/'.toUInt8 ∧ rest.head? = some '*'.toUInt8 then commentToClose rest.tail
  else plainLexeme b rest

/-- Whether only blanks stand on the line before what follows a lexeme that begins with `b`. -/
def freshLineAfter (freshLine : Bool) (b : UInt8) : Bool :=
  Byte.endsLine b || (Byte.isSpaceOrTab b && freshLine)

/-! ## Texts -/

/-- The tokens of a text that begins at offset `pos`. -/
def scan (freshLine : Bool) (pos : Nat) : Text → List Token
  | [] => []
  | b :: rest =>
    let l := lexeme freshLine b rest
    l.tokensAt pos ++
      scan (freshLineAfter freshLine b) (pos + l.length) (rest.drop (l.length - 1))
termination_by text => text.length

def tokenize (text : Text) : List Token := scan true 0 text

end CodePane.Source

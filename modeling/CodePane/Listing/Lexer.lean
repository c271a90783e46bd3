import CodePane.Lexeme
import CodePane.Vocabulary

/-!
# The listing lexer

A listing of machine code is read line by line. A line may have a marker of the current
instruction, an address, a name in angle brackets, and after a colon an instruction, its operands
and a comment:

    => 0x0000000000401136 <main+4>: mov %rsp,%rbp   # comment

1. `head`: what stands before the colon.
2. `operand`, `operands`: what stands behind the instruction.
3. `line`, `scan`, `tokenize`: lines and whole listings.
-/

namespace CodePane.Listing

open Text

/-- The token of a span, none if the span is empty. -/
def tag (start stop : Nat) (c : TokenClass) (s : Style) : List Token :=
  if start < stop then [.ofSpan start stop c s] else []

/-- The text begins with `0x` or `0X`. -/
def startsHex (text : Text) : Bool := (ascii "0x").isPrefixOf text || (ascii "0X").isPrefixOf text

/-- How many bytes a hexadecimal number with its mark takes. -/
def hexLength (text : Text) : Nat := 2 + countWhile Byte.isHexDigit (text.drop 2)

/-! ## Before the colon -/

/-- The marker of the current instruction at the head of a line, after blanks. -/
def marker (line : Text) : Lexeme :=
  let blanks := countWhile Byte.isSpaceOrTab line
  if (ascii "=>").isPrefixOf (line.drop blanks) then
    ⟨[⟨blanks, 2, .operator, .plain⟩], blanks + 2⟩
  else .skip blanks

/-- The address at the head of the rest of a line, after blanks. -/
def address (line : Text) : Lexeme :=
  let blanks := countWhile Byte.isSpaceOrTab line
  let number := line.drop blanks
  if startsHex number then
    let n := hexLength number
    ⟨[⟨blanks, n, .address, .plain⟩], blanks + n⟩
  else .skip blanks

/-- The name in angle brackets at the head of the rest of a line, after blanks. The label is the
name without an offset. -/
def name (line : Text) : Lexeme :=
  let blanks := countWhile Byte.isSpaceOrTab line
  match line.drop blanks with
  | [] => .skip blanks
  | b :: rest =>
    if b = '<'.toUInt8 then
      let label := countWhile (fun b => b != '>'.toUInt8 && b != '+'.toUInt8) rest
      let inside := countWhile (· != '>'.toUInt8) rest
      let start := blanks + 1
      ⟨tag start (start + label) .label .plain, start + min (inside + 1) rest.length⟩
    else .skip blanks

/-- One piece of a line and then another that begins where the first one ends. -/
def sequence (first second : Text → Lexeme) (line : Text) : Lexeme :=
  let a := first line
  let b := second (line.drop a.length)
  ⟨a.tokens ++ b.tokensAt a.length, a.length + b.length⟩

/-- All that stands at the head of a line before what leads to the colon. -/
def head : Text → Lexeme := sequence marker (sequence address name)

/-! ## Behind the colon -/

/-- A byte of a register's name. -/
def isRegisterByte (b : UInt8) : Bool := Byte.continuesName b

/-- What begins with byte `b` among the operands of a line. -/
def operand (b : UInt8) (rest : Text) : Lexeme :=
  if b = '#'.toUInt8 then .single (1 + rest.length) .comment .italicOnly
  else if b = '%'.toUInt8 then
    let word := rest.takeWhile isRegisterByte
    if Vocabulary.isRegisterName word then .single (1 + word.length) .register .plain
    else .skip (1 + word.length)
  else if b = '$'.toUInt8 then
    let n := if startsHex rest then hexLength rest else countWhile Byte.isDigit rest
    if 0 < n then .single (1 + n) .number .plain else .skip 1
  else if startsHex (b :: rest) then .single (hexLength (b :: rest)) .number .plain
  else .skip 1

/-- The operands and the comment of a line from offset `pos` on. -/
def operands (pos : Nat) : Text → List Token
  | [] => []
  | b :: rest =>
    let l := operand b rest
    l.tokensAt pos ++ operands (pos + l.length) (rest.drop (l.length - 1))
termination_by line => line.length

/-- The instruction, the operands and the comment of a line whose part from offset `pos` on, behind
the colon, is given. -/
def code (pos : Nat) (rest : Text) : List Token :=
  let start := countWhile Byte.isSpaceOrTab rest
  let mnemonic := countWhile (fun b => Byte.isLetter b || Byte.isDigit b) (rest.drop start)
  let stop := start + mnemonic
  tag (pos + start) (pos + stop) .instruction .boldOnly ++ operands (pos + stop) (rest.drop stop)

/-! ## Lines and listings -/

/-- The tokens of a line. A line without a colon behind its head has no code. -/
def line (text : Text) : List Token :=
  let h := head text
  let colon := h.length + countWhile (· != ':'.toUInt8) (text.drop h.length)
  h.tokens ++
    match text.drop colon with
    | [] => []
    | _ :: rest => code (colon + 1) rest

/-- How many bytes the line break at the head of a text takes: two for a carriage return with its
line feed. -/
def breakLength (text : Text) : Nat :=
  if [Byte.carriageReturn, Byte.lineFeed].isPrefixOf text then 2 else 1

/-- The tokens of a listing that begins at offset `pos`. -/
def scan (pos : Nat) : Text → List Token
  | [] => []
  | b :: rest =>
    let content := (b :: rest).takeWhile fun b => !Byte.endsLine b
    let length := content.length + breakLength ((b :: rest).drop content.length)
    (line content).map (Token.shift pos) ++ scan (pos + length) (rest.drop (length - 1))
termination_by text => text.length

def tokenize (text : Text) : List Token := scan 0 text

end CodePane.Listing

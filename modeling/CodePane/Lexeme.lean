import CodePane.Token

/-!
# Lexemes

What a lexer recognises at the head of a text: how many bytes it covers, and the tokens inside it.
The offsets of the tokens count from the head of the lexeme.
-/

namespace CodePane

/-- A recognised piece of a text. -/
structure Lexeme where
  tokens : List Token
  length : Nat
  deriving DecidableEq, Repr

namespace Lexeme

/-- A piece that is one token. -/
def single (length : Nat) (c : TokenClass) (s : Style) : Lexeme := ⟨[⟨0, length, c, s⟩], length⟩

/-- A piece without tokens. -/
def skip (length : Nat) : Lexeme := ⟨[], length⟩

/-- The tokens of a lexeme that begins at `pos`. -/
def tokensAt (pos : Nat) (l : Lexeme) : List Token := l.tokens.map (Token.shift pos)

end Lexeme

end CodePane

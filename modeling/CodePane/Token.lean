/-!
# Tokens

A token gives a span of a text a class and a style. Colours belong to the theme, not to the
token.

1. `TokenClass`: the twenty classes, their order and their names.
2. `Style`: bold and italic.
3. `Token`: a classified span.
-/

namespace CodePane

/-! ## Classes -/

/-- What a span of a text is, as far as its colour goes. -/
inductive TokenClass where
  | default
  | keyword
  | type
  | number
  | string
  | char
  | comment
  | directive
  | includePath
  | operator
  | libraryName
  | foreignName
  | markedVariable
  | docWord
  | delimiter
  | bracket
  | address
  | register
  | instruction
  | label
  deriving DecidableEq, Repr

namespace TokenClass

def all : List TokenClass :=
  [.default, .keyword, .type, .number, .string, .char, .comment, .directive, .includePath,
    .operator, .libraryName, .foreignName, .markedVariable, .docWord, .delimiter,
    .bracket, .address, .register, .instruction, .label]

def index (c : TokenClass) : Nat := all.idxOf c

/-- The class at a place of the order. -/
def ofIndex? (i : Nat) : Option TokenClass := all[i]?

theorem ofIndex?_index (c : TokenClass) : ofIndex? c.index = some c := by
  cases c <;> rfl

/-- The name of a class in settings and dumps. -/
def name : TokenClass → String
  | .default => "default"
  | .keyword => "keyword"
  | .type => "type"
  | .number => "number"
  | .string => "string"
  | .char => "char"
  | .comment => "comment"
  | .directive => "preprocessor"
  | .includePath => "include_path"
  | .operator => "operator"
  | .libraryName => "standard_name"
  | .foreignName => "third_party_namespace"
  | .markedVariable => "special_variable"
  | .docWord => "doc_annotation"
  | .delimiter => "delimiter"
  | .bracket => "bracket"
  | .address => "address"
  | .register => "register"
  | .instruction => "instruction"
  | .label => "label"

def ofName? (n : String) : Option TokenClass := all.find? (·.name == n)

theorem ofName?_name (c : TokenClass) : ofName? c.name = some c := by
  cases c <;> decide

end TokenClass

/-! ## Styles -/

/-- The font style of a token. -/
structure Style where
  bold : Bool
  italic : Bool
  deriving DecidableEq, Repr

namespace Style

def plain : Style := ⟨false, false⟩

def boldOnly : Style := ⟨true, false⟩

def italicOnly : Style := ⟨false, true⟩

end Style

/-! ## Tokens -/

/-- A classified span `[start, start + length)`. -/
structure Token where
  start : Nat
  length : Nat
  tokenClass : TokenClass
  style : Style
  deriving DecidableEq, Repr

namespace Token

/-- The offset just past a token. -/
def stop (t : Token) : Nat := t.start + t.length

/-- The greatest offset that a machine word holds. -/
def greatestOffset : Nat := UInt64.size - 1

/-- The offset just past a token as a machine word, if it is not too great for one. -/
def stop? (t : Token) : Option Nat :=
  if t.start + t.length ≤ greatestOffset then some (t.start + t.length) else none

/-- The token of the span `[start, stop)`, empty if `stop` does not come after `start`. -/
def ofSpan (start stop : Nat) (c : TokenClass) (s : Style) : Token := ⟨start, stop - start, c, s⟩

def isEmpty (t : Token) : Bool := t.length == 0

/-- The same token `n` bytes further on. -/
def shift (n : Nat) (t : Token) : Token := { t with start := n + t.start }

/-- The token covers this offset. -/
def Covers (t : Token) (pos : Nat) : Prop := t.start ≤ pos ∧ pos < t.stop

instance (t : Token) (pos : Nat) : Decidable (t.Covers pos) :=
  inferInstanceAs (Decidable (_ ∧ _))

theorem covers_ofSpan {start stop pos : Nat} {c : TokenClass} {s : Style} :
    (ofSpan start stop c s).Covers pos ↔ start ≤ pos ∧ pos < stop := by
  simp only [ofSpan, Covers, Token.stop]
  omega

theorem covers_shift {t : Token} {n pos : Nat} : (t.shift n).Covers (n + pos) ↔ t.Covers pos := by
  simp only [shift, Covers, stop]
  omega

end Token

end CodePane

import CodePane.Listing.Lexer
import CodePane.Source.Lexer

/-!
# Kinds of content

The kind of a text decides which lexer colours it.
-/

namespace CodePane

/-- What a text is. -/
inductive TextKind where
  | source
  | listing
  | plain
  deriving DecidableEq, Repr

namespace TextKind

/-- The tokens of a text of a kind; a plain text has none. -/
def tokenize : TextKind → Text → List Token
  | .source, text => Source.tokenize text
  | .listing, text => Listing.tokenize text
  | .plain, _ => []

def name : TextKind → String
  | .source => "source"
  | .listing => "disassembly"
  | .plain => "plain"

def ofName? (n : String) : Option TextKind :=
  [TextKind.source, .listing, .plain].find? (·.name == n)

theorem ofName?_name (k : TextKind) : ofName? k.name = some k := by
  cases k <;> decide

/-! ## Kinds by file name -/

/-- The last name of a path. A path that ends in `..`, and one without names, has none. -/
def fileName? (path : String) : Option String :=
  match ((path.splitOn "/").filter fun part => part != "" && part != ".").getLast? with
  | some ".." => none
  | name => name

/-- What follows the last point of a file name, unless that point is its first character. -/
def extension? (name : String) : Option String :=
  let chars := name.toList.reverse
  match chars.dropWhile (· != '.') with
  | _ :: _ :: _ => some (String.ofList (chars.takeWhile (· != '.')).reverse)
  | _ => none

/-- The kind that a path suggests by its extension, in either case of ASCII letters. -/
def ofPath (path : String) : TextKind :=
  match (fileName? path).bind extension? with
  | none => .source
  | some e =>
    let e := String.ofList (e.toList.map Char.toLower)
    if ["s", "asm", "dis"].contains e then .listing
    else if ["txt", "log"].contains e then .plain
    else .source

end TextKind

end CodePane

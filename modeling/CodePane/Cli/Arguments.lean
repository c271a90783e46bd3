import CodePane.TextKind

/-!
# Command lines

A command line names one file and may have options. The value of an option stands in the next
argument, or behind an equals sign if it begins with a hyphen; behind a bare `--` there are no
options.

1. `Request`, `Command`: what a command line can ask for.
2. `ArgumentError`: what can be wrong with it.
3. `Draft`: what has been read so far.
4. `parse`: from arguments to a command.
-/

namespace CodePane.Cli

/-! ## Commands -/

/-- How the result is written. -/
inductive ReportFormat where
  | text
  | json
  deriving DecidableEq, Repr

/-- A file to show, and how. -/
structure Request where
  file : String
  kind : Option TextKind := none
  settings : Option String := none
  logFile : Option String := none
  format : ReportFormat := .text
  width : Int := 800
  height : Int := 600
  topLine : Option Nat := none
  paint : Bool := false
  deriving DecidableEq, Repr

/-- What a command line asks for. -/
inductive Command where
  | version
  | view (r : Request)
  deriving DecidableEq, Repr

/-- The options. All but the last take a value. -/
inductive OptionName where
  | kind
  | settings
  | logFile
  | format
  | width
  | height
  | topLine
  | paint
  deriving DecidableEq, Repr

namespace OptionName

def name : OptionName → String
  | .kind => "kind"
  | .settings => "config"
  | .logFile => "log-file"
  | .format => "format"
  | .width => "width"
  | .height => "height"
  | .topLine => "top"
  | .paint => "paint"

def all : List OptionName :=
  [.kind, .settings, .logFile, .format, .width, .height, .topLine, .paint]

def ofName? (n : String) : Option OptionName := all.find? (·.name == n)

theorem ofName?_name (o : OptionName) : ofName? o.name = some o := by
  cases o <;> decide

end OptionName

/-- What can be wrong with a command line. -/
inductive ArgumentError where
  | noFile
  | extraArgument (argument : String)
  | unknownOption (argument : String)
  | missingValue (option : OptionName)
  | badValue (option : OptionName) (value : String)
  | repeatedOption (option : OptionName)
  | unexpectedValue (name value : String)
  | emptyFileName
  deriving DecidableEq, Repr

namespace ArgumentError

def message : ArgumentError → String
  | .noFile => "a file to view is required"
  | .extraArgument a => "unexpected argument '" ++ a ++ "'"
  | .unknownOption a => "unknown option '" ++ a ++ "'"
  | .missingValue o => "option '--" ++ o.name ++ "' needs a value"
  | .badValue o v => "invalid value '" ++ v ++ "' for option '--" ++ o.name ++ "'"
  | .repeatedOption o => "option '--" ++ o.name ++ "' is given more than once"
  | .unexpectedValue n v => "unexpected value '" ++ v ++ "' for '--" ++ n ++ "'"
  | .emptyFileName => "the name of the file is empty"

end ArgumentError

/-! ## Values -/

/-- The value of decimal digits, at least one. -/
def digits? (cs : List Char) : Option Nat :=
  if !cs.isEmpty && cs.all Char.isDigit then
    some (cs.foldl (fun n c => n * 10 + (c.toNat - 48)) 0)
  else none

/-- A natural number of at most 64 bits, with or without a plus sign. -/
def nat? (value : String) : Option Nat :=
  let digits := match value.toList with
    | '+' :: rest => rest
    | cs => cs
  (digits? digits).filter (· < Nat.pow 2 64)

/-- A pixel quantity, with or without a sign. -/
def pixels? (value : String) : Option Int :=
  let n : Option Int := match value.toList with
    | '+' :: rest => (digits? rest).map Int.ofNat
    | '-' :: rest => (digits? rest).map fun n => -(n : Int)
    | cs => (digits? cs).map Int.ofNat
  n.filter fun n => -2147483648 ≤ n ∧ n ≤ 2147483647

/-- A file name, which is not empty. -/
def path? (value : String) : Option String := if value.isEmpty then none else some value

def format? (value : String) : Option ReportFormat :=
  match value with
  | "text" => some .text
  | "json" => some .json
  | _ => none

/-! ## Reading arguments -/

/-- What has been read of a command line: the file and the options so far. -/
structure Draft where
  file : Option String := none
  given : List OptionName := []
  request : Request := { file := "" }

namespace Draft

/-- The request with the value of an option. -/
def record? (r : Request) (o : OptionName) (value : String) : Option Request :=
  match o with
  | .kind => (TextKind.ofName? value).map fun k => { r with kind := some k }
  | .settings => (path? value).map fun p => { r with settings := some p }
  | .logFile => (path? value).map fun p => { r with logFile := some p }
  | .format => (format? value).map fun f => { r with format := f }
  | .width => (pixels? value).map fun n => { r with width := n }
  | .height => (pixels? value).map fun n => { r with height := n }
  | .topLine => (nat? value).map fun n => { r with topLine := some n }
  | .paint => some { r with paint := true }

/-- Takes an option with its value. -/
def option (d : Draft) (o : OptionName) (value : String) : Except ArgumentError Draft :=
  if d.given.contains o then .error (.repeatedOption o)
  else match record? d.request o value with
    | some r => .ok { d with given := o :: d.given, request := r }
    | none => .error (.badValue o value)

/-- Takes an argument that is no option. -/
def positional (d : Draft) (argument : String) : Except ArgumentError Draft :=
  if d.file.isSome then .error (.extraArgument argument)
  else if argument.isEmpty then .error .emptyFileName
  else .ok { d with file := some argument }

/-- The command of a draft that is complete. -/
def finish (d : Draft) : Except ArgumentError Command :=
  match d.file with
  | some file => .ok (.view { d.request with file := file })
  | none => .error .noFile

end Draft

/-- An argument that is written like an option. -/
def looksLikeOption (argument : String) : Bool :=
  argument.toList.head? == some '-' && argument != "-"

/-- The name of a long option, and its value behind an equals sign. -/
def splitLong (cs : List Char) : String × Option String :=
  let name := String.ofList (cs.takeWhile (· != '='))
  match cs.dropWhile (· != '=') with
  | _ :: value => (name, some (String.ofList value))
  | [] => (name, none)

/-- An argument that begins with one hyphen or more. -/
inductive Hyphenated where
  | endOfOptions
  | long (name : String) (value : Option String)
  | short (letters : List Char)

/-- What kind of option an argument is, if it is one. -/
def hyphenated? (argument : String) : Option Hyphenated :=
  match argument.toList with
  | ['-', '-'] => some .endOfOptions
  | '-' :: '-' :: cs => some (.long (splitLong cs).1 (splitLong cs).2)
  | '-' :: c :: cs => some (.short (c :: cs))
  | _ => none

/-- Reads the arguments that follow a draft. -/
def parseFrom (d : Draft) : List String → Except ArgumentError Command
  | [] => d.finish
  | argument :: rest =>
    match hyphenated? argument with
    | none => do parseFrom (← d.positional argument) rest
    | some .endOfOptions => do (← rest.foldlM Draft.positional d).finish
    | some (.short letters) =>
      if letters.head? = some 'V' then .ok .version else .error (.unknownOption argument)
    | some (.long "version" none) => .ok .version
    | some (.long "version" (some value)) => .error (.unexpectedValue "version" value)
    | some (.long name value?) =>
      match OptionName.ofName? name, value?, rest with
      | none, _, _ => .error (.unknownOption argument)
      | some .paint, some value, _ => .error (.unexpectedValue name value)
      | some .paint, none, rest => do parseFrom (← d.option .paint "") rest
      | some o, some value, rest => do parseFrom (← d.option o value) rest
      | some o, none, [] => .error (.missingValue o)
      | some o, none, value :: rest =>
        if looksLikeOption value then .error (.missingValue o)
        else do parseFrom (← d.option o value) rest
termination_by arguments => arguments.length

/-- The command of a command line. -/
def parse (arguments : List String) : Except ArgumentError Command := parseFrom {} arguments

end CodePane.Cli

import CodePane.Text.Byte

/-!
# Files

1. `FileSystem`: what the program needs of a file system, in any monad.
2. `FileTree`: files held in memory, by their names.
-/

namespace CodePane.Cli

/-- What the program needs of a file system: to make an empty file, which fails if there can be none
of that name; to read a file, if it can be read; and the name of the user's settings file. -/
structure FileSystem (m : Type → Type) where
  create : String → m Bool
  read : String → m (Option Text)
  settingsFile : m (Option String)

/-! ## Files in memory -/

/-- Files by the parts of their names. A folder is there if a file lies in it. -/
abbrev FileTree := List (List String × Text)

namespace FileTree

/-- The parts of a file's own name. -/
def parts (name : String) : List String :=
  (name.splitOn "/").filter fun part => part != "" && part != "."

/-- The tree with files by their names. -/
def ofFiles (files : List (String × Text)) : FileTree :=
  files.map fun (name, text) => (parts name, text)

/-- Some file lies in the folder, or it is the folder of the tree itself. -/
def isFolder (t : FileTree) (place : List String) : Bool :=
  place.isEmpty || t.any fun (parts, _) => place.isPrefixOf parts && parts != place

/-! ### Places -/

/-- The most bytes that a part of a name can have. -/
def greatestPartSize : Nat := 255

/-- The most bytes that a name can have. -/
def greatestNameSize : Nat := 4095

/-- Where one part of a name leads to from a place. Only a folder leads anywhere, and nothing leads
out of the tree. -/
def step? (t : FileTree) (place : List String) (part : String) : Option (List String) :=
  if !t.isFolder place then none
  else if part = "" ∨ part = "." then some place
  else if part = ".." then if place.isEmpty then none else some place.dropLast
  else if part.utf8ByteSize ≤ greatestPartSize then some (place ++ [part])
  else none

/-- The place that a relative name leads to. All before its last part are folders, but at the place
itself there may be a file, a folder or nothing. -/
def place? (t : FileTree) (name : String) : Option (List String) :=
  if name.toList.head? = some '/' ∨ greatestNameSize < name.utf8ByteSize then none
  else (name.splitOn "/").foldlM t.step? []

/-! ### Files -/

def read? (t : FileTree) (name : String) : Option Text :=
  (t.place? name).bind fun place => List.lookup place t

/-- Something is there, a file or a folder. -/
def hasEntry (t : FileTree) (name : String) : Bool :=
  (t.place? name).any fun place => t.isFolder place || (List.lookup place t).isSome

/-- The tree with an empty file, in a folder that is there. -/
def create? (t : FileTree) (name : String) : Option FileTree :=
  match t.place? name with
  | none => none
  | some place =>
    if t.isFolder place then none else some ((place, []) :: t.filter (·.1 != place))

/-- A tree as a file system. -/
def fileSystem (settingsFile : Option String) : FileSystem (StateM FileTree) where
  create name := do
    match (← get).create? name with
    | some t =>
      set t
      return true
    | none => return false
  read name := return (← get).read? name
  settingsFile := return settingsFile

end FileTree

end CodePane.Cli

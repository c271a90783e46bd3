import CodePane.Text.Byte

/-!
# The vocabulary

The fixed words that the lexers know, as bytes.

1. `isReserved`, `isTypeName`, `isLibraryName`, `isForeignName`, `isMarkedVariable`: the
   classes of identifiers.
2. `isDocWord`: the commands of documentation comments.
3. `longOperators`, `beginsOperator`: operators.
4. `isRegisterName`: the registers of a listing.
-/

namespace CodePane.Vocabulary

/-! ## Identifiers -/

/-- The keywords, the built-in types among them. -/
def reservedWords : List Text :=
  ["bool", "char", "char8_t", "char16_t", "char32_t", "wchar_t", "short", "int", "long", "float",
    "double", "void", "signed", "unsigned", "alignas", "alignof", "asm", "auto", "break", "case",
    "catch", "class", "consteval", "constexpr", "constinit", "const_cast", "continue", "co_await",
    "co_return", "co_yield", "decltype", "default", "delete", "do", "else", "enum", "explicit",
    "export", "extern", "false", "final", "for", "friend", "goto", "if", "inline", "mutable",
    "namespace", "new", "noexcept", "nullptr", "operator", "override", "private", "protected",
    "public", "register", "reinterpret_cast", "requires", "return", "sizeof", "static_assert",
    "static_cast", "struct", "switch", "template", "this", "thread_local", "throw", "true", "try",
    "typedef", "typeid", "typename", "union", "using", "virtual", "volatile", "while"].map ascii

/-- The library's names of types, and the two storage words shown like them. -/
def typeNames : List Text :=
  ["size_t", "ptrdiff_t", "int8_t", "int16_t", "int32_t", "int64_t", "uint8_t", "uint16_t",
    "uint32_t", "uint64_t", "intptr_t", "uintptr_t", "static", "const"].map ascii

/-- The names of the standard library. -/
def libraryNames : List Text :=
  ["string", "vector", "array", "map", "unordered_map", "set", "unordered_set", "list", "deque",
    "stack", "queue", "priority_queue", "bitset", "iostream", "istream", "ostream", "fstream",
    "stringstream", "exception", "runtime_error", "logic_error", "invalid_argument", "shared_ptr",
    "unique_ptr", "weak_ptr", "make_shared", "make_unique", "thread", "mutex", "lock_guard",
    "unique_lock", "future", "promise", "regex", "smatch", "cmatch", "function", "bind", "tuple",
    "pair", "optional", "variant", "any", "filesystem", "path"].map ascii

/-- The namespaces of well-known other libraries. -/
def foreignNames : List Text :=
  ["asio", "filesystem", "system", "thread", "program_options", "property_tree", "date_time",
    "chrono", "atomic", "container"].map ascii

/-- A keyword. -/
def isReserved (word : Text) : Bool := reservedWords.contains word

/-- A library type or a storage word. -/
def isTypeName (word : Text) : Bool := typeNames.contains word

/-- A name of the standard library. -/
def isLibraryName (word : Text) : Bool := libraryNames.contains word

/-- A namespace of another library, or any word that begins with `boost`. -/
def isForeignName (word : Text) : Bool :=
  (ascii "boost").isPrefixOf word || foreignNames.contains word

/-- A word that begins with `m_`, `g_` or `s_`. -/
def isMarkedVariable (word : Text) : Bool :=
  (ascii "m_").isPrefixOf word || (ascii "g_").isPrefixOf word || (ascii "s_").isPrefixOf word

/-! ## Documentation commands -/

/-- The commands of documentation comments. -/
def docWords : List Text :=
  ["brief", "short", "class", "struct", "union", "enum", "fn", "var", "def", "typedef", "file",
    "namespace", "package", "interface", "exception", "throw", "throws", "see", "sa", "link",
    "code", "endcode", "verbatim", "endverbatim", "copydoc", "copybrief", "copydetails", "author",
    "authors", "version", "since", "date", "copyright", "license", "invariant", "note", "warning",
    "pre", "post", "remark", "attention", "par", "paragraph", "param", "tparam", "return",
    "returns", "result", "retval", "addtogroup", "ingroup", "weakgroup", "group", "defgroup",
    "deprecated", "todo", "bug", "test", "example", "page", "section", "subsection",
    "subsubsection", "anchor", "ref", "refitem"].map ascii

/-- A documentation command, without its mark. -/
def isDocWord (word : Text) : Bool := docWords.contains word

/-! ## Operators -/

/-- The operators of more than one byte, longer ones first. -/
def longOperators : List Text :=
  ["<<=", ">>=", "==", "!=", "<=", ">=", "&&", "||", "<<", ">>", "++", "--", "+=", "-=", "*=",
    "/=", "%=", "&=", "|=", "^="].map ascii

/-- A byte that is an operator or begins one. -/
def beginsOperator (b : UInt8) : Bool := (ascii "+-*/%=<>!&|^~?:").contains b

/-! ## Registers -/

/-- The registers without a number in their names. -/
def plainRegisters : List Text :=
  ["rax", "rbx", "rcx", "rdx", "rsi", "rdi", "rsp", "rbp", "eax", "ebx", "ecx", "edx", "esi",
    "edi", "esp", "ebp", "ax", "bx", "cx", "dx", "si", "di", "sp", "bp", "al", "bl", "cl", "dl",
    "ah", "bh", "ch", "dh", "cs", "ds", "es", "fs", "gs", "ss", "rip", "eip", "ip"].map ascii

/-- The part of a numbered general register after its `r`: 8 to 15, then nothing or the letter of a
smaller size. -/
def isNumberedRegister (rest : Text) : Bool :=
  (["8", "9", "10", "11", "12", "13", "14", "15"].map ascii).any fun number =>
    (["", "b", "w", "d"].map ascii).any fun size => rest == number ++ size

/-- The number of a vector register: one or two digits, at most 31. -/
def isVectorNumber (digits : Text) : Bool :=
  !digits.isEmpty && digits.length ≤ 2 && digits.all Byte.isDigit &&
    digits.foldl (fun n d => n * 10 + (d.toNat - 48)) 0 ≤ 31

/-- A register as it is written after the percent sign. -/
def isRegisterName (name : Text) : Bool :=
  plainRegisters.contains name
    || (name.head? == some 'r'.toUInt8 && isNumberedRegister name.tail)
    || ((["xmm", "ymm", "zmm"].map ascii).contains (name.take 3) && isVectorNumber (name.drop 3))

end CodePane.Vocabulary

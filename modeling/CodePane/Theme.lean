import CodePane.Hex
import CodePane.Token

/-!
# Themes

A theme gives every class of tokens a colour. The built-in one is light.

1. `Color`: 24-bit colours and their `#rrggbb` texts.
2. `Overrides`: colour texts by class name, in the order of the names.
3. `Theme`: the built-in theme and its overriding.
-/

namespace CodePane

/-! ## Colours -/

structure Color where
  red : UInt8
  green : UInt8
  blue : UInt8
  deriving DecidableEq, Repr

namespace Color

/-- The colour of a text `#rrggbb`. -/
def ofHex? (text : String) : Option Color :=
  match text.toList with
  | ['#', a, b, c, d, e, f] => do return ⟨← Hex.byte? a b, ← Hex.byte? c d, ← Hex.byte? e f⟩
  | _ => none

/-- The text of a colour, in lower case. -/
def hexText (c : Color) : String :=
  String.ofList
    ('#' :: (Hex.byteDigits c.red ++ Hex.byteDigits c.green ++ Hex.byteDigits c.blue))

theorem ofHex?_hexText (c : Color) : ofHex? c.hexText = some c := by
  simp [ofHex?, hexText, Hex.byteDigits, Hex.byte?_digits]

end Color

/-! ## Overrides -/

/-- Entries of a map from names to texts with one more, which replaces an entry of its name. -/
def insertEntry (name value : String) : List (String × String) → List (String × String)
  | [] => [(name, value)]
  | (n, v) :: rest =>
    if name < n then (name, value) :: (n, v) :: rest
    else if name = n then (name, value) :: rest
    else (n, v) :: insertEntry name value rest

/-- Colour texts by class name; neither needs to be valid. The names are in increasing order and
each occurs once. -/
structure Overrides where
  entries : List (String × String)
  sorted : entries.Pairwise (fun a b => a.1 < b.1)
  deriving DecidableEq

theorem fst_mem_insertEntry {name value : String} {entries : List (String × String)}
    {e : String × String} (h : e ∈ insertEntry name value entries) :
    e = (name, value) ∨ e ∈ entries := by
  induction entries with
  | nil => simpa [insertEntry] using h
  | cons head rest ih => grind [insertEntry]

theorem insertEntry_sorted (name value : String) {entries : List (String × String)}
    (h : entries.Pairwise (fun a b => a.1 < b.1)) :
    (insertEntry name value entries).Pairwise (fun a b => a.1 < b.1) := by
  induction entries with
  | nil => simp [insertEntry]
  | cons head rest ih =>
    obtain ⟨n, v⟩ := head
    obtain ⟨hn, hrest⟩ := List.pairwise_cons.1 h
    unfold insertEntry
    split
    · next hlt =>
      refine List.pairwise_cons.2 ⟨fun e he => ?_, h⟩
      rcases List.mem_cons.1 he with rfl | he
      · exact hlt
      · exact String.lt_trans hlt (hn e he)
    · split
      · next heq => exact List.pairwise_cons.2 ⟨fun e he => heq ▸ hn e he, hrest⟩
      · next hlt hne =>
        refine List.pairwise_cons.2 ⟨fun e he => ?_, ih hrest⟩
        rcases fst_mem_insertEntry he with rfl | he
        · exact Std.lt_of_le_of_ne (String.not_lt.1 hlt) (Ne.symm hne)
        · exact hn e he

namespace Overrides

def empty : Overrides := ⟨[], .nil⟩

/-- The overrides with one more entry, which replaces an entry of the same name. -/
def insert (o : Overrides) (name value : String) : Overrides :=
  ⟨insertEntry name value o.entries, insertEntry_sorted name value o.sorted⟩

/-- The overrides of entries in any order; later ones win. -/
def ofList (entries : List (String × String)) : Overrides :=
  entries.foldl (fun o e => o.insert e.1 e.2) empty

end Overrides

/-! ## Themes -/

/-- A colour for every class. -/
structure Theme where
  color : TokenClass → Color

namespace Theme

/-- The built-in colours. -/
def builtinColor : TokenClass → Color
  | .default => ⟨0x1f, 0x1c, 0x1b⟩
  | .keyword => ⟨0x1f, 0x1c, 0x1b⟩
  | .type => ⟨0x00, 0x57, 0xae⟩
  | .number => ⟨0xb0, 0x80, 0x00⟩
  | .string => ⟨0xbf, 0x03, 0x03⟩
  | .char => ⟨0x92, 0x4c, 0x9d⟩
  | .comment => ⟨0x89, 0x88, 0x87⟩
  | .directive => ⟨0x00, 0x6e, 0x28⟩
  | .includePath => ⟨0xff, 0x55, 0x00⟩
  | .operator => ⟨0xca, 0x60, 0xca⟩
  | .libraryName => ⟨0x64, 0x4a, 0x9b⟩
  | .foreignName => ⟨0x00, 0x95, 0xff⟩
  | .markedVariable => ⟨0x00, 0x57, 0xae⟩
  | .docWord => ⟨0xca, 0x60, 0xca⟩
  | .delimiter => ⟨0xca, 0x60, 0xca⟩
  | .bracket => ⟨0xca, 0x60, 0xca⟩
  | .address => ⟨0x00, 0x57, 0xae⟩
  | .register => ⟨0xbf, 0x03, 0x03⟩
  | .instruction => ⟨0x00, 0xa0, 0x00⟩
  | .label => ⟨0xb0, 0x80, 0x00⟩

def builtin : Theme := ⟨builtinColor⟩

def set (t : Theme) (c : TokenClass) (color : Color) : Theme :=
  ⟨fun other => if other = c then color else t.color other⟩

/-- What an override means, if its name and its colour are valid. -/
def override? (entry : String × String) : Option (TokenClass × Color) := do
  return (← TokenClass.ofName? entry.1, ← Color.ofHex? entry.2)

/-- The built-in theme with overrides. Invalid ones have no effect. -/
def ofOverrides (overrides : Overrides) : Theme :=
  (overrides.entries.filterMap override?).foldl (fun t (c, color) => t.set c color) builtin

end Theme

end CodePane

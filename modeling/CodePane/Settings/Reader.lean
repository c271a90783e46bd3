import CodePane.Decimal.Value
import CodePane.Json.Reader
import CodePane.Settings.Check
import CodePane.Text.Characters

/-!
# Reading settings

Settings are a JSON object. Members that are not there keep their defaults, and members with other
names are not looked at. A structure may also be an array of its members in their order.

1. `members?`, `member?`: the members of a structure.
2. `Settings.ofJson?`: settings from a JSON value.
3. `Settings.read`: settings from the bytes of a file.
-/

namespace CodePane

namespace Settings

/-! ## Members -/

/-- The names and values of an object's members, if every name is a text. -/
def named? (members : List (Option String × Json)) : Option (List (String × Json)) :=
  members.mapM fun (name, value) => name.map (·, value)

/-- The members of a structure with the given names. No name may occur twice in an object, and an
array may not be longer than the names. -/
def members? (names : List String) : Json → Option (List (String × Json))
  | .object members => do
    let known := (← named? members).filter fun m => names.contains m.1
    if (known.map (·.1)).Nodup then some known else none
  | .array items => if items.length ≤ names.length then some (names.zip items) else none
  | _ => none

/-- The value of one member, read by `read`; the default if it is not there. -/
def member? (members : List (String × Json)) (name : String) (read : Json → Option α)
    (default : α) : Option α :=
  match members.lookup name with
  | some value => read value
  | none => some default

/-! ## Values -/

/-- A 32-bit word, written as a natural number. -/
def word? : Json → Option UInt32
  | .number n => (n.toNat?.filter (· < UInt32.size)).map UInt32.ofNat
  | _ => none

def float? : Json → Option Float
  | .number n => n.toFloat?
  | _ => none

def bool? : Json → Option Bool
  | .bool b => some b
  | _ => none

def text? : Json → Option String
  | .string s => s
  | _ => none

/-! ## Structures -/

def scrollNames : List String :=
  ["min_fraction", "max_units", "wheel_lines", "wheel_lines_accelerated", "horizontal_margin_px",
    "horizontal_increment_px"]

def scroll? (v : Json) : Option ScrollSettings := do
  let d : ScrollSettings := {}
  let ms ← members? scrollNames v
  some {
    minFraction := ← member? ms "min_fraction" float? d.minFraction
    maxUnits := ← member? ms "max_units" word? d.maxUnits
    wheelLines := ← member? ms "wheel_lines" word? d.wheelLines
    wheelLinesAccelerated := ← member? ms "wheel_lines_accelerated" word? d.wheelLinesAccelerated
    horizontalMargin := ← member? ms "horizontal_margin_px" word? d.horizontalMargin
    horizontalIncrement := ← member? ms "horizontal_increment_px" word? d.horizontalIncrement }

def gutterNames : List String := ["enabled", "min_digits", "padding_cells"]

def gutter? (v : Json) : Option GutterSettings := do
  let d : GutterSettings := {}
  let ms ← members? gutterNames v
  some {
    enabled := ← member? ms "enabled" bool? d.enabled
    minDigits := ← member? ms "min_digits" word? d.minDigits
    paddingCells := ← member? ms "padding_cells" word? d.paddingCells }

def cellNames : List String := ["fallback_cell_width", "fallback_line_height"]

def cell? (v : Json) : Option FallbackCell := do
  let d : FallbackCell := {}
  let ms ← members? cellNames v
  some {
    width := ← member? ms "fallback_cell_width" word? d.width
    height := ← member? ms "fallback_line_height" word? d.height }

/-- The overrides of a value, an object of texts. Of two with one name the later one counts. -/
def colors? : Json → Option Overrides
  | .object members => do
    let entries ← (← named? members).mapM fun (name, value) => (text? value).map (name, ·)
    some (.ofList entries)
  | _ => none

/-- The names of the parts of settings, in their order. -/
def partNames : List String := ["scroll", "gutter", "metrics", "colors"]

/-- The settings of a value, not yet checked. -/
def ofJson? (v : Json) : Option Settings := do
  let ms ← members? partNames v
  some {
    scroll := ← member? ms "scroll" scroll? {}
    gutter := ← member? ms "gutter" gutter? {}
    cell := ← member? ms "metrics" cell? {}
    colors := ← member? ms "colors" colors? .empty }

end Settings

/-! ## Files -/

/-- Why settings cannot be had from a file: its bytes cannot be read as a text, the text is no
settings, or the settings are wrong. -/
inductive SettingsError where
  | unreadable
  | malformed
  | invalid (p : SettingsProblem)

/-- The settings that the bytes of a file say, or why there are none. There are no bytes if the file
cannot be read. -/
def Settings.read (file : Option Text) : Except SettingsError Settings :=
  match file.bind Text.chars? with
  | none => .error .unreadable
  | some cs =>
    match (Json.read? cs).bind Settings.ofJson? with
    | none => .error .malformed
    | some s =>
      match s.problem? with
      | some p => .error (.invalid p)
      | none => .ok s

end CodePane

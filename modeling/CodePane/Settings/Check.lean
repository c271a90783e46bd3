import CodePane.Decimal.Notation
import CodePane.Settings.Basic

/-!
# Checking settings

What settings have to satisfy beyond their types.

1. `SettingsProblem`: what can be wrong, and its wording.
2. `Settings.problem?`: the first thing that is wrong.
-/

namespace CodePane

/-- What can be wrong with settings. -/
inductive SettingsProblem where
  | fractionOutOfRange (x : Float)
  | tooFewUnits
  | zeroCell
  | unknownClass (name : String)
  | badColor (name value : String)

namespace SettingsProblem

/-- Floats in messages: all digits before the point and no fraction for whole numbers. -/
def fractionFormat : Decimal.Format := ⟨none, none, .up⟩

def message : SettingsProblem → String
  | .fractionOutOfRange x =>
    "scroll.min_fraction must be in (0, 1], got " ++ String.ofList (fractionFormat.numeral x).chars
  | .tooFewUnits => "scroll.max_units must be at least 2"
  | .zeroCell => "fallback metrics must be greater than 0"
  | .unknownClass name => "unknown color class '" ++ name ++ "'"
  | .badColor name value => "color for '" ++ name ++ "' must be #rrggbb, got '" ++ value ++ "'"

end SettingsProblem

namespace Settings

/-- What is wrong with an override. -/
def overrideProblem? (entry : String × String) : Option SettingsProblem :=
  if (TokenClass.ofName? entry.1).isNone then some (.unknownClass entry.1)
  else if (Color.ofHex? entry.2).isNone then some (.badColor entry.1 entry.2)
  else none

/-- The first thing that is wrong with settings: the least visible share, the range of the
scrollbar, the size of a cell, and then the overrides in their order. -/
def problem? (s : Settings) : Option SettingsProblem :=
  if !(0 < s.scroll.minFraction && s.scroll.minFraction ≤ 1) then
    some (.fractionOutOfRange s.scroll.minFraction)
  else if s.scroll.maxUnits < 2 then some .tooFewUnits
  else if s.cell.width = 0 ∨ s.cell.height = 0 then some .zeroCell
  else s.colors.entries.findSome? overrideProblem?

end Settings

end CodePane

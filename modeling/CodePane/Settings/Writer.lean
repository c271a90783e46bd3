import CodePane.Decimal.Notation
import CodePane.Json.Writer
import CodePane.Settings.Basic

/-!
# Writing settings

Every setting is written, in the order of the structures, and the overrides in the order of their
names.
-/

namespace CodePane.Settings

/-- Floats in settings: an exponent below `1e-5`, a fraction always, and even digits where two
decimals are equally near. -/
def floatFormat : Decimal.Format := ⟨some (-4), some ['0'], .toEven⟩

def scrollJson (s : ScrollSettings) : Json :=
  .ofMembers
    [("min_fraction", .number (floatFormat.numeral s.minFraction)),
      ("max_units", .ofNat s.maxUnits.toNat), ("wheel_lines", .ofNat s.wheelLines.toNat),
      ("wheel_lines_accelerated", .ofNat s.wheelLinesAccelerated.toNat),
      ("horizontal_margin_px", .ofNat s.horizontalMargin.toNat),
      ("horizontal_increment_px", .ofNat s.horizontalIncrement.toNat)]

def gutterJson (s : GutterSettings) : Json :=
  .ofMembers
    [("enabled", .bool s.enabled), ("min_digits", .ofNat s.minDigits.toNat),
      ("padding_cells", .ofNat s.paddingCells.toNat)]

def cellJson (s : FallbackCell) : Json :=
  .ofMembers
    [("fallback_cell_width", .ofNat s.width.toNat), ("fallback_line_height", .ofNat s.height.toNat)]

def colorsJson (o : Overrides) : Json :=
  .ofMembers (o.entries.map fun (name, value) => (name, .text value))

def toJson (s : Settings) : Json :=
  .ofMembers
    [("scroll", scrollJson s.scroll), ("gutter", gutterJson s.gutter),
      ("metrics", cellJson s.cell), ("colors", colorsJson s.colors)]

def render (s : Settings) : String := s.toJson.render

end CodePane.Settings

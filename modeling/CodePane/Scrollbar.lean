import CodePane.Pixel
import CodePane.Settings.Basic

/-!
# Scrollbars

A vertical scrollbar counts lines as long as a large enough share of the text is visible. Longer
texts share a fixed range of units, so that the slider keeps a usable size; then the top line is
mapped in proportion, rounded half up. A horizontal scrollbar always counts pixels.

1. `Scrollbar`: the state of a scrollbar.
2. `ScrollScale.mode`: which way a text is mapped.
3. `ScrollScale.vertical`, `Scrollbar.askedTopLine`: from the top line to a scrollbar and back.
4. `ScrollScale.horizontal`: the horizontal scrollbar.
-/

namespace CodePane

/-! ## Scrollbars -/

/-- The quotient rounded to the nearest integer, a half upwards. -/
def roundedQuotient (num den : Nat) : Nat := (2 * num + den) / (2 * den)

namespace Scrollbar

/-- What a scrollbar counts: nothing, because the content fits; lines or pixels; or units of a fixed
range. -/
inductive Mode where
  | hidden
  | direct
  | compressed
  deriving DecidableEq, Repr

def Mode.name : Mode → String
  | .hidden => "hidden"
  | .direct => "direct"
  | .compressed => "compressed"

end Scrollbar

/-- The state of a scrollbar. Its quantities are 32-bit words. -/
structure Scrollbar where
  minimum : Nat
  maximum : Nat
  slider : Nat
  value : Nat
  step : Nat
  pageStep : Nat
  mode : Scrollbar.Mode
  deriving DecidableEq, Repr

namespace Scrollbar

/-- The scrollbar of content that fits. -/
def ofFitting (step pageStep : Nat) : Scrollbar :=
  ⟨0, 1, 1, 0, step, pageStep, .hidden⟩

/-- The greatest value that the slider can stand at. -/
def greatestValue (s : Scrollbar) : Nat := max (s.maximum - s.slider) s.minimum

/-- The scrollbar at another value, kept in range. -/
def movedTo (s : Scrollbar) (value : Nat) : Scrollbar :=
  { s with value := max s.minimum (min value s.greatestValue) }

/-- The top line that a scrollbar asks for. A scrollbar that counts lines is known by its maximum,
the number of lines, and its slider, the number of visible lines. -/
def askedTopLine (bar : Scrollbar) (total visible : Nat) : Nat :=
  let total := max total 1
  let visible := max visible 1
  let scrollable := total - visible
  let range := bar.maximum - bar.slider
  if bar.maximum ≤ bar.minimum ∨ bar.slider = 0 ∨ scrollable = 0 then 0
  else if bar.maximum = total ∧ bar.slider = visible then min bar.value scrollable
  else if range = 0 then 0
  else min (roundedQuotient (min bar.value range * scrollable) range) scrollable

end Scrollbar

/-! ## Scales -/

/-- How scrollbars map content. -/
structure ScrollScale where
  minFraction : Float
  maxUnits : Nat
  horizontalIncrement : Nat
  two_le_maxUnits : 2 ≤ maxUnits

namespace ScrollScale

/-- The scale that the settings ask for: at least two units, and steps of at least one pixel. -/
def ofSettings (s : ScrollSettings) : ScrollScale :=
  ⟨s.minFraction, max s.maxUnits.toNat 2, max s.horizontalIncrement.toNat 1, by omega⟩

/-- The size of the slider in units: the least visible share of the range, but at least one unit
and less than all. -/
def unitSlider (s : ScrollScale) : Nat :=
  let share := (s.minFraction * s.maxUnits.toUInt32.toFloat).round.toUInt32.toNat
  max 1 (min share (s.maxUnits - 1))

/-- How many units the slider can travel. -/
def unitTravel (s : ScrollScale) : Nat := max (s.maxUnits - s.unitSlider) 1

/-- The visible share of the text is at least the least one. -/
def showsEnough (s : ScrollScale) (total visible : Nat) : Bool :=
  visible.toUInt64.toFloat / total.toUInt64.toFloat ≥ s.minFraction

/-- How a text of `total` lines maps when `visible` lines are on screen. -/
def mode (s : ScrollScale) (total visible : Nat) : Scrollbar.Mode :=
  let total := max total 1
  let visible := max visible 1
  if total ≤ visible then .hidden
  else if s.showsEnough total visible then .direct
  else .compressed

/-- The scrollbar of a text whose line `top` is on top. -/
def vertical (s : ScrollScale) (top total visible : Nat) : Scrollbar :=
  let total := max total 1
  let visible := max visible 1
  let page := visible.toUInt32.toNat
  let scrollable := total - visible
  let top := min top scrollable
  match s.mode total visible with
  | .hidden => .ofFitting 1 page
  | .direct => ⟨0, total.toUInt32.toNat, page, top.toUInt32.toNat, 1, page, .direct⟩
  | .compressed =>
    let range := s.unitTravel
    ⟨0, s.maxUnits, s.unitSlider, min (roundedQuotient (top * range) scrollable) range, 1, page,
      .compressed⟩

/-- The horizontal scrollbar of content `content` pixels wide in a window of `window` pixels
that begins `offset` pixels into it. -/
def horizontal (s : ScrollScale) (offset window content : Int) : Scrollbar :=
  let window := (max window 1).toNat
  let content := content.toNat
  if content ≤ window then .ofFitting s.horizontalIncrement window
  else
    Scrollbar.movedTo ⟨0, content, window, 0, s.horizontalIncrement, window, .direct⟩
      offset.toNat

end ScrollScale

end CodePane

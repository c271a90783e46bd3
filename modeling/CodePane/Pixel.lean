/-!
# Pixels

Pixel quantities are 32-bit integers. Where a quantity can grow with the text it stays at the
greatest or the least of them instead of leaving their range.

1. `Pixel.clamp`, `Pixel.ofNat`: into the range.
2. `Pixel.sub?`: the differences that are not kept there.
3. `Point`, `Rect`: places and areas.
-/

namespace CodePane

namespace Pixel

def greatest : Int := 2147483647

def least : Int := -2147483648

/-- The nearest quantity in the range. -/
def clamp (v : Int) : Int := max least (min v greatest)

theorem least_le_clamp (v : Int) : least ≤ clamp v := by
  unfold clamp
  omega

theorem clamp_le_greatest (v : Int) : clamp v ≤ greatest := by
  unfold clamp least greatest
  omega

theorem clamp_eq {v : Int} (low : least ≤ v) (high : v ≤ greatest) : clamp v = v := by
  unfold clamp
  omega

/-- A count as a pixel quantity. -/
def ofNat (n : Nat) : Int := min n greatest

/-- A difference that is not brought into the range: outside of it there is none. -/
def sub? (v w : Int) : Option Int :=
  if least ≤ v - w ∧ v - w ≤ greatest then some (v - w) else none

theorem sub?_eq {v w : Int} (low : least ≤ v - w) (high : v - w ≤ greatest) :
    sub? v w = some (v - w) :=
  if_pos ⟨low, high⟩

theorem eq_of_sub? {v w d : Int} (h : sub? v w = some d) : d = v - w := by
  unfold sub? at h
  split at h
  · exact (Option.some.inj h).symm
  · cases h

end Pixel

/-- A place, in pixels from the left and from the top. -/
structure Point where
  x : Int
  y : Int
  deriving DecidableEq, Repr

/-- An area with its top left corner. -/
structure Rect where
  x : Int
  y : Int
  width : Int
  height : Int
  deriving DecidableEq, Repr

namespace Rect

/-- The pixel column just right of an area. -/
def right (r : Rect) : Int := r.x + r.width

/-- The pixel row just below an area. -/
def bottom (r : Rect) : Int := r.y + r.height

/-- Two areas have a pixel in common, if neither is empty. -/
def overlaps (a b : Rect) : Bool :=
  a.x < b.right && b.x < a.right && a.y < b.bottom && b.y < a.bottom

end Rect

end CodePane

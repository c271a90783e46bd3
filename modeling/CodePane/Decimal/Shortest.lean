/-!
# Shortest decimals

The fewest decimal digits that read back as a given float, and of the decimals with that many digits
the one nearest to it.

1. `Dyadic`: the exact value of a float, and the reals that round to it.
2. `Dyadic.candidate?`: the best decimal on the grid of a power of ten.
3. `shortest`: the best decimal on the coarsest grid that has one.
-/

namespace CodePane.Decimal

/-! ## Exact values -/

/-- The value `mantissa * 2 ^ exponent` of a positive float. `narrowBelow` says that the gap to
the next smaller float is half as wide as the gap to the next greater one. -/
structure Dyadic where
  mantissa : Nat
  exponent : Int
  narrowBelow : Bool
  deriving DecidableEq, Repr

namespace Dyadic

/-- The value of a positive finite float, from the bits of its magnitude. -/
def ofBits (bits : Nat) : Dyadic :=
  let fraction : Nat := bits % Nat.pow 2 52
  let field : Nat := bits / Nat.pow 2 52 % Nat.pow 2 11
  if field = 0 then ⟨fraction, -1074, false⟩
  else ⟨Nat.pow 2 52 + fraction, (field : Int) - 1075, fraction == 0 && 1 < field⟩

/-- The common denominator of the value and of the ends of its interval. -/
def den (d : Dyadic) : Nat := Nat.pow 2 (2 - d.exponent).toNat

/-- A count of quarters of the unit in the last place, over the common denominator. -/
def scaled (d : Dyadic) (quarters : Nat) : Nat := quarters * Nat.pow 2 (d.exponent - 2).toNat

/-- The value, over the common denominator. -/
def num (d : Dyadic) : Nat := d.scaled (4 * d.mantissa)

/-- The least real that rounds to the value, over the common denominator. -/
def low (d : Dyadic) : Nat := d.scaled (4 * d.mantissa - if d.narrowBelow then 1 else 2)

/-- The greatest real that rounds to the value, over the common denominator. -/
def high (d : Dyadic) : Nat := d.scaled (4 * d.mantissa + 2)

/-- `digits * 10 ^ power` rounds to the value. The ends of the interval do if the mantissa is
even. -/
def readsBack (d : Dyadic) (digits : Nat) (power : Int) : Bool :=
  let v := digits * Nat.pow 10 power.toNat * d.den
  let unit := Nat.pow 10 (-power).toNat
  if d.mantissa % 2 = 0 then d.low * unit ≤ v && v ≤ d.high * unit
  else d.low * unit < v && v < d.high * unit

/-! ## Grids -/

/-- Which of two decimals at the same distance is taken. -/
inductive Tie where
  | toEven
  | up
  deriving DecidableEq, Repr

/-- Of the two neighbours of the value on the grid of `10 ^ power`, the nearest one that reads
back. -/
def candidate? (d : Dyadic) (tie : Tie) (power : Int) : Option Nat :=
  let num := d.num * Nat.pow 10 (-power).toNat
  let den := d.den * Nat.pow 10 power.toNat
  let below := num / den
  let rest := num % den
  let downward := d.readsBack below power
  let upward := d.readsBack (below + 1) power
  let nearerUp := den < 2 * rest || (2 * rest = den && (tie = .up || below % 2 = 1))
  if upward && (!downward || nearerUp) then some (below + 1)
  else if downward then some below
  else none

/-- How many digits the value has before its point; not positive for values below a tenth. -/
def magnitude (d : Dyadic) : Int :=
  ((Nat.toDigits 10 (d.num * Nat.pow 10 400 / d.den)).length : Int) - 400

end Dyadic

/-! ## Decimals -/

/-- The number `digits * 10 ^ power`, where the digits do not end in zero. -/
structure Scaled where
  digits : List Char
  power : Int
  deriving DecidableEq, Repr

/-- Moves the zeros at the end of digits into the power. -/
def Scaled.ofNat (n : Nat) (power : Int) : Scaled :=
  let reversed := (Nat.toDigits 10 n).reverse
  let kept := reversed.dropWhile (· == '0')
  ⟨kept.reverse, power + (reversed.length - kept.length : Nat)⟩

/-- The shortest decimal that reads back as a positive value: seventeen digits always suffice. -/
def shortest (d : Dyadic) (tie : Dyadic.Tie) : Scaled :=
  let powers := (List.range 17).map fun n : Nat => d.magnitude - 1 - n
  match powers.findSome? fun power => (d.candidate? tie power).map fun n => (n, power) with
  | some (n, power) => .ofNat n power
  | none => .ofNat 0 0

end CodePane.Decimal

import CodePane.Decimal.Numeral
import CodePane.Decimal.Shortest

/-!
# Notation of floats

How the shortest digits of a float are written down.

1. `Format`: the decisions of a format.
2. `Format.numeral`: the numeral of a float in a format.
-/

namespace CodePane.Decimal

/-- The decisions of a format: from which magnitude on (the number of digits before the point) a
number is written with zeros instead of an exponent, which fraction a whole number has, and which of
two equally near decimals is taken. -/
structure Format where
  positionalFrom : Option Int
  wholeFraction : Option (List Char)
  tie : Dyadic.Tie

namespace Format

/-- Digits with the point behind `point` of them; zeros fill up on either side. -/
def positional (f : Format) (negative : Bool) (digits : List Char) (point : Int) : Numeral :=
  if point ≤ 0 then ⟨negative, ['0'], some (List.replicate (-point).toNat '0' ++ digits), none⟩
  else if digits.length ≤ point.toNat then
    ⟨negative, digits ++ List.replicate (point.toNat - digits.length) '0', f.wholeFraction, none⟩
  else ⟨negative, digits.take point.toNat, some (digits.drop point.toNat), none⟩

/-- Digits with the point behind the first of them, and an exponent. -/
def scientific (negative : Bool) (digits : List Char) (point : Int) : Numeral :=
  ⟨negative, digits.take 1, if digits.length ≤ 1 then none else some (digits.drop 1),
    some (point - 1 < 0, Nat.toDigits 10 (point - 1).natAbs)⟩

/-- The numeral of digits and a power of ten. -/
def numeralOf (f : Format) (negative : Bool) (d : Scaled) : Numeral :=
  let point := d.power + d.digits.length
  match f.positionalFrom with
  | some least =>
    if least ≤ point then f.positional negative d.digits point
    else scientific negative d.digits point
  | none => f.positional negative d.digits point

/-- The numeral of a finite float. Zero keeps its sign. -/
def numeral (f : Format) (x : Float) : Numeral :=
  let bits := x.toBits.toNat
  let magnitude := bits % Nat.pow 2 63
  let negative : Bool := Nat.pow 2 63 ≤ bits
  if magnitude = 0 then ⟨negative, ['0'], f.wholeFraction, none⟩
  else f.numeralOf negative (shortest (.ofBits magnitude) f.tie)

end Format

end CodePane.Decimal

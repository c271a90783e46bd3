import CodePane.Decimal.Numeral

/-!
# The values of numerals

A numeral becomes a float in three steps: its leading digits are gathered into a 64-bit integer
for as long as they fit, that integer is rounded to a float, and the float is multiplied or
divided by a power of ten. The steps round one after the other, so the result may be a neighbour
of the nearest float.

1. `toNat?`: numerals without a sign, a fraction or an exponent.
2. `gatherWhole`, `gatherFraction`: the 64-bit integer and the power of ten.
3. `toFloat?`: the float, unless it is too great.
-/

namespace CodePane.Decimal.Numeral

def digitValue (c : Char) : Nat := c.toNat - 48

def digitsValue (digits : List Char) : Nat := digits.foldl (fun n c => n * 10 + digitValue c) 0

/-- The value of a numeral that is written as a natural number. -/
def toNat? (n : Numeral) : Option Nat :=
  match n with
  | ⟨false, whole, none, none⟩ => some (digitsValue whole)
  | _ => none

/-! ## Gathering digits -/

/-- The greatest 64-bit integer. -/
def greatestSignificand : Nat := Nat.pow 2 64 - 1

/-- The digits before the point as a 64-bit integer and the number of digits left out at its
end. Once a digit does not fit, all that follow are left out. -/
def gatherWhole (significand : Nat) : List Char → Nat × Nat
  | [] => (significand, 0)
  | c :: rest =>
    let next := significand * 10 + digitValue c
    if next ≤ greatestSignificand then gatherWhole next rest
    else (significand, rest.length + 1)

/-- The integer with the digits behind the point that still fit, and how many these are. -/
def gatherFraction (significand taken : Nat) : List Char → Nat × Nat
  | [] => (significand, taken)
  | c :: rest =>
    let next := significand * 10 + digitValue c
    if next ≤ greatestSignificand then gatherFraction next (taken + 1) rest
    else (significand, taken)

/-! ## Scaling -/

def powerOfTen (n : Nat) : Float := Float.ofScientific 1 false n

/-- A float divided by a power of ten, in steps of at most `10 ^ 308`. -/
def divideByPower (x : Float) (n : Nat) : Float :=
  if n ≤ 308 then x / powerOfTen n
  else if x == 0 then x
  else divideByPower (x / powerOfTen 308) (n - 308)
termination_by n

/-- A float times a power of ten, unless that is too great. -/
def multiplyByPower? (x : Float) (n : Nat) : Option Float :=
  if n ≤ 308 then
    let y := x * powerOfTen n
    if y.isInf then none else some y
  else if x == 0 then some x
  else none

/-- The magnitude of `significand * 10 ^ exponent`, unless it is too great. -/
def scale? (significand : Nat) (exponent : Int) : Option Float :=
  let x := significand.toUInt64.toFloat
  if 0 ≤ exponent then multiplyByPower? x exponent.toNat
  else some (divideByPower x (-exponent).toNat)

/-! ## Floats -/

/-- The greatest exponent that is read. -/
def greatestExponent : Nat := 2147483647

/-- The magnitude of a numeral, unless it is too great. -/
def magnitude? (n : Numeral) : Option Float :=
  let (whole, dropped) := gatherWhole 0 n.whole
  let (significand, taken) := gatherFraction whole 0 (n.fraction.getD [])
  let power : Int := (dropped : Int) - taken
  match n.exponent with
  | none => scale? significand power
  | some (negative, digits) =>
    let e := digitsValue digits
    if greatestExponent < e then if significand = 0 ∨ negative then some 0 else none
    else scale? significand (if negative then power - e else power + e)

/-- The float of a numeral, unless it is too great. -/
def toFloat? (n : Numeral) : Option Float :=
  n.magnitude?.map fun x => if n.negative then -x else x

end CodePane.Decimal.Numeral

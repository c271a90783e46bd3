/-!
# Hexadecimal digits

Written in lower case, read in both cases.
-/

namespace CodePane.Hex

def digit (n : Nat) : Char := if n < 10 then Char.ofNat (48 + n) else Char.ofNat (87 + n)

def value? (c : Char) : Option Nat :=
  if '0' ≤ c ∧ c ≤ '9' then some (c.toNat - 48)
  else if 'a' ≤ c ∧ c ≤ 'f' then some (c.toNat - 87)
  else if 'A' ≤ c ∧ c ≤ 'F' then some (c.toNat - 55)
  else none

/-- The two digits of a byte. -/
def byteDigits (b : UInt8) : List Char := [digit (b.toNat / 16), digit (b.toNat % 16)]

def byte? (high low : Char) : Option UInt8 := do
  return UInt8.ofNat ((← value? high) * 16 + (← value? low))

theorem byte?_digits (b : UInt8) :
    byte? (digit (b.toNat / 16)) (digit (b.toNat % 16)) = some b := by
  have all : ∀ n : Fin 256,
      byte? (digit (n.val / 16)) (digit (n.val % 16)) = some (UInt8.ofNat n.val) := by
    decide +kernel
  simpa using all ⟨b.toNat, b.toNat_lt⟩

end CodePane.Hex

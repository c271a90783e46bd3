import CodePane.Text.Byte

/-!
# Codepoints of a text

A text is read as UTF-8 and reading never fails: a byte that begins no well-formed sequence is a
codepoint of its own, the replacement character.

1. `decode`, `codepointAt`: the codepoint at the head of a text, and at an offset.
2. `stepForward`, `stepBack`, `floorBoundary`, `ceilBoundary`: moves between boundaries. The
   backward moves look at no more than four bytes.
3. `Boundary`: the offsets reached from the start by stepping over codepoints.
4. `codepoints`: the codepoints that start inside a range, with their offsets.
-/

namespace CodePane

/-- A codepoint of a text: its character and how many bytes it takes. -/
structure Codepoint where
  char : Char
  size : Nat
  deriving DecidableEq, Repr

/-- The character that stands for a malformed byte. -/
def replacement : Char := Char.ofNat 0xFFFD

/-- What a lead byte announces: how many continuation bytes follow, the least and the greatest
first one of them, and the payload of the lead byte itself. -/
structure Announced where
  owed : Nat
  low : UInt8
  high : UInt8
  payload : Nat
  deriving DecidableEq, Repr

namespace Text

/-! ## Decoding -/

/-- What a byte announces, or nothing if no sequence begins with it. The narrower ranges after
`E0`, `ED`, `F0` and `F4` leave out overlong forms, surrogates and values above `10FFFF`. -/
def announced (lead : UInt8) : Option Announced :=
  if lead < 0x80 then some ⟨0, 0x80, 0xBF, lead.toNat⟩
  else if lead < 0xC2 then none
  else if lead < 0xE0 then some ⟨1, 0x80, 0xBF, lead.toNat - 0xC0⟩
  else if lead = 0xE0 then some ⟨2, 0xA0, 0xBF, 0⟩
  else if lead = 0xED then some ⟨2, 0x80, 0x9F, 0xD⟩
  else if lead < 0xF0 then some ⟨2, 0x80, 0xBF, lead.toNat - 0xE0⟩
  else if lead = 0xF0 then some ⟨3, 0x90, 0xBF, 0⟩
  else if lead < 0xF4 then some ⟨3, 0x80, 0xBF, lead.toNat - 0xF0⟩
  else if lead = 0xF4 then some ⟨3, 0x80, 0x8F, 4⟩
  else none

/-- How many of the `owed` continuation bytes stand at the head, the first in `[low, high]`. -/
def matched (low high : UInt8) : (owed : Nat) → Text → Nat
  | owed + 1, b :: rest => if low ≤ b ∧ b ≤ high then matched 0x80 0xBF owed rest + 1 else 0
  | _, _ => 0

theorem matched_le_length (low high : UInt8) (owed : Nat) (text : Text) :
    matched low high owed text ≤ text.length := by
  fun_induction matched low high owed text <;> simp_all

/-- The scalar value of a lead byte's payload and its continuation bytes. -/
def scalar (payload : Nat) (tail : Text) : Nat :=
  tail.foldl (fun v b => v * 64 + b.toNat % 64) payload

/-- The codepoint that begins with byte `lead` when `rest` follows. -/
def decodeLead (lead : UInt8) (rest : Text) : Codepoint :=
  match announced lead with
  | none => ⟨replacement, 1⟩
  | some a =>
    if matched a.low a.high a.owed rest = a.owed then
      ⟨Char.ofNat (scalar a.payload (rest.take a.owed)), a.owed + 1⟩
    else ⟨replacement, 1⟩

theorem decodeLead_size_pos (lead : UInt8) (rest : Text) : 0 < (decodeLead lead rest).size := by
  unfold decodeLead
  repeat' split
  all_goals simp

theorem decodeLead_size_le (lead : UInt8) (rest : Text) :
    (decodeLead lead rest).size ≤ rest.length + 1 := by
  unfold decodeLead
  split
  · simp
  · next a _ =>
    split
    · next h =>
      have := matched_le_length a.low a.high a.owed rest
      simp only
      omega
    · simp

/-- The codepoint at the head of a text; none at the end. -/
def decode : Text → Option Codepoint
  | [] => none
  | lead :: rest => some (decodeLead lead rest)

/-- The codepoint at an offset; none at or past the end. -/
def codepointAt (text : Text) (pos : Nat) : Option Codepoint := decode (text.drop pos)

/-! ## Boundaries -/

/-- The offset after the codepoint at `pos`, at most the length. -/
def stepForward (text : Text) (pos : Nat) : Nat :=
  match codepointAt text pos with
  | some c => pos + c.size
  | none => text.length

/-- How many continuation bytes end at offset `stop`, looking back over at most `limit` bytes. -/
def trailingBefore (text : Text) (limit stop : Nat) : Nat :=
  countWhile Byte.isTrailing ((text.drop (stop - limit)).take limit).reverse

/-- The offset of the codepoint that ends at `pos`; 0 at the start. Where no sequence that begins
within four bytes ends there, the last byte is a codepoint of its own. -/
def stepBack (text : Text) (pos : Nat) : Nat :=
  let pos := min pos text.length
  let start := pos - 1 - trailingBefore text (min 3 (pos - 1)) pos
  match codepointAt text start with
  | some c => if start + c.size = pos then start else pos - 1
  | none => pos - 1

/-- The start of the codepoint that `pos` lies in. -/
def floorBoundary (text : Text) (pos : Nat) : Nat :=
  let pos := min pos text.length
  if pos = text.length then pos
  else
    let start := pos - trailingBefore text (min 3 pos) (pos + 1)
    match codepointAt text start with
    | some c => if pos < start + c.size then start else pos
    | none => pos

/-- The first boundary at or after `pos`, at most the length. -/
def ceilBoundary (text : Text) (pos : Nat) : Nat :=
  let aligned := floorBoundary text pos
  if aligned = min pos text.length then aligned else stepForward text aligned

/-- The offsets reached from 0 by stepping over one codepoint after another. -/
inductive Boundary (text : Text) : Nat → Prop
  | zero : Boundary text 0
  | step {pos : Nat} {c : Codepoint} :
      Boundary text pos → codepointAt text pos = some c → Boundary text (pos + c.size)

/-! ## The codepoints of a range -/

/-- The codepoints that start before `stop`, with their offsets, when the text from offset `pos`
on is given. -/
def codepointsFrom (stop pos : Nat) : Text → List (Nat × Codepoint)
  | [] => []
  | lead :: rest =>
    if pos < stop then
      let c := decodeLead lead rest
      (pos, c) :: codepointsFrom stop (pos + c.size) (rest.drop (c.size - 1))
    else []
termination_by text => text.length
decreasing_by
  simp only [List.length_drop, List.length_cons]
  omega

/-- The codepoints that start in `[start, stop)`, in order, with their offsets. -/
def codepoints (text : Text) (start stop : Nat) : List (Nat × Codepoint) :=
  codepointsFrom stop start (text.drop start)

end Text

end CodePane

import CodePane.Proofs.Text.Edge
import CodePane.Proofs.Text.Encoding
import CodePane.Theme

/-!
# The texts of colours

A colour is read from the characters of its text. Told by their bytes, such texts are a number sign
and six hexadecimal digits. A colour that was read is written as its text in lower case.

1. `Hex.value?_eq_some_iff`, `Hex.byteDigits_of_byte?`: digits, and what is written for them.
2. `Color.ofHex?_eq_some_iff`, `Color.hexText_of_ofHex?`: a colour that was read.
3. `Color.IsText`, `Color.isSome_ofHex?_iff`: the texts that are read, by their bytes.
-/

namespace CodePane

/-! ## Digits -/

namespace Hex

variable {c high low : Char} {n : Nat} {b : UInt8}

theorem value?_eq_some_iff :
    value? c = some n ↔ n < 16 ∧ (c = digit n ∨ c = (digit n).toUpper) := by
  have hupper : ∀ n < 16, 10 ≤ n → (digit n).toUpper = Char.ofNat (55 + n) := by decide
  have hread : ∀ n < 16, value? (digit n) = some n ∧ value? (digit n).toUpper = some n := by
    decide
  constructor
  · intro h
    unfold value? at h
    split at h
    · next hrange =>
      have hlow : 48 ≤ c.toNat := hrange.1
      have hhigh : c.toNat ≤ 57 := hrange.2
      obtain rfl := Option.some.inj h
      refine ⟨by omega, .inl ?_⟩
      rw [digit, if_pos (by omega), Nat.add_sub_cancel' hlow, Char.ofNat_toNat]
    split at h
    · next hrange =>
      have hlow : 97 ≤ c.toNat := hrange.1
      have hhigh : c.toNat ≤ 102 := hrange.2
      obtain rfl := Option.some.inj h
      refine ⟨by omega, .inl ?_⟩
      rw [digit, if_neg (by omega), Nat.add_sub_cancel' (by omega), Char.ofNat_toNat]
    split at h
    · next hrange =>
      have hlow : 65 ≤ c.toNat := hrange.1
      have hhigh : c.toNat ≤ 70 := hrange.2
      obtain rfl := Option.some.inj h
      refine ⟨by omega, .inr ?_⟩
      rw [hupper _ (by omega) (by omega), Nat.add_sub_cancel' (by omega), Char.ofNat_toNat]
    · cases h
  · rintro ⟨hn, rfl | rfl⟩
    · exact (hread n hn).1
    · exact (hread n hn).2

theorem digit_of_value? (h : value? c = some n) : digit n = c.toLower := by
  have hlower : ∀ n < 16, (digit n).toLower = digit n ∧ (digit n).toUpper.toLower = digit n := by
    decide
  obtain ⟨hn, rfl | rfl⟩ := value?_eq_some_iff.mp h
  · exact (hlower n hn).1.symm
  · exact (hlower n hn).2.symm

theorem byte?_eq_some_iff : byte? high low = some b ↔
    ∃ m k, value? high = some m ∧ value? low = some k ∧ UInt8.ofNat (m * 16 + k) = b := by
  simp only [byte?, Option.bind_eq_bind, Option.pure_def, Option.bind_eq_some_iff,
    Option.some.injEq]
  constructor
  · rintro ⟨m, hm, k, hk, hb⟩
    exact ⟨m, k, hm, hk, hb⟩
  · rintro ⟨m, k, hm, hk, hb⟩
    exact ⟨m, hm, k, hk, hb⟩

theorem byteDigits_of_byte? (h : byte? high low = some b) :
    byteDigits b = [high.toLower, low.toLower] := by
  obtain ⟨m, k, hm, hk, rfl⟩ := byte?_eq_some_iff.mp h
  have hm16 := (value?_eq_some_iff.mp hm).1
  have hk16 := (value?_eq_some_iff.mp hk).1
  have hvalue : (UInt8.ofNat (m * 16 + k)).toNat = m * 16 + k := by
    rw [UInt8.toNat_ofNat']
    omega
  have hquotient : (m * 16 + k) / 16 = m := by omega
  have hremainder : (m * 16 + k) % 16 = k := by omega
  rw [byteDigits, hvalue, hquotient, hremainder, digit_of_value? hm, digit_of_value? hk]

theorem isSome_byte?_iff : (byte? high low).isSome = true ↔
    (value? high).isSome = true ∧ (value? low).isSome = true := by
  simp only [Option.isSome_iff_exists, byte?_eq_some_iff]
  constructor
  · rintro ⟨b, m, k, hm, hk, -⟩
    exact ⟨⟨m, hm⟩, k, hk⟩
  · rintro ⟨⟨m, hm⟩, k, hk⟩
    exact ⟨_, m, k, hm, hk, rfl⟩

theorem isHexDigit_of_value? (h : (value? c).isSome = true) :
    c.toNat < 0x80 ∧ Byte.isHexDigit c.toUInt8 = true := by
  have hdigit : ∀ n < 16, ((digit n).toNat < 0x80 ∧ Byte.isHexDigit (digit n).toUInt8 = true) ∧
      (digit n).toUpper.toNat < 0x80 ∧ Byte.isHexDigit (digit n).toUpper.toUInt8 = true := by
    decide
  obtain ⟨n, hn⟩ := Option.isSome_iff_exists.mp h
  obtain ⟨hlt, rfl | rfl⟩ := value?_eq_some_iff.mp hn
  · exact (hdigit n hlt).1
  · exact (hdigit n hlt).2

theorem value?_of_isHexDigit (hb : Byte.isHexDigit b = true) :
    (value? (Char.ofNat b.toNat)).isSome = true ∧ (Char.ofNat b.toNat).toUInt8 = b := by
  have hread : ∀ k < 0x80, Byte.isHexDigit (UInt8.ofNat k) = true →
      (value? (Char.ofNat k)).isSome = true ∧ (Char.ofNat k).toUInt8 = UInt8.ofNat k := by
    decide
  have hascii : b < 0x80 := of_decide_eq_true (Byte.isAscii_of_isHexDigit hb)
  have hvalue := hread b.toNat (UInt8.lt_iff_toNat_lt.mp hascii)
  rw [UInt8.ofNat_toNat] at hvalue
  exact hvalue hb

end Hex

/-! ## Colours -/

namespace Color

variable {text : String} {color : Color}

theorem ofHex?_eq_some_iff : ofHex? text = some color ↔ ∃ a b c d e f,
    text.toList = ['#', a, b, c, d, e, f] ∧ Hex.byte? a b = some color.red ∧
      Hex.byte? c d = some color.green ∧ Hex.byte? e f = some color.blue := by
  unfold ofHex?
  constructor
  · intro h
    split at h
    · next a b c d e f htext =>
      simp only [Option.bind_eq_bind, Option.pure_def, Option.bind_eq_some_iff] at h
      obtain ⟨red, hred, green, hgreen, blue, hblue, hcolor⟩ := h
      obtain rfl := Option.some.inj hcolor
      exact ⟨a, b, c, d, e, f, htext, hred, hgreen, hblue⟩
    · cases h
  · rintro ⟨a, b, c, d, e, f, htext, hred, hgreen, hblue⟩
    rw [htext]
    simp only [hred, hgreen, hblue, Option.bind_eq_bind, Option.bind_some, Option.pure_def]

theorem hexText_of_ofHex? (h : ofHex? text = some color) : color.hexText = text.toLower := by
  obtain ⟨a, b, c, d, e, f, htext, hred, hgreen, hblue⟩ := ofHex?_eq_some_iff.mp h
  have hlower : text.toLower.toList = text.toList.map Char.toLower := String.toList_map
  have hsign : '#'.toLower = '#' := rfl
  rw [← String.ofList_toList (s := text.toLower), hlower, htext, hexText,
    Hex.byteDigits_of_byte? hred, Hex.byteDigits_of_byte? hgreen, Hex.byteDigits_of_byte? hblue]
  simp only [List.map_cons, List.map_nil, List.cons_append, List.nil_append, hsign]

/-- The bytes of the text are a number sign and six hexadecimal digits. -/
def IsText (text : String) : Prop :=
  ∃ digits : Text, text.toUTF8.data.toList = '#'.toUInt8 :: digits ∧ digits.length = 6 ∧
    ∀ b ∈ digits, Byte.isHexDigit b = true

theorem isSome_ofHex?_iff_digits : (ofHex? text).isSome = true ↔ ∃ digits : List Char,
    text.toList = '#' :: digits ∧ digits.length = 6 ∧
      ∀ c ∈ digits, (Hex.value? c).isSome = true := by
  simp only [Option.isSome_iff_exists (x := ofHex? text), ofHex?_eq_some_iff]
  constructor
  · rintro ⟨color, a, b, c, d, e, f, htext, hred, hgreen, hblue⟩
    have hab := Hex.isSome_byte?_iff.mp (Option.isSome_of_eq_some hred)
    have hcd := Hex.isSome_byte?_iff.mp (Option.isSome_of_eq_some hgreen)
    have hef := Hex.isSome_byte?_iff.mp (Option.isSome_of_eq_some hblue)
    refine ⟨_, htext, rfl, ?_⟩
    simp only [List.forall_mem_cons, hab, hcd, hef, true_and]
    exact List.forall_mem_nil _
  · rintro ⟨digits, htext, hlength, hdigits⟩
    match digits with
    | [a, b, c, d, e, f] =>
      simp only [List.forall_mem_cons] at hdigits
      obtain ⟨ha, hb, hc, hd, he, hf, -⟩ := hdigits
      obtain ⟨red, hred⟩ := Option.isSome_iff_exists.mp (Hex.isSome_byte?_iff.mpr ⟨ha, hb⟩)
      obtain ⟨green, hgreen⟩ := Option.isSome_iff_exists.mp (Hex.isSome_byte?_iff.mpr ⟨hc, hd⟩)
      obtain ⟨blue, hblue⟩ := Option.isSome_iff_exists.mp (Hex.isSome_byte?_iff.mpr ⟨he, hf⟩)
      exact ⟨⟨red, green, blue⟩, a, b, c, d, e, f, htext, hred, hgreen, hblue⟩

/-- **A text is read as a colour exactly if its bytes say so.** -/
theorem isSome_ofHex?_iff : (ofHex? text).isSome = true ↔ IsText text := by
  rw [isSome_ofHex?_iff_digits, IsText, Text.toUTF8_eq_encoded]
  constructor
  · rintro ⟨digits, htext, hlength, hdigits⟩
    refine ⟨digits.map Char.toUInt8, ?_, by rwa [List.length_map], ?_⟩
    · rw [htext, Text.encoded_eq_map]
      · rfl
      · refine List.forall_mem_cons.mpr ⟨by decide, fun c hc => ?_⟩
        exact (Hex.isHexDigit_of_value? (hdigits c hc)).1
    · intro b hb
      obtain ⟨c, hc, rfl⟩ := List.mem_map.mp hb
      exact (Hex.isHexDigit_of_value? (hdigits c hc)).2
  · rintro ⟨bytes, hbytes, hlength, hdigits⟩
    have hvalues : ∀ c ∈ bytes.map (Char.ofNat ·.toNat), (Hex.value? c).isSome = true := by
      intro c hc
      obtain ⟨b, hb, rfl⟩ := List.mem_map.mp hc
      exact (Hex.value?_of_isHexDigit (hdigits b hb)).1
    have hback : (bytes.map (Char.ofNat ·.toNat)).map Char.toUInt8 = bytes := by
      rw [List.map_map]
      refine (List.map_congr_left fun b hb => ?_).trans (List.map_id bytes)
      exact (Hex.value?_of_isHexDigit (hdigits b hb)).2
    have hencoded : Text.encoded ('#' :: bytes.map (Char.ofNat ·.toNat)) =
        '#'.toUInt8 :: bytes := by
      rw [Text.encoded_eq_map, List.map_cons, hback]
      refine List.forall_mem_cons.mpr ⟨by decide, fun c hc => ?_⟩
      exact (Hex.isHexDigit_of_value? (hvalues c hc)).1
    refine ⟨_, Text.encoded_injective (hbytes.trans hencoded.symm), ?_, hvalues⟩
    rw [List.length_map, hlength]

/-- Three characters in six bytes are no digits. -/
example : ofHex? "#ééé" = none := by decide

end Color

end CodePane

import CodePane.Proofs.Text.Columns
import CodePane.Text.Characters

/-!
# Decoding and encoding

A codepoint is decoded from ranges of bytes; a character is encoded by dividing its value by powers
of 64. Both describe the same sequences: whatever surrounds it, the encoding of a character is read
as the character, and bytes that begin no encoding are malformed.

1. `Byte.Carries`: the six bits of a continuation byte.
2. `Spells`, `spells_utf8EncodeChar`, `Spells.unique`: the bytes of a character, by their values.
3. `announced_one`, `announced_two`, `announced_three`, `announced_four`: what a lead byte
   announces.
4. `Spells.exists_announced`, `exists_spells_of_matched`: the bytes that are decoded are the ones
   that spell a character.
5. `decode_append`, `decodeLead_of_no_encoding`: one codepoint.
6. `codepoints_encoded`, `decoding_inverts_encoding`: whole texts.
7. `chars?_eq_some_iff`, `encoded_injective`: the texts that are well-formed throughout.
8. `toUTF8_eq_encoded`, `encoded_eq_map`: the bytes of a string, and of ASCII characters.
-/

namespace CodePane

namespace Byte

/-- The byte continues a sequence with the six bits `d`. -/
def Carries (b : UInt8) (d : Nat) : Prop := d < 0x40 ∧ b.toNat = 0x80 + d

variable {b b' : UInt8} {d : Nat}

theorem Carries.mod (h : Carries b d) : b.toNat % 64 = d := by
  obtain ⟨hlt, hb⟩ := h
  omega

theorem Carries.eq (h : Carries b d) (h' : Carries b' d) : b = b' :=
  UInt8.toNat_inj.mp (h.2.trans h'.2.symm)

theorem carries_ofNat (n : Nat) : Carries (UInt8.ofNat (n % 0x40 + 0x80)) (n % 0x40) := by
  refine ⟨Nat.mod_lt n (by decide), ?_⟩
  rw [UInt8.toNat_ofNat']
  omega

theorem exists_carries_iff : (∃ d, Carries b d) ↔ 0x80 ≤ b ∧ b ≤ 0xBF := by
  simp only [Carries, UInt8.le_iff_toNat_le, UInt8.reduceToNat]
  constructor
  · rintro ⟨d, hlt, hb⟩
    omega
  · intro h
    exact ⟨b.toNat - 0x80, by omega, by omega⟩

end Byte

namespace Text

open Byte

variable {text rest tail : Text} {c : Char} {lead b : UInt8} {p d n : Nat}

/-! ## Spelling -/

/-- The bytes spell the character: in its shortest form, six bits of its value for each continuation
byte and the others behind the mark of the lead byte. -/
inductive Spells (c : Char) : Text → Prop
  | one {lead : UInt8} : c.toNat < 0x80 → lead.toNat = c.toNat → Spells c [lead]
  | two {lead b : UInt8} : 0x80 ≤ c.toNat → c.toNat < 0x800 →
      lead.toNat = 0xC0 + c.toNat / 64 → Carries b (c.toNat % 64) → Spells c [lead, b]
  | three {lead b₁ b₂ : UInt8} : 0x800 ≤ c.toNat → c.toNat < 0x10000 →
      lead.toNat = 0xE0 + c.toNat / 4096 → Carries b₁ (c.toNat / 64 % 64) →
      Carries b₂ (c.toNat % 64) → Spells c [lead, b₁, b₂]
  | four {lead b₁ b₂ b₃ : UInt8} : 0x10000 ≤ c.toNat →
      lead.toNat = 0xF0 + c.toNat / 262144 → Carries b₁ (c.toNat / 4096 % 64) →
      Carries b₂ (c.toNat / 64 % 64) → Carries b₃ (c.toNat % 64) → Spells c [lead, b₁, b₂, b₃]

theorem isValidChar_toNat (c : Char) : c.toNat.isValidChar := c.valid

theorem exists_toNat_eq (h : n.isValidChar) : ∃ c : Char, c.toNat = n :=
  ⟨Char.ofNatAux n h, rfl⟩

theorem spells_utf8EncodeChar (c : Char) : Spells c (String.utf8EncodeChar c) := by
  have hvalid := isValidChar_toNat c
  unfold String.utf8EncodeChar
  simp only [Char.toNat_val]
  split
  · refine .one (by omega) ?_
    rw [UInt8.toNat_ofNat']
    omega
  · split
    · refine .two (by omega) (by omega) ?_ (carries_ofNat _)
      rw [UInt8.toNat_ofNat']
      omega
    · split
      · refine .three (by omega) (by omega) ?_ (carries_ofNat _) (carries_ofNat _)
        rw [UInt8.toNat_ofNat']
        omega
      · refine .four (by omega) ?_ (carries_ofNat _) (carries_ofNat _) (carries_ofNat _)
        rw [UInt8.toNat_ofNat']
        omega

/-- A character is spelled in one way: its value says in how many bytes, and each of them. -/
theorem Spells.unique {bytes bytes' : Text} (h : Spells c bytes) (h' : Spells c bytes') :
    bytes = bytes' := by
  cases h with
  | one hlt hlead =>
    cases h' with
    | one _ hlead' => rw [UInt8.toNat_inj.mp (hlead.trans hlead'.symm)]
    | two | three | four => omega
  | two hge hlt hlead hb =>
    cases h' with
    | two _ _ hlead' hb' => rw [UInt8.toNat_inj.mp (hlead.trans hlead'.symm), hb.eq hb']
    | one | three | four => omega
  | three hge hlt hlead hb₁ hb₂ =>
    cases h' with
    | three _ _ hlead' hb₁' hb₂' =>
      rw [UInt8.toNat_inj.mp (hlead.trans hlead'.symm), hb₁.eq hb₁', hb₂.eq hb₂']
    | one | two | four => omega
  | four hge hlead hb₁ hb₂ hb₃ =>
    cases h' with
    | four _ hlead' hb₁' hb₂' hb₃' =>
      rw [UInt8.toNat_inj.mp (hlead.trans hlead'.symm), hb₁.eq hb₁', hb₂.eq hb₂', hb₃.eq hb₃']
    | one | two | three => omega

theorem Spells.eq_utf8EncodeChar {bytes : Text} (h : Spells c bytes) :
    bytes = String.utf8EncodeChar c :=
  h.unique (spells_utf8EncodeChar c)

/-! ## Lead bytes -/

theorem announced_one (h : lead.toNat < 0x80) :
    announced lead = some ⟨0, 0x80, 0xBF, lead.toNat⟩ := by
  unfold announced
  rw [if_pos (UInt8.lt_iff_toNat_lt.mpr h)]

theorem announced_two (hlead : lead.toNat = 0xC0 + p) (hshortest : 2 ≤ p) (hp : p < 0x20) :
    announced lead = some ⟨1, 0x80, 0xBF, p⟩ := by
  unfold announced
  simp only [UInt8.lt_iff_toNat_lt, UInt8.reduceToNat]
  rw [if_neg (by omega), if_neg (by omega), if_pos (by omega), hlead, Nat.add_sub_cancel_left]

theorem announced_three (hlead : lead.toNat = 0xE0 + p) (hp : p < 0x10) :
    announced lead =
      some ⟨2, if p = 0 then 0xA0 else 0x80, if p = 0xD then 0x9F else 0xBF, p⟩ := by
  unfold announced
  simp only [UInt8.lt_iff_toNat_lt, ← UInt8.toNat_inj, UInt8.reduceToNat, hlead]
  rw [if_neg (by omega), if_neg (by omega), if_neg (by omega)]
  by_cases hfirst : p = 0
  · subst hfirst
    rfl
  · by_cases hsurrogate : p = 0xD
    · subst hsurrogate
      rfl
    · rw [if_neg (by omega), if_neg (by omega), if_pos (by omega), if_neg hfirst,
        if_neg hsurrogate, Nat.add_sub_cancel_left]

theorem announced_four (hlead : lead.toNat = 0xF0 + p) (hp : p < 5) :
    announced lead =
      some ⟨3, if p = 0 then 0x90 else 0x80, if p = 4 then 0x8F else 0xBF, p⟩ := by
  unfold announced
  simp only [UInt8.lt_iff_toNat_lt, ← UInt8.toNat_inj, UInt8.reduceToNat, hlead]
  rw [if_neg (by omega), if_neg (by omega), if_neg (by omega), if_neg (by omega),
    if_neg (by omega), if_neg (by omega)]
  by_cases hfirst : p = 0
  · subst hfirst
    rfl
  · by_cases hlast : p = 4
    · subst hlast
      rfl
    · rw [if_neg (by omega), if_pos (by omega), if_neg hfirst, if_neg hlast,
        Nat.add_sub_cancel_left]

theorem announced_eq_none (h : 0x80 ≤ lead.toNat ∧ lead.toNat < 0xC2 ∨ 0xF5 ≤ lead.toNat) :
    announced lead = none := by
  unfold announced
  simp only [UInt8.lt_iff_toNat_lt, ← UInt8.toNat_inj, UInt8.reduceToNat]
  rcases h with h | h
  · rw [if_neg (by omega), if_pos (by omega)]
  · rw [if_neg (by omega), if_neg (by omega), if_neg (by omega), if_neg (by omega),
      if_neg (by omega), if_neg (by omega), if_neg (by omega), if_neg (by omega),
      if_neg (by omega)]

theorem lead_cases (lead : UInt8) :
    lead.toNat < 0x80 ∨ (∃ p, 2 ≤ p ∧ p < 0x20 ∧ lead.toNat = 0xC0 + p) ∨
      (∃ p < 0x10, lead.toNat = 0xE0 + p) ∨ (∃ p < 5, lead.toNat = 0xF0 + p) ∨
      announced lead = none := by
  by_cases hone : lead.toNat < 0x80
  · exact .inl hone
  by_cases htwo : 0xC2 ≤ lead.toNat ∧ lead.toNat < 0xE0
  · exact .inr (.inl ⟨lead.toNat - 0xC0, by omega, by omega, by omega⟩)
  by_cases hthree : 0xE0 ≤ lead.toNat ∧ lead.toNat < 0xF0
  · exact .inr (.inr (.inl ⟨lead.toNat - 0xE0, by omega, by omega⟩))
  by_cases hfour : 0xF0 ≤ lead.toNat ∧ lead.toNat < 0xF5
  · exact .inr (.inr (.inr (.inl ⟨lead.toNat - 0xF0, by omega, by omega⟩)))
  · exact .inr (.inr (.inr (.inr (announced_eq_none (by omega)))))

/-! ## Continuation bytes -/

/-- The range of the byte behind a lead byte of three leaves out overlong forms and surrogates. -/
theorem carries_three_iff (hb : Carries b d) :
    ((if p = 0 then 0xA0 else 0x80) ≤ b ∧ b ≤ (if p = 0xD then 0x9F else 0xBF)) ↔
      (p = 0 → 0x20 ≤ d) ∧ (p = 0xD → d < 0x20) := by
  obtain ⟨hd, hb⟩ := hb
  split_ifs <;> simp only [UInt8.le_iff_toNat_le, UInt8.reduceToNat, hb] <;> omega

/-- The range of the byte behind a lead byte of four leaves out overlong forms and what is above the
greatest character. -/
theorem carries_four_iff (hb : Carries b d) :
    ((if p = 0 then 0x90 else 0x80) ≤ b ∧ b ≤ (if p = 4 then 0x8F else 0xBF)) ↔
      (p = 0 → 0x10 ≤ d) ∧ (p = 4 → d < 0x10) := by
  obtain ⟨hd, hb⟩ := hb
  split_ifs <;> simp only [UInt8.le_iff_toNat_le, UInt8.reduceToNat, hb] <;> omega

theorem matched_zero (low high : UInt8) (rest : Text) : matched low high 0 rest = 0 := by
  cases rest <;> rfl

theorem matched_cons {low high : UInt8} (hb : low ≤ b ∧ b ≤ high)
    (h : matched 0x80 0xBF n rest = n) : matched low high (n + 1) (b :: rest) = n + 1 := by
  rw [matched, if_pos hb, h]

theorem matched_carries (hb : Carries b d) (h : matched 0x80 0xBF n rest = n) :
    matched 0x80 0xBF (n + 1) (b :: rest) = n + 1 :=
  matched_cons (exists_carries_iff.mp ⟨d, hb⟩) h

theorem exists_carries_of_matched {low high : UInt8} (hlow : 0x80 ≤ low) (hhigh : high ≤ 0xBF)
    (h : matched low high (n + 1) rest = n + 1) :
    ∃ b tail d, rest = b :: tail ∧ Carries b d ∧ (low ≤ b ∧ b ≤ high) ∧
      matched 0x80 0xBF n tail = n := by
  cases rest with
  | nil => simp [matched] at h
  | cons b tail =>
    rw [matched] at h
    split at h
    · next hb =>
      obtain ⟨d, hd⟩ := exists_carries_iff.mpr
        ⟨UInt8.le_trans hlow hb.1, UInt8.le_trans hb.2 hhigh⟩
      exact ⟨b, tail, d, rfl, hd, hb, Nat.succ.inj h⟩
    · omega

theorem scalar_nil (p : Nat) : scalar p [] = p := rfl

theorem scalar_cons (hb : Carries b d) (p : Nat) (tail : Text) :
    scalar p (b :: tail) = scalar (p * 64 + d) tail := by
  rw [scalar, List.foldl_cons, hb.mod, ← scalar]

/-! ## What is decoded -/

/-- The bytes that spell a character are announced and matched, whatever follows them. -/
theorem Spells.exists_announced (h : Spells c (lead :: tail)) (rest : Text) :
    ∃ a, announced lead = some a ∧ a.owed = tail.length ∧
      matched a.low a.high a.owed (tail ++ rest) = a.owed ∧ scalar a.payload tail = c.toNat := by
  have hvalid := isValidChar_toNat c
  cases h with
  | one hlt hlead => exact ⟨_, announced_one (by omega), rfl, matched_zero _ _ _, hlead⟩
  | two hge hlt hlead hb =>
    refine ⟨_, announced_two hlead (by omega) (by omega), rfl,
      matched_carries hb (matched_zero _ _ _), ?_⟩
    show scalar (c.toNat / 64) _ = c.toNat
    rw [scalar_cons hb, scalar_nil]
    omega
  | three hge hlt hlead hb₁ hb₂ =>
    refine ⟨_, announced_three hlead (by omega), rfl,
      matched_cons ((carries_three_iff hb₁).mpr (by omega))
        (matched_carries hb₂ (matched_zero _ _ _)), ?_⟩
    show scalar (c.toNat / 4096) _ = c.toNat
    rw [scalar_cons hb₁, scalar_cons hb₂, scalar_nil]
    omega
  | four hge hlead hb₁ hb₂ hb₃ =>
    refine ⟨_, announced_four hlead (by omega), rfl,
      matched_cons ((carries_four_iff hb₁).mpr (by omega))
        (matched_carries hb₂ (matched_carries hb₃ (matched_zero _ _ _))), ?_⟩
    show scalar (c.toNat / 262144) _ = c.toNat
    rw [scalar_cons hb₁, scalar_cons hb₂, scalar_cons hb₃, scalar_nil]
    omega

/-- What is announced and matched spells a character, whose value is the scalar that it carries. The
cases are those of the lead byte; the ranges of the byte behind it keep the scalar a character's. -/
theorem exists_spells_of_matched {a : Announced} (ha : announced lead = some a)
    (h : matched a.low a.high a.owed rest = a.owed) :
    ∃ c : Char, Spells c (lead :: rest.take a.owed) ∧
      scalar a.payload (rest.take a.owed) = c.toNat := by
  have hrange := announced_range ha
  have htrailing := UInt8.le_refl 0x80
  have htrailing' := UInt8.le_refl 0xBF
  rcases lead_cases lead with hlead | ⟨p, hshortest, hp, hlead⟩ | ⟨p, hp, hlead⟩ |
    ⟨p, hp, hlead⟩ | hnone
  · rw [announced_one hlead] at ha
    obtain rfl := Option.some.inj ha
    obtain ⟨c, hc⟩ := exists_toNat_eq (n := lead.toNat) (.inl (by omega))
    exact ⟨c, .one (by omega) hc.symm, hc.symm⟩
  · rw [announced_two hlead hshortest hp] at ha
    obtain rfl := Option.some.inj ha
    obtain ⟨b, tail, d, rfl, hb, -, -⟩ := exists_carries_of_matched hrange.1 hrange.2.1 h
    have hd := hb.1
    obtain ⟨c, hc⟩ := exists_toNat_eq (n := p * 64 + d) (.inl (by omega))
    refine ⟨c, .two (by omega) (by omega) (by omega) ?_, ?_⟩
    · rwa [show c.toNat % 64 = d by omega]
    · show scalar p [b] = c.toNat
      rw [scalar_cons hb, scalar_nil, hc]
  · rw [announced_three hlead hp] at ha
    obtain rfl := Option.some.inj ha
    obtain ⟨b₁, tail, d₁, rfl, hb₁, hsecond, htail⟩ :=
      exists_carries_of_matched hrange.1 hrange.2.1 h
    obtain ⟨b₂, tail, d₂, rfl, hb₂, -, -⟩ := exists_carries_of_matched htrailing htrailing' htail
    rw [carries_three_iff hb₁] at hsecond
    have hd₁ := hb₁.1
    have hd₂ := hb₂.1
    have hvalid : ((p * 64 + d₁) * 64 + d₂).isValidChar := by
      unfold Nat.isValidChar
      omega
    obtain ⟨c, hc⟩ := exists_toNat_eq hvalid
    refine ⟨c, .three (by omega) (by omega) (by omega) ?_ ?_, ?_⟩
    · rwa [show c.toNat / 64 % 64 = d₁ by omega]
    · rwa [show c.toNat % 64 = d₂ by omega]
    · show scalar p [b₁, b₂] = c.toNat
      rw [scalar_cons hb₁, scalar_cons hb₂, scalar_nil, hc]
  · rw [announced_four hlead hp] at ha
    obtain rfl := Option.some.inj ha
    obtain ⟨b₁, tail, d₁, rfl, hb₁, hsecond, htail⟩ :=
      exists_carries_of_matched hrange.1 hrange.2.1 h
    obtain ⟨b₂, tail, d₂, rfl, hb₂, -, htail⟩ :=
      exists_carries_of_matched htrailing htrailing' htail
    obtain ⟨b₃, tail, d₃, rfl, hb₃, -, -⟩ := exists_carries_of_matched htrailing htrailing' htail
    rw [carries_four_iff hb₁] at hsecond
    have hd₁ := hb₁.1
    have hd₂ := hb₂.1
    have hd₃ := hb₃.1
    have hvalid : (((p * 64 + d₁) * 64 + d₂) * 64 + d₃).isValidChar := by
      unfold Nat.isValidChar
      omega
    obtain ⟨c, hc⟩ := exists_toNat_eq hvalid
    refine ⟨c, .four (by omega) (by omega) ?_ ?_ ?_, ?_⟩
    · rwa [show c.toNat / 4096 % 64 = d₁ by omega]
    · rwa [show c.toNat / 64 % 64 = d₂ by omega]
    · rwa [show c.toNat % 64 = d₃ by omega]
    · show scalar p [b₁, b₂, b₃] = c.toNat
      rw [scalar_cons hb₁, scalar_cons hb₂, scalar_cons hb₃, scalar_nil, hc]
  · rw [hnone] at ha
    contradiction

theorem exists_eq_append_of_matched {a : Announced} (ha : announced lead = some a)
    (h : matched a.low a.high a.owed rest = a.owed) :
    ∃ c : Char, lead :: rest = String.utf8EncodeChar c ++ rest.drop a.owed ∧
      Char.ofNat (scalar a.payload (rest.take a.owed)) = c := by
  obtain ⟨c, hspells, hscalar⟩ := exists_spells_of_matched ha h
  refine ⟨c, ?_, ?_⟩
  · rw [← hspells.eq_utf8EncodeChar, List.cons_append, List.take_append_drop]
  · rw [hscalar, Char.ofNat_toNat]

/-- The encoding of a character is announced and matched. -/
theorem exists_announced_utf8EncodeChar (c : Char) (rest : Text) :
    ∃ lead tail a, String.utf8EncodeChar c = lead :: tail ∧ announced lead = some a ∧
      a.owed = tail.length ∧ matched a.low a.high a.owed (tail ++ rest) = a.owed ∧
      Char.ofNat (scalar a.payload tail) = c := by
  have hspells := spells_utf8EncodeChar c
  cases hbytes : String.utf8EncodeChar c with
  | nil =>
    rw [hbytes] at hspells
    cases hspells
  | cons lead tail =>
    rw [hbytes] at hspells
    obtain ⟨a, ha, howed, hmatched, hscalar⟩ := hspells.exists_announced rest
    exact ⟨lead, tail, a, rfl, ha, howed, hmatched, by rw [hscalar, Char.ofNat_toNat]⟩

/-! ## One codepoint -/

theorem decode_append (c : Char) (rest : Text) :
    decode (String.utf8EncodeChar c ++ rest) = some ⟨c, (String.utf8EncodeChar c).length⟩ := by
  obtain ⟨lead, tail, a, hbytes, ha, howed, hmatched, hscalar⟩ :=
    exists_announced_utf8EncodeChar c rest
  rw [hbytes, List.cons_append, decode, decodeLead, ha]
  simp only
  rw [if_pos hmatched, howed, List.take_left, hscalar, List.length_cons]

theorem decodeLead_of_no_encoding (h : ∀ c, ¬ String.utf8EncodeChar c <+: lead :: rest) :
    decodeLead lead rest = ⟨replacement, 1⟩ := by
  unfold decodeLead
  split
  · rfl
  · next a ha =>
    rw [if_neg]
    intro hmatched
    obtain ⟨c, hbytes, -⟩ := exists_eq_append_of_matched ha hmatched
    exact h c ⟨_, hbytes.symm⟩

theorem codepointAt_of_encoding {pos : Nat} (h : String.utf8EncodeChar c <+: text.drop pos) :
    codepointAt text pos = some ⟨c, (String.utf8EncodeChar c).length⟩ := by
  obtain ⟨rest, hrest⟩ := h
  rw [codepointAt, ← hrest, decode_append]

/-! ## Texts -/

def encoded (chars : List Char) : Text := chars.flatMap String.utf8EncodeChar

theorem encoded_cons (c : Char) (chars : List Char) :
    encoded (c :: chars) = String.utf8EncodeChar c ++ encoded chars :=
  List.flatMap_cons

/-- The codepoints of encoded characters are these characters, whatever stands before and behind
them. The induction is on the characters; each of them joins what stands before the next. -/
theorem codepoints_encoded (before : Text) (chars : List Char) (behind : Text) :
    codepoints (before ++ encoded chars ++ behind) before.length
        (before.length + (encoded chars).length) =
      chars.mapIdx fun i c => (before.length + (encoded (chars.take i)).length,
        ⟨c, (String.utf8EncodeChar c).length⟩) := by
  induction chars generalizing before with
  | nil => exact codepoints_of_le _ (Nat.le_refl _)
  | cons c chars ih =>
    have hpos : 0 < (String.utf8EncodeChar c).length := by
      rw [String.length_utf8EncodeChar]
      exact c.utf8Size_pos
    have hlength : (encoded (c :: chars)).length =
        (String.utf8EncodeChar c).length + (encoded chars).length := by
      rw [encoded_cons, List.length_append]
    have htext : before ++ String.utf8EncodeChar c ++ encoded chars ++ behind =
        before ++ encoded (c :: chars) ++ behind := by
      rw [encoded_cons, List.append_assoc before]
    have hc : codepointAt (before ++ encoded (c :: chars) ++ behind) before.length =
        some ⟨c, (String.utf8EncodeChar c).length⟩ := by
      refine codepointAt_of_encoding ⟨encoded chars ++ behind, ?_⟩
      rw [List.append_assoc, List.drop_left, encoded_cons, List.append_assoc]
    have hrest := ih (before ++ String.utf8EncodeChar c)
    rw [htext, List.length_append, Nat.add_assoc, ← hlength] at hrest
    rw [codepoints_of_lt hc (by omega), hrest, List.mapIdx_cons]
    simp only [List.take_zero, List.take_succ_cons, encoded_cons, List.length_append,
      Nat.add_assoc]
    rfl

/-- **Decoding inverts encoding.** At every offset inside a text the codepoint is the character
whose encoding begins there, of the length of the encoding; where none does it is one byte long and
the replacement character. So the codepoints of an encoded list of characters are these characters,
each at the length of what is before it. -/
theorem decoding_inverts_encoding (text : Text) (chars : List Char) :
    (∀ pos < text.length,
      (∀ c, String.utf8EncodeChar c <+: text.drop pos →
        codepointAt text pos = some ⟨c, (String.utf8EncodeChar c).length⟩) ∧
      ((∀ c, ¬ String.utf8EncodeChar c <+: text.drop pos) →
        codepointAt text pos = some ⟨replacement, 1⟩)) ∧
    codepoints (encoded chars) 0 (encoded chars).length =
      chars.mapIdx fun i c =>
        ((encoded (chars.take i)).length, ⟨c, (String.utf8EncodeChar c).length⟩) := by
  constructor
  · intro pos hpos
    refine ⟨fun c hc => codepointAt_of_encoding hc, fun hnone => ?_⟩
    rw [List.drop_eq_getElem_cons hpos] at hnone
    rw [codepointAt, List.drop_eq_getElem_cons hpos, decode, decodeLead_of_no_encoding hnone]
  · have hwhole := codepoints_encoded [] chars []
    simpa only [List.nil_append, List.append_nil, List.length_nil, Nat.zero_add] using hwhole

/-- A stray byte, a character of four bytes and a surrogate: the character is found, and nothing is
at the surrogate. -/
theorem decoding_inverts_encoding_surrogate :
    let text : Text := [0x80, 0xF0, 0x9F, 0x98, 0x80, 0xED, 0xA0, 0x80]
    String.utf8EncodeChar '😀' <+: text.drop 1 ∧ codepointAt text 1 = some ⟨'😀', 4⟩ ∧
      (∀ c, ¬ String.utf8EncodeChar c <+: text.drop 5) ∧
      codepointAt text 5 = some ⟨replacement, 1⟩ := by
  intro text
  have hat (pos : Nat) (hpos : pos < text.length) :=
    (decoding_inverts_encoding text []).1 pos hpos
  have hfound : String.utf8EncodeChar '😀' <+: text.drop 1 := by decide
  have hnone : ∀ c, ¬ String.utf8EncodeChar c <+: text.drop 5 := by
    intro c hc
    have hread : codepointAt text 5 = some ⟨replacement, 1⟩ := by decide
    rw [(hat 5 (by decide)).1 c hc, Option.some.injEq, Codepoint.mk.injEq] at hread
    obtain ⟨rfl, hlength⟩ := hread
    exact absurd hlength (by decide)
  exact ⟨hfound, (hat 1 (by decide)).1 _ hfound, hnone, (hat 5 (by decide)).2 hnone⟩

/-! ## Well-formed texts -/

theorem chars?_append (c : Char) (rest : Text) :
    chars? (String.utf8EncodeChar c ++ rest) = (chars? rest).map (c :: ·) := by
  obtain ⟨lead, tail, a, hbytes, ha, howed, hmatched, hscalar⟩ :=
    exists_announced_utf8EncodeChar c rest
  rw [hbytes, List.cons_append, chars?, ha]
  simp only
  rw [if_pos hmatched, howed, List.take_left, List.drop_left, hscalar]

theorem eq_encoded_of_chars? {chars : List Char} (h : chars? text = some chars) :
    text = encoded chars := by
  fun_induction chars? text generalizing chars with
  | case1 =>
    obtain rfl := Option.some.inj h
    rfl
  | case2 => cases h
  | case3 lead rest a ha hmatched ih =>
    obtain ⟨chars, hchars, rfl⟩ := Option.map_eq_some_iff.mp h
    obtain ⟨c, hbytes, hc⟩ := exists_eq_append_of_matched ha hmatched
    rw [hc, encoded_cons, ← ih hchars, hbytes]
  | case4 => cases h

/-- **The characters of a text are there exactly if the text is their encoding.** -/
theorem chars?_eq_some_iff {chars : List Char} :
    chars? text = some chars ↔ text = encoded chars := by
  constructor
  · exact eq_encoded_of_chars?
  · rintro rfl
    induction chars with
    | nil => rw [encoded, List.flatMap_nil, chars?]
    | cons c chars ih => rw [encoded_cons, chars?_append, ih, Option.map_some]

theorem encoded_injective {chars chars' : List Char} (h : encoded chars = encoded chars') :
    chars = chars' := by
  have hread := chars?_eq_some_iff.mpr h
  rw [chars?_eq_some_iff.mpr rfl] at hread
  exact Option.some.inj hread

theorem toUTF8_eq_encoded (s : String) : s.toUTF8.data.toList = encoded s.toList := by
  rw [String.toUTF8_eq_toByteArray, ← String.ofList_toList (s := s), String.toByteArray_ofList,
    List.utf8Encode, List.data_toByteArray, String.toList_ofList]
  rfl

theorem encoded_eq_map {chars : List Char} (h : ∀ c ∈ chars, c.toNat < 0x80) :
    encoded chars = chars.map Char.toUInt8 := by
  induction chars with
  | nil => rfl
  | cons c chars ih =>
    obtain ⟨hc, hchars⟩ := List.forall_mem_cons.mp h
    have hbyte := (Spells.one hc (toNat_toUInt8 (by omega))).eq_utf8EncodeChar
    rw [encoded_cons, ← hbyte, ih hchars]
    rfl

end Text

end CodePane

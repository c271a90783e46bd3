import CodePane.Vocabulary
import Mathlib.Data.List.Basic

/-!
# The names of registers

The registers of a listing come in families. Most have their names in a table; the numbered ones and
the vectors are told by their numbers. The table lacks the low bytes of the four registers that are
named by two letters, and a vector is known by its number with a zero before its digit too.

1. `numeral`, `RegisterName`: the families, and numerals without a zero in front.
2. `plainRegisters_eq`, `isNumberedRegister_iff`: the table, and the numbered registers.
3. `exists_of_isVectorNumber`, `isVectorNumber_iff`: the numbers of vectors.
4. `not_registerName_of_padded`, `isRegisterName_iff`: all names.
-/

namespace CodePane.Vocabulary

variable {name rest digits : Text} {b : UInt8} {m n : Nat}

/-! ## Families -/

/-- The byte of a decimal digit. -/
def digit (n : Nat) : UInt8 := (Nat.digitChar n).toUInt8

/-- The bytes of a natural number in decimal, without a zero in front. -/
def numeral (n : Nat) : Text := (Nat.toDigits 10 n).map Char.toUInt8

/-- What stands before the name of a word for the register of 64, of 32 and of 16 bits. -/
def sizeMarks : List Text := ["r", "e", ""].map ascii

/-- The words of the general registers that have no number. -/
def wordNames : List Text := ["ax", "bx", "cx", "dx", "si", "di", "sp", "bp"].map ascii

/-- The low and high bytes of the words that have a letter of their own. -/
def letterBytes : List Text := ["al", "bl", "cl", "dl", "ah", "bh", "ch", "dh"].map ascii

/-- The low bytes of the other words. -/
def wordBytes : List Text := ["sil", "dil", "spl", "bpl"].map ascii

/-- What stands behind the number of a register for 64, 8, 16 and 32 bits. -/
def sizeLetters : List Text := ["", "b", "w", "d"].map ascii

def segmentNames : List Text := ["cs", "ds", "es", "fs", "gs", "ss"].map ascii

/-- The instruction pointer at 64, 32 and 16 bits. -/
def pointerNames : List Text := ["rip", "eip", "ip"].map ascii

/-- What stands before the number of a vector. -/
def vectorMarks : List Text := ["xmm", "ymm", "zmm"].map ascii

/-- A register of x86-64, as it is written behind the percent sign. -/
inductive RegisterName : Text → Prop
  | word {size word : Text} (sized : size ∈ sizeMarks) (listed : word ∈ wordNames) :
      RegisterName (size ++ word)
  | byte {name : Text} (listed : name ∈ letterBytes ++ wordBytes) : RegisterName name
  | numbered {n : Nat} {size : Text} (low : 8 ≤ n) (high : n ≤ 15) (sized : size ∈ sizeLetters) :
      RegisterName (ascii "r" ++ (numeral n ++ size))
  | segment {name : Text} (listed : name ∈ segmentNames) : RegisterName name
  | pointer {name : Text} (listed : name ∈ pointerNames) : RegisterName name
  | vector {mark : Text} {n : Nat} (marked : mark ∈ vectorMarks) (high : n ≤ 31) :
      RegisterName (mark ++ numeral n)

/-- A vector whose number is a digit with a zero before it. -/
def IsPaddedVector (name : Text) : Prop :=
  ∃ mark ∈ vectorMarks, ∃ n < 10, name = mark ++ digit 0 :: numeral n

/-! ## The table and the numbered registers -/

/-- The table holds whole families, one after the other. -/
theorem plainRegisters_eq : plainRegisters =
    sizeMarks.flatMap (fun size => wordNames.map (size ++ ·)) ++ letterBytes ++ segmentNames ++
      pointerNames := rfl

theorem mem_plainRegisters_iff : name ∈ plainRegisters ↔
    (∃ size ∈ sizeMarks, ∃ word ∈ wordNames, size ++ word = name) ∨
      name ∈ letterBytes ∨ name ∈ segmentNames ∨ name ∈ pointerNames := by
  simp only [plainRegisters_eq, List.mem_append, List.mem_flatMap, List.mem_map, or_assoc]

theorem isNumberedRegister_iff : isNumberedRegister rest = true ↔
    ∃ n, 8 ≤ n ∧ n ≤ 15 ∧ ∃ size ∈ sizeLetters, rest = numeral n ++ size := by
  have hnumbers : ["8", "9", "10", "11", "12", "13", "14", "15"].map ascii =
      (List.range' 8 8).map numeral := rfl
  have hsizes : ["", "b", "w", "d"].map ascii = sizeLetters := rfl
  unfold isNumberedRegister
  simp only [hnumbers, hsizes, List.any_eq_true, List.mem_map, List.mem_range'_1, beq_iff_eq]
  constructor
  · rintro ⟨_, ⟨n, ⟨hlow, hhigh⟩, rfl⟩, hsize⟩
    exact ⟨n, hlow, by omega, hsize⟩
  · rintro ⟨n, hlow, hhigh, hsize⟩
    exact ⟨numeral n, ⟨n, ⟨hlow, by omega⟩, rfl⟩, hsize⟩

/-! ## The numbers of vectors -/

theorem toNat_digit : ∀ n < 10, (digit n).toNat = 48 + n := by decide

theorem isDigit_digit : ∀ n < 10, Byte.isDigit (digit n) = true := by decide

theorem exists_digit (hb : Byte.isDigit b = true) : ∃ n < 10, b = digit n := by
  simp only [Byte.isDigit, Bool.and_eq_true, decide_eq_true_eq, UInt8.le_iff_toNat_le] at hb
  have hlow : 48 ≤ b.toNat := hb.1
  have hhigh : b.toNat ≤ 57 := hb.2
  refine ⟨b.toNat - 48, by omega, UInt8.toNat_inj.mp ?_⟩
  rw [toNat_digit _ (by omega)]
  omega

theorem numeral_of_lt (hn : n < 10) : numeral n = [digit n] := by
  rw [numeral, Nat.toDigits_of_lt_base hn]
  rfl

theorem numeral_two (hm : 0 < m) (hlt : m < 10) (hn : n < 10) :
    numeral (m * 10 + n) = [digit m, digit n] := by
  have hquotient : (m * 10 + n) / 10 = m := by omega
  have hremainder : (m * 10 + n) % 10 = n := by omega
  rw [numeral, Nat.toDigits_of_base_le (by decide) (by omega), hquotient, hremainder,
    Nat.toDigits_of_lt_base hlt]
  rfl

theorem numeral_cases (hn : n < 100) : (n < 10 ∧ numeral n = [digit n]) ∨
    ∃ m k, 0 < m ∧ m < 10 ∧ k < 10 ∧ n = m * 10 + k ∧ numeral n = [digit m, digit k] := by
  by_cases hsmall : n < 10
  · exact .inl ⟨hsmall, numeral_of_lt hsmall⟩
  · have hsplit : n = n / 10 * 10 + n % 10 := by omega
    have hm : 0 < n / 10 := by omega
    have hlt : n / 10 < 10 := by omega
    have hk : n % 10 < 10 := by omega
    have htwo := numeral_two hm hlt hk
    rw [← hsplit] at htwo
    exact .inr ⟨n / 10, n % 10, hm, hlt, hk, hsplit, htwo⟩

theorem isVectorNumber_one (hn : n < 10) : isVectorNumber [digit n] = true := by
  have hvalue : n ≤ 31 := by omega
  simp [isVectorNumber, isDigit_digit, toNat_digit, hn, hvalue]

theorem isVectorNumber_two (hm : m < 10) (hn : n < 10) :
    isVectorNumber [digit m, digit n] = true ↔ m * 10 + n ≤ 31 := by
  simp [isVectorNumber, isDigit_digit, toNat_digit, hm, hn]

theorem exists_of_isVectorNumber (h : isVectorNumber digits = true) :
    (∃ n < 10, digits = [digit n]) ∨
      ∃ m < 10, ∃ n < 10, digits = [digit m, digit n] ∧ m * 10 + n ≤ 31 := by
  have hparts := h
  simp only [isVectorNumber, Bool.and_eq_true, decide_eq_true_eq] at hparts
  obtain ⟨⟨⟨hsome, hlength⟩, hdigits⟩, -⟩ := hparts
  rw [List.all_eq_true] at hdigits
  match digits with
  | [] => cases hsome
  | [d] =>
    obtain ⟨n, hn, rfl⟩ := exists_digit (hdigits d List.mem_cons_self)
    exact .inl ⟨n, hn, rfl⟩
  | [d, e] =>
    obtain ⟨m, hm, rfl⟩ := exists_digit (hdigits d List.mem_cons_self)
    obtain ⟨n, hn, rfl⟩ := exists_digit (hdigits e (List.mem_cons_of_mem _ List.mem_cons_self))
    exact .inr ⟨m, hm, n, hn, rfl, (isVectorNumber_two hm hn).mp h⟩
  | _ :: _ :: _ :: _ => simp at hlength

theorem isVectorNumber_iff : isVectorNumber digits = true ↔
    (∃ n ≤ 31, digits = numeral n) ∨ ∃ n < 10, digits = digit 0 :: numeral n := by
  constructor
  · intro h
    obtain ⟨n, hn, rfl⟩ | ⟨m, hm, n, hn, rfl, hvalue⟩ := exists_of_isVectorNumber h
    · exact .inl ⟨n, by omega, (numeral_of_lt hn).symm⟩
    · rcases Nat.eq_zero_or_pos m with rfl | hpos
      · exact .inr ⟨n, hn, by rw [numeral_of_lt hn]⟩
      · exact .inl ⟨_, hvalue, (numeral_two hpos hm hn).symm⟩
  · rintro (⟨n, hn, rfl⟩ | ⟨n, hn, rfl⟩)
    · obtain ⟨hlt, hone⟩ | ⟨m, k, -, hm, hk, rfl, htwo⟩ := numeral_cases (n := n) (by omega)
      · rw [hone]
        exact isVectorNumber_one hlt
      · rw [htwo]
        exact (isVectorNumber_two hm hk).mpr hn
    · rw [numeral_of_lt hn]
      exact (isVectorNumber_two (by decide) hn).mpr (by omega)

/-! ## Names -/

theorem length_vectorMark : ∀ mark ∈ vectorMarks, mark.length = 3 := by decide

/-- A name is in the table, or it is a mark with its number. -/
theorem isRegisterName_iff_parts : isRegisterName name = true ↔ name ∈ plainRegisters ∨
    (∃ rest, name = ascii "r" ++ rest ∧ isNumberedRegister rest = true) ∨
      ∃ mark ∈ vectorMarks, ∃ digits, name = mark ++ digits ∧ isVectorNumber digits = true := by
  unfold isRegisterName
  simp only [Bool.or_eq_true, Bool.and_eq_true, List.contains_iff_mem, beq_iff_eq, or_assoc]
  refine or_congr Iff.rfl (or_congr ?_ ?_)
  · constructor
    · rintro ⟨hhead, hrest⟩
      cases name with
      | nil => cases hhead
      | cons b rest =>
        obtain rfl := Option.some.inj hhead
        exact ⟨rest, rfl, hrest⟩
    · rintro ⟨rest, rfl, hrest⟩
      exact ⟨rfl, hrest⟩
  · constructor
    · rintro ⟨hmark, hdigits⟩
      exact ⟨_, hmark, _, (List.take_append_drop 3 name).symm, hdigits⟩
    · rintro ⟨mark, hmark, digits, rfl, hdigits⟩
      have hlength := length_vectorMark mark hmark
      rw [List.take_left' hlength, List.drop_left' hlength]
      exact ⟨hmark, hdigits⟩

theorem numeral_ne_padded (hn : n < 100) (digits : Text) (hdigits : digits ≠ []) :
    numeral n ≠ digit 0 :: digits := by
  intro h
  obtain ⟨-, hone⟩ | ⟨m, k, hpos, hm, -, -, htwo⟩ := numeral_cases hn
  · rw [hone] at h
    exact hdigits (List.cons.inj h).2.symm
  · rw [htwo] at h
    have hfirst := congrArg UInt8.toNat (List.cons.inj h).1
    rw [toNat_digit m hm, toNat_digit 0 (by decide)] at hfirst
    omega

theorem length_numeral_le (hn : n < 100) : (numeral n).length ≤ 2 := by
  obtain ⟨-, hone⟩ | ⟨m, k, -, -, -, -, htwo⟩ := numeral_cases hn
  · rw [hone]
    exact Nat.le_succ 1
  · rw [htwo]
    exact Nat.le_refl 2

theorem RegisterName.length_le_or (h : RegisterName name) : name.length ≤ 4 ∨
    ∃ mark ∈ vectorMarks, ∃ n ≤ 31, name = mark ++ numeral n := by
  have hword : ∀ size ∈ sizeMarks, ∀ word ∈ wordNames, (size ++ word).length ≤ 4 := by decide
  have hletter : ∀ size ∈ sizeLetters, size.length ≤ 1 := by decide
  have hlisted : ∀ name ∈ letterBytes ++ wordBytes ++ segmentNames ++ pointerNames,
      name.length ≤ 4 := by decide
  simp only [List.forall_mem_append] at hlisted
  cases h with
  | word sized listed => exact .inl (hword _ sized _ listed)
  | byte listed => exact .inl (List.forall_mem_append.mpr hlisted.1.1 _ listed)
  | @numbered n size _ high sized =>
    have hnumeral := length_numeral_le (n := n) (by omega)
    have hsize := hletter size sized
    have hone : (ascii "r").length = 1 := rfl
    rw [List.length_append, List.length_append]
    exact .inl (by omega)
  | segment listed => exact .inl (hlisted.1.2 _ listed)
  | pointer listed => exact .inl (hlisted.2 _ listed)
  | vector marked high => exact .inr ⟨_, marked, _, high, rfl⟩

/-- No register has a zero before its number. -/
theorem not_registerName_of_padded (h : IsPaddedVector name) : ¬ RegisterName name := by
  obtain ⟨mark, hmark, n, hn, rfl⟩ := h
  intro hname
  have hlength := length_vectorMark mark hmark
  obtain hshort | ⟨mark', hmark', n', hn', heq⟩ := hname.length_le_or
  · rw [List.length_append, List.length_cons, numeral_of_lt hn, List.length_singleton] at hshort
    omega
  · have hlength' := length_vectorMark mark' hmark'
    have hnumeral := (List.append_inj heq (hlength.trans hlength'.symm)).2
    refine numeral_ne_padded (n := n') (by omega) (numeral n) ?_ hnumeral.symm
    rw [numeral_of_lt hn]
    exact List.cons_ne_nil _ _

/-- The low bytes of words are not known. -/
theorem isRegisterName_wordBytes : ∀ name ∈ wordBytes, isRegisterName name = false := by decide

theorem registerName_of_plain (h : name ∈ plainRegisters) : RegisterName name := by
  obtain ⟨size, hsize, word, hword, rfl⟩ | hlisted | hlisted | hlisted :=
    mem_plainRegisters_iff.mp h
  · exact .word hsize hword
  · exact .byte (List.mem_append_left _ hlisted)
  · exact .segment hlisted
  · exact .pointer hlisted

/-- **A name is known as a register** if it is one of any family but the low bytes of words, or a
vector whose number is a digit with a zero before it. -/
theorem isRegisterName_iff (name : Text) : isRegisterName name = true ↔
    (RegisterName name ∧ name ∉ wordBytes) ∨ IsPaddedVector name := by
  constructor
  · intro h
    have hknown : name ∉ wordBytes := by
      intro hlow
      rw [isRegisterName_wordBytes name hlow] at h
      cases h
    obtain hplain | ⟨rest, rfl, hrest⟩ | ⟨mark, hmark, digits, rfl, hdigits⟩ :=
      isRegisterName_iff_parts.mp h
    · exact .inl ⟨registerName_of_plain hplain, hknown⟩
    · obtain ⟨n, hlow, hhigh, size, hsize, rfl⟩ := isNumberedRegister_iff.mp hrest
      exact .inl ⟨.numbered hlow hhigh hsize, hknown⟩
    · obtain ⟨n, hn, rfl⟩ | ⟨n, hn, rfl⟩ := isVectorNumber_iff.mp hdigits
      · exact .inl ⟨.vector hmark hn, hknown⟩
      · exact .inr ⟨mark, hmark, n, hn, rfl⟩
  · rintro (⟨hname, hknown⟩ | ⟨mark, hmark, n, hn, rfl⟩)
    · rw [isRegisterName_iff_parts]
      cases hname with
      | word hsize hword =>
        exact .inl (mem_plainRegisters_iff.mpr (.inl ⟨_, hsize, _, hword, rfl⟩))
      | byte hlisted =>
        have hletter := (List.mem_append.mp hlisted).resolve_right hknown
        exact .inl (mem_plainRegisters_iff.mpr (.inr (.inl hletter)))
      | numbered hlow hhigh hsize =>
        exact .inr (.inl ⟨_, rfl, isNumberedRegister_iff.mpr ⟨_, hlow, hhigh, _, hsize, rfl⟩⟩)
      | segment hlisted =>
        exact .inl (mem_plainRegisters_iff.mpr (.inr (.inr (.inl hlisted))))
      | pointer hlisted =>
        exact .inl (mem_plainRegisters_iff.mpr (.inr (.inr (.inr hlisted))))
      | vector hmark hn =>
        exact .inr (.inr ⟨_, hmark, _, rfl, isVectorNumber_iff.mpr (.inl ⟨_, hn, rfl⟩)⟩)
    · refine isRegisterName_iff_parts.mpr (.inr (.inr ⟨mark, hmark, _, rfl, ?_⟩))
      exact isVectorNumber_iff.mpr (.inr ⟨n, hn, rfl⟩)

/-- The low byte of a word is not known, and a vector is known by a number that begins with zero. -/
theorem registerName_sil_xmm07 :
    RegisterName (ascii "sil") ∧ isRegisterName (ascii "sil") = false ∧
      ¬ RegisterName (ascii "xmm07") ∧ isRegisterName (ascii "xmm07") = true := by
  have hpadded : IsPaddedVector (ascii "xmm07") := ⟨ascii "xmm", by decide, 7, by decide, rfl⟩
  exact ⟨.byte (by decide), by decide, not_registerName_of_padded hpadded, by decide⟩

end CodePane.Vocabulary

import CodePane.Proofs.Listing.Stages

/-!
# The operands of an instruction

Behind an instruction the lexer goes on by different steps: over a register's name, over a number,
over a single byte. No step passes over a percent sign or over the hash sign that begins the
comment. So the lexer stands at each percent sign before the comment, and the registers of a line
can be told from its bytes.

1. `isSign`, `OperandAt.passes`: the signs that no operand holds behind its first byte.
2. `exists_of_mem_operands`, `mem_operands_of_sign`: where the lexer stands among the operands.
3. `IsRegister`, `token_of_operand`, `mem_operands_register_iff`: what it finds there.
4. `exists_operands_of_instruction`, `operands_tagged`: lines with an instruction.
-/

namespace CodePane.Listing

open Text

variable {line rest text : Text} {b : UInt8} {i p pos q : Nat} {t u v : Token} {c : TokenClass}

/-! ## Steps -/

/-- A sign that begins a comment or a register. -/
def isSign (b : UInt8) : Bool := b == '#'.toUInt8 || b == '%'.toUInt8

/-- No byte of the text is such a sign. -/
def Unsigned (text : Text) : Prop := ∀ b ∈ text, isSign b = false

theorem isSign_of_holds {p : UInt8 → Bool} (hp : p '#'.toUInt8 = false ∧ p '%'.toUInt8 = false)
    (hb : p b = true) : isSign b = false := by
  cases hsign : isSign b with
  | false => rfl
  | true =>
    rcases Bool.or_eq_true_iff.mp hsign with h | h
    · rw [beq_iff_eq.mp h, hp.1] at hb
      cases hb
    · rw [beq_iff_eq.mp h, hp.2] at hb
      cases hb

theorem unsigned_take_countWhile {p : UInt8 → Bool}
    (hp : p '#'.toUInt8 = false ∧ p '%'.toUInt8 = false) (text : Text) :
    Unsigned (text.take (countWhile p text)) := by
  intro b hb
  rw [take_countWhile] at hb
  exact isSign_of_holds hp (List.mem_takeWhile_imp hb)

theorem exists_of_startsHex (h : startsHex text = true) :
    ∃ x tail, text = '0'.toUInt8 :: x :: tail ∧ (x = 'x'.toUInt8 ∨ x = 'X'.toUInt8) := by
  rcases Bool.or_eq_true_iff.mp h with h | h
  · obtain ⟨tail, rfl⟩ := List.isPrefixOf_iff_prefix.mp h
    exact ⟨_, tail, rfl, .inl rfl⟩
  · obtain ⟨tail, rfl⟩ := List.isPrefixOf_iff_prefix.mp h
    exact ⟨_, tail, rfl, .inr rfl⟩

theorem unsigned_take_hexLength (h : startsHex text = true) :
    Unsigned (text.take (hexLength text)) := by
  obtain ⟨x, tail, rfl, hx⟩ := exists_of_startsHex h
  have hdigits := unsigned_take_countWhile (p := Byte.isHexDigit) (by decide) tail
  rw [hexLength, Nat.add_comm]
  intro b hb
  rcases List.mem_cons.mp hb with rfl | hb
  · decide
  rcases List.mem_cons.mp hb with rfl | hb
  · rcases hx with rfl | rfl
    · decide
    · decide
  · exact hdigits b hb

/-- What a number begins with. -/
def numberMarks : List Text := [ascii "$", ascii "0x", ascii "0X"]

theorem exists_mark_of_startsHex (h : startsHex text = true) :
    ∃ mark ∈ numberMarks, mark <+: text ∧ mark.length = 2 := by
  rcases Bool.or_eq_true_iff.mp h with h | h
  · exact ⟨ascii "0x", by decide, List.isPrefixOf_iff_prefix.mp h, rfl⟩
  · exact ⟨ascii "0X", by decide, List.isPrefixOf_iff_prefix.mp h, rfl⟩

/-- What begins with `b` among the operands of a line. -/
inductive OperandAt (b : UInt8) (rest : Text) : Lexeme → Prop
  | comment (hash : b = '#'.toUInt8) :
      OperandAt b rest (.single (1 + rest.length) .comment .italicOnly)
  | register (percent : b = '%'.toUInt8)
      (listed : Vocabulary.isRegisterName (rest.takeWhile isRegisterByte) = true) :
      OperandAt b rest (.single (1 + countWhile isRegisterByte rest) .register .plain)
  | unlisted (percent : b = '%'.toUInt8)
      (unlisted : ¬ Vocabulary.isRegisterName (rest.takeWhile isRegisterByte) = true) :
      OperandAt b rest (.skip (1 + countWhile isRegisterByte rest))
  | number {mark : Text} {n : Nat} (marked : mark ∈ numberMarks) (begins : mark <+: b :: rest)
      (holds : mark.length ≤ 1 + n) (unsigned : Unsigned (b :: rest.take n)) :
      OperandAt b rest (.single (1 + n) .number .plain)
  | other (plain : isSign b = false) : OperandAt b rest (.skip 1)

/-- A dollar sign with the digits behind it. -/
theorem operandAt_dollar (hb : b = '$'.toUInt8) {n : Nat} (h : Unsigned (rest.take n)) :
    OperandAt b rest (if 0 < n then .single (1 + n) .number .plain else .skip 1) := by
  subst hb
  split
  · have hmark : ascii "$" ∈ numberMarks := by decide
    refine .number hmark (List.prefix_append _ rest) (Nat.le_add_right 1 n) ?_
    exact List.forall_mem_cons.mpr ⟨by decide, h⟩
  · exact .other (by decide)

theorem operandAt_operand (b : UInt8) (rest : Text) : OperandAt b rest (operand b rest) := by
  unfold operand
  simp only
  by_cases hhash : b = '#'.toUInt8
  · rw [if_pos hhash]
    exact .comment hhash
  rw [if_neg hhash]
  by_cases hpercent : b = '%'.toUInt8
  · rw [if_pos hpercent]
    split
    · next hlisted => exact .register hpercent hlisted
    · next hlisted => exact .unlisted hpercent hlisted
  rw [if_neg hpercent]
  by_cases hb : b = '$'.toUInt8
  · rw [if_pos hb]
    split
    · next hhex => exact operandAt_dollar hb (unsigned_take_hexLength hhex)
    · exact operandAt_dollar hb (unsigned_take_countWhile (by decide) rest)
  rw [if_neg hb]
  split
  · next hhex =>
    obtain ⟨mark, hmark, hbegins, htwo⟩ := exists_mark_of_startsHex hhex
    have hlength : hexLength (b :: rest) = 1 + (1 + countWhile Byte.isHexDigit rest.tail) := by
      cases rest <;> simp [hexLength] <;> omega
    have hunsigned := unsigned_take_hexLength hhex
    rw [hlength, Nat.add_comm 1, List.take_succ_cons] at hunsigned
    rw [hlength]
    exact .number hmark hbegins (by omega) hunsigned
  · refine .other (Bool.or_eq_false_iff.mpr ⟨?_, ?_⟩)
    · exact beq_false_of_ne hhash
    · exact beq_false_of_ne hpercent

/-- **No operand holds a sign behind its first byte,** unless it is the comment. -/
theorem OperandAt.passes {l : Lexeme} (h : OperandAt b rest l) (hb : b ≠ '#'.toUInt8) :
    Unsigned (rest.take (l.length - 1)) := by
  have hword : Unsigned (rest.take (countWhile isRegisterByte rest)) :=
    unsigned_take_countWhile (by decide) rest
  cases h with
  | comment hash => exact absurd hash hb
  | register => rwa [Lexeme.single, Nat.add_sub_cancel_left]
  | unlisted => rwa [Lexeme.skip, Nat.add_sub_cancel_left]
  | number _ _ _ unsigned =>
    rw [Lexeme.single, Nat.add_sub_cancel_left]
    exact (List.forall_mem_cons.mp unsigned).2
  | other => exact List.forall_mem_nil _

/-! ## Where the lexer stands -/

/-- How many bytes stand before the first hash sign. -/
def untilHash (text : Text) : Nat := countWhile (· != '#'.toUInt8) text

theorem untilHash_hash (rest : Text) : untilHash ('#'.toUInt8 :: rest) = 0 :=
  countWhile_cons_of_neg (by decide) rest

theorem eq_hash_of_drop_untilHash (h : text.drop (untilHash text) = b :: rest) :
    b = '#'.toUInt8 := by
  simpa using countWhile_stops (getElem?_of_drop_cons h)

theorem exists_drop_untilHash (h : '#'.toUInt8 ∈ text) :
    ∃ rest, text.drop (untilHash text) = '#'.toUInt8 :: rest := by
  have hlt : untilHash text < text.length := takeWhile_length_lt_of_mem h (by decide)
  have hdrop := List.drop_eq_getElem_cons hlt
  rw [eq_hash_of_drop_untilHash hdrop] at hdrop
  exact ⟨_, hdrop⟩

theorem drop_operand (b : UInt8) (rest : Text) :
    (b :: rest).drop (operand b rest).length = rest.drop ((operand b rest).length - 1) := by
  have hhere : (b :: rest).drop 0 = b :: rest := rfl
  have hbehind := drop_behind hhere (operand_fits b rest).pos
  rwa [Nat.zero_add] at hbehind

theorem untilHash_operand (hb : b ≠ '#'.toUInt8) : untilHash (b :: rest) =
    (operand b rest).length + untilHash (rest.drop ((operand b rest).length - 1)) := by
  have hfits := operand_fits b rest
  have hpasses := (operandAt_operand b rest).passes hb
  have htake : (b :: rest).take (operand b rest).length =
      b :: rest.take ((operand b rest).length - 1) := by
    rw [← List.take_succ_cons, Nat.sub_add_cancel hfits.pos]
  have hbefore : ∀ c ∈ (b :: rest).take (operand b rest).length, (c != '#'.toUInt8) = true := by
    rw [htake]
    refine List.forall_mem_cons.mpr ⟨bne_iff_ne.mpr hb, fun c hc => bne_iff_ne.mpr ?_⟩
    rintro rfl
    exact absurd (hpasses _ hc) (by decide)
  rw [← drop_operand, untilHash, untilHash, ← countWhile_add hfits.le hbefore]

/-- The tokens behind an instruction are those of operands that begin before the first hash sign or
with it. -/
theorem exists_of_mem_operands (hu : u ∈ operands pos text) : ∃ i b rest v,
    text.drop i = b :: rest ∧ i ≤ untilHash text ∧ v ∈ (operand b rest).tokens ∧
      u = v.shift (pos + i) := by
  fun_induction operands pos text with
  | case1 => exact absurd hu List.not_mem_nil
  | case2 pos b rest l ih =>
    rcases List.mem_append.mp hu with hu | hu
    · obtain ⟨v, hv, rfl⟩ := List.mem_map.mp hu
      exact ⟨0, b, rest, v, rfl, Nat.zero_le _, hv, rfl⟩
    · obtain ⟨i, c, behind, v, hdrop, hi, hv, rfl⟩ := ih hu
      have hb : b ≠ '#'.toUInt8 := by
        rintro rfl
        have hnone : rest.drop (l.length - 1) = [] :=
          List.drop_eq_nil_of_le (Nat.le_of_eq (Nat.add_sub_cancel_left 1 rest.length).symm)
        rw [hnone, List.drop_nil] at hdrop
        cases hdrop
      refine ⟨l.length + i, c, behind, v, ?_, ?_, hv, by rw [Nat.add_assoc]⟩
      · rw [← List.drop_drop, drop_operand, hdrop]
      · rw [untilHash_operand hb]
        exact Nat.add_le_add_left hi _

/-- **The lexer stands at each sign up to the first hash sign.** -/
theorem mem_operands_of_sign (hb : isSign b = true) (hv : v ∈ (operand b rest).tokens) :
    ∀ i, text.drop i = b :: rest → i ≤ untilHash text → v.shift (pos + i) ∈ operands pos text := by
  fun_induction operands pos text with
  | case1 =>
    intro i hdrop
    rw [List.drop_nil] at hdrop
    cases hdrop
  | case2 pos c behind l ih =>
    intro i hdrop hi
    cases i with
    | zero =>
      obtain ⟨rfl, rfl⟩ := List.cons.inj hdrop
      exact List.mem_append_left _ (List.mem_map_of_mem hv)
    | succ i =>
      have hc : c ≠ '#'.toUInt8 := by
        rintro rfl
        rw [untilHash_hash] at hi
        omega
      have hpasses := (operandAt_operand c behind).passes hc
      have hbehind : l.length ≤ i + 1 := by
        apply Nat.le_of_not_lt
        intro hlt
        have hmem : b ∈ behind.take (l.length - 1) := by
          rw [List.drop_succ_cons] at hdrop
          refine List.mem_of_getElem? (i := i) ?_
          rw [List.getElem?_take_of_lt (by omega), getElem?_of_drop_cons hdrop]
        rw [hpasses b hmem] at hb
        cases hb
      obtain ⟨j, hj⟩ := Nat.exists_eq_add_of_le hbehind
      rw [hj, ← List.drop_drop, drop_operand] at hdrop
      rw [hj, untilHash_operand hc] at hi
      rw [hj, ← Nat.add_assoc]
      exact List.mem_append_right _ (ih j hdrop (Nat.le_of_add_le_add_left hi))

/-! ## What the lexer finds -/

/-- The offset of the first hash sign at `pos` or behind it, or the end of the line if there is
none. -/
def commentFrom (line : Text) (pos : Nat) : Nat := pos + untilHash (line.drop pos)

/-- The span `[p, q)` of a line is a register: a percent sign, and behind it a register's name that
goes on up to a byte of no name. -/
structure IsRegister (text : Text) (p q : Nat) : Prop where
  inside : p < q ∧ q ≤ text.length
  percent : text[p]? = some '%'.toUInt8
  named : ∀ i, p < i → i < q → ∃ b, text[i]? = some b ∧ Byte.continuesName b = true
  maximal : ∀ b, text[q]? = some b → Byte.continuesName b = false
  listed : Vocabulary.isRegisterName (text.between (p + 1) q) = true

theorem isRegister_iff (hdrop : text.drop p = '%'.toUInt8 :: rest) : IsRegister text p q ↔
    q = p + 1 + countWhile isRegisterByte rest ∧
      Vocabulary.isRegisterName (rest.takeWhile isRegisterByte) = true := by
  have hlength := length_of_drop hdrop
  have hrest : text.drop (p + 1) = rest := drop_behind hdrop Nat.one_pos
  have hget (i : Nat) : rest[i]? = text[p + 1 + i]? := by rw [← hrest, List.getElem?_drop]
  have hword (n : Nat) : text.between (p + 1) (p + 1 + n) = rest.take n := by
    rw [between_add, hrest]
  constructor
  · rintro ⟨⟨hpq, hq⟩, -, hnamed, hmaximal, hlisted⟩
    obtain ⟨n, rfl⟩ := Nat.exists_eq_add_of_le (Nat.succ_le_of_lt hpq)
    have hrun : countWhile isRegisterByte rest = n := by
      refine countWhile_eq_iff.mpr ⟨by omega, fun i hi => ?_, fun b hb => ?_⟩
      · rw [hget]
        exact hnamed _ (by omega) (by omega)
      · rw [hget] at hb
        exact hmaximal b hb
    rw [hword] at hlisted
    rw [← take_countWhile, hrun]
    exact ⟨rfl, hlisted⟩
  · rintro ⟨rfl, hlisted⟩
    have hrun : countWhile isRegisterByte rest = countWhile isRegisterByte rest := rfl
    obtain ⟨hle, hnamed, hmaximal⟩ := countWhile_eq_iff.mp hrun
    refine ⟨⟨by omega, by omega⟩, getElem?_of_drop_cons hdrop, fun i hi hlt => ?_,
      fun b hb => ?_, ?_⟩
    · obtain ⟨j, rfl⟩ := Nat.exists_eq_add_of_le (Nat.succ_le_of_lt hi)
      rw [← hget]
      exact hnamed j (by omega)
    · exact hmaximal b ((hget _).trans hb)
    · rw [hword, take_countWhile]
      exact hlisted

theorem token_of_operand (hv : v ∈ (operand b rest).tokens) :
    (b = '#'.toUInt8 ∧ v = ⟨0, 1 + rest.length, .comment, .italicOnly⟩) ∨
      (b = '%'.toUInt8 ∧ Vocabulary.isRegisterName (rest.takeWhile isRegisterByte) = true ∧
        v = ⟨0, 1 + countWhile isRegisterByte rest, .register, .plain⟩) ∨
      b ≠ '#'.toUInt8 ∧ v = ⟨0, (operand b rest).length, .number, .plain⟩ ∧
        ∃ mark ∈ numberMarks, mark <+: b :: rest ∧ mark.length ≤ v.length := by
  have hkind := operandAt_operand b rest
  generalize operand b rest = l at hkind hv
  cases hkind with
  | comment hash => exact .inl ⟨hash, List.mem_singleton.mp hv⟩
  | register percent listed => exact .inr (.inl ⟨percent, listed, List.mem_singleton.mp hv⟩)
  | unlisted => exact absurd hv List.not_mem_nil
  | @number mark n marked begins holds unsigned =>
    obtain rfl := List.mem_singleton.mp hv
    refine .inr (.inr ⟨?_, rfl, mark, marked, begins, holds⟩)
    rintro rfl
    exact absurd (unsigned _ List.mem_cons_self) (by decide)
  | other => exact absurd hv List.not_mem_nil

theorem mem_operands_comment_iff : (∃ u ∈ operands pos (line.drop pos),
      u.tokenClass = .comment ∧ u.start = p ∧ u.stop = q) ↔
    '#'.toUInt8 ∈ line.drop pos ∧ p = commentFrom line pos ∧ q = line.length := by
  constructor
  · rintro ⟨u, hu, hclass, rfl, rfl⟩
    obtain ⟨i, b, rest, v, hdrop, hi, hv, rfl⟩ := exists_of_mem_operands hu
    obtain ⟨rfl, rfl⟩ | ⟨-, -, rfl⟩ | ⟨-, rfl, -⟩ := token_of_operand hv
    · have hfirst : untilHash (line.drop pos) ≤ i :=
        countWhile_le_of_getElem? (getElem?_of_drop_cons hdrop) (by decide)
      have hmem := List.mem_of_getElem? (getElem?_of_drop_cons hdrop)
      rw [List.drop_drop] at hdrop
      have hlength := length_of_drop hdrop
      refine ⟨hmem, ?_, ?_⟩
      · rw [commentFrom, Nat.le_antisymm hfirst hi]
        rfl
      · simp only [Token.shift, Token.stop]
        omega
    · cases hclass
    · cases hclass
  · rintro ⟨hmem, rfl, rfl⟩
    obtain ⟨rest, hdrop⟩ := exists_drop_untilHash hmem
    refine ⟨_, mem_operands_of_sign (by decide) (List.mem_singleton.mpr rfl) _ hdrop
      (Nat.le_refl _), rfl, rfl, ?_⟩
    rw [List.drop_drop] at hdrop
    have hlength := length_of_drop hdrop
    simp only [Token.shift, Token.stop]
    omega

theorem mem_operands_register_iff : (∃ u ∈ operands pos (line.drop pos),
      u.tokenClass = .register ∧ u.start = p ∧ u.stop = q) ↔
    pos ≤ p ∧ p < commentFrom line pos ∧ IsRegister line p q := by
  constructor
  · rintro ⟨u, hu, hclass, rfl, rfl⟩
    obtain ⟨i, b, rest, v, hdrop, hi, hv, rfl⟩ := exists_of_mem_operands hu
    obtain ⟨-, rfl⟩ | ⟨rfl, hlisted, rfl⟩ | ⟨-, rfl, -⟩ := token_of_operand hv
    · cases hclass
    · have hbefore : i < untilHash (line.drop pos) := by
        refine Nat.lt_of_le_of_ne hi ?_
        rintro rfl
        exact absurd (eq_hash_of_drop_untilHash hdrop) (by decide)
      rw [List.drop_drop] at hdrop
      refine ⟨Nat.le_add_right pos i, Nat.add_lt_add_left hbefore pos, ?_⟩
      refine (isRegister_iff hdrop).mpr ⟨?_, hlisted⟩
      simp only [Token.shift, Token.stop]
      omega
    · cases hclass
  · rintro ⟨hp, hlt, hregister⟩
    obtain ⟨i, rfl⟩ := Nat.exists_eq_add_of_le hp
    obtain ⟨hinside, hget⟩ := List.getElem?_eq_some_iff.mp hregister.percent
    have hdrop := List.drop_eq_getElem_cons hinside
    rw [hget] at hdrop
    obtain ⟨rfl, hlisted⟩ := (isRegister_iff hdrop).mp hregister
    have hv : (⟨0, 1 + countWhile isRegisterByte (line.drop (pos + i + 1)), .register, .plain⟩ :
        Token) ∈ (operand '%'.toUInt8 (line.drop (pos + i + 1))).tokens := by
      rw [operand, if_neg (by decide), if_pos rfl, if_pos hlisted]
      exact List.mem_singleton.mpr rfl
    rw [← List.drop_drop] at hdrop
    refine ⟨_, mem_operands_of_sign (by decide) hv i hdrop ?_, rfl, rfl, ?_⟩
    · exact Nat.le_of_lt (Nat.lt_of_add_lt_add_left hlt)
    · simp only [Token.shift, Token.stop]
      omega

/-- A number stands before the comment and begins with its mark. -/
theorem mark_of_mem_operands_number (hu : u ∈ operands pos (line.drop pos))
    (hclass : u.tokenClass = .number) : pos ≤ u.start ∧ u.stop ≤ commentFrom line pos ∧
      ∃ mark ∈ numberMarks, mark <+: u.bytes line := by
  obtain ⟨i, b, rest, v, hdrop, hi, hv, rfl⟩ := exists_of_mem_operands hu
  obtain ⟨-, rfl⟩ | ⟨-, -, rfl⟩ | ⟨hb, rfl, mark, hmark, hbegins, hholds⟩ := token_of_operand hv
  · cases hclass
  · cases hclass
  · refine ⟨Nat.le_add_right pos i, ?_, mark, hmark, ?_⟩
    · have hfirst := countWhile_drop hi
      have hbehind : untilHash (b :: rest) = _ := untilHash_operand hb
      rw [hdrop] at hfirst
      simp only [Token.shift, Token.stop, commentFrom, untilHash] at hbehind ⊢
      omega
    · rw [List.drop_drop] at hdrop
      have hbytes : Token.bytes line (Token.shift (pos + i)
          ⟨0, (operand b rest).length, .number, .plain⟩) =
            (b :: rest).take (operand b rest).length := by
        rw [← hdrop]
        exact between_add line (pos + i) _
      rw [hbytes]
      exact List.prefix_take_iff.mpr ⟨hbegins, hholds⟩

/-! ## Lines -/

theorem tokenize_unbroken (hline : Unbroken line) : tokenize line = Listing.line line := by
  rw [tokenize, scan_last hline, Token.map_shift_zero]

/-- What comes before the operands. -/
def beforeOperands : List TokenClass := headStages ++ [.instruction]

theorem mem_tag {start stop : Nat} {s : Style} (ht : t ∈ tag start stop c s) :
    t.tokenClass = c ∧ t.stop = stop := by
  unfold tag at ht
  split at ht
  · next hlt =>
    obtain rfl := List.mem_singleton.mp ht
    refine ⟨rfl, ?_⟩
    simp only [Token.ofSpan, Token.stop]
    omega
  · cases ht

theorem tokenClass_of_mem_operands (ht : t ∈ operands pos text) :
    t.tokenClass ∉ beforeOperands := by
  obtain ⟨registers, comment, hstages, hregisters, hcomment⟩ := classes_operands pos text
  have hstage := tokenClass_mem_classes ht
  rw [hstages] at hstage
  rcases List.mem_append.mp hstage with hstage | hstage
  · rcases hregisters _ hstage with heq | heq
    · rw [heq]
      decide
    · rw [heq]
      decide
  · rw [List.mem_singleton.mp (hcomment.mem hstage)]
    decide

theorem exists_operands_of_code (hrest : line.drop pos = rest) (ht : t ∈ code pos rest)
    (hclass : t.tokenClass = .instruction) : ∃ before,
      code pos rest = before ++ operands t.stop (line.drop t.stop) ∧
      ∀ u ∈ before, u.tokenClass ∈ beforeOperands := by
  unfold code at ht ⊢
  simp only at ht ⊢
  rcases List.mem_append.mp ht with htag | hoperand
  · have hbehind (n : Nat) : line.drop (pos + n) = rest.drop n := by rw [← hrest, List.drop_drop]
    rw [(mem_tag htag).2, hbehind]
    refine ⟨_, rfl, fun u hu => ?_⟩
    rw [(mem_tag hu).1]
    decide
  · have hbefore := tokenClass_of_mem_operands hoperand
    rw [hclass] at hbefore
    exact absurd (by decide) hbefore

/-- Behind its instruction a line has the tokens of the operands, and before it none of their
classes. -/
theorem exists_operands_of_instruction (ht : t ∈ Listing.line line)
    (hclass : t.tokenClass = .instruction) : ∃ before,
      Listing.line line = before ++ operands t.stop (line.drop t.stop) ∧
      ∀ u ∈ before, u.tokenClass ∈ beforeOperands := by
  have hhead : ∀ u ∈ (head line).tokens, u.tokenClass ∈ headStages := fun u hu =>
    (classes_head line).mem (tokenClass_mem_classes hu)
  have hnothead : t ∉ (head line).tokens := by
    intro hmem
    have hstage := hhead t hmem
    rw [hclass] at hstage
    exact absurd hstage (by decide)
  unfold Listing.line at ht ⊢
  simp only at ht ⊢
  have hcode := (List.mem_append.mp ht).resolve_left hnothead
  split at hcode
  · cases hcode
  · next b rest hdrop =>
    have hrest := drop_behind hdrop Nat.one_pos
    obtain ⟨before, heq, hbefore⟩ := exists_operands_of_code hrest hcode hclass
    refine ⟨(head line).tokens ++ before, ?_, fun u hu => ?_⟩
    · rw [List.append_assoc, ← heq]
      rfl
    · rcases List.mem_append.mp hu with hu | hu
      · exact List.mem_append_left _ (hhead u hu)
      · exact hbefore u hu

/-- **The operands of an instruction.** On a line with an instruction, the comment goes from the
first hash sign behind the instruction to the end of the line, and without that sign there is none.
Before it the registers are the spans that spell one, and no others. Each number lies between the
instruction and the comment and begins with a dollar sign or a mark of hexadecimal digits. -/
theorem operands_tagged (hline : Unbroken line) (ht : t ∈ tokenize line)
    (hclass : t.tokenClass = .instruction) :
    (∀ p q, (∃ u ∈ tokenize line, u.tokenClass = .comment ∧ u.start = p ∧ u.stop = q) ↔
      '#'.toUInt8 ∈ line.drop t.stop ∧ p = commentFrom line t.stop ∧ q = line.length) ∧
    (∀ p q, (∃ u ∈ tokenize line, u.tokenClass = .register ∧ u.start = p ∧ u.stop = q) ↔
      t.stop ≤ p ∧ p < commentFrom line t.stop ∧ IsRegister line p q) ∧
    ∀ u ∈ tokenize line, u.tokenClass = .number →
      t.stop ≤ u.start ∧ u.stop ≤ commentFrom line t.stop ∧
        ∃ mark ∈ numberMarks, mark <+: u.bytes line := by
  rw [tokenize_unbroken hline] at ht ⊢
  obtain ⟨before, heq, hbefore⟩ := exists_operands_of_instruction ht hclass
  have hmem {u : Token} (hu : u.tokenClass ∉ beforeOperands) :
      u ∈ Listing.line line ↔ u ∈ operands t.stop (line.drop t.stop) := by
    rw [heq, List.mem_append]
    exact or_iff_right fun h => hu (hbefore u h)
  have hspan {c : TokenClass} (hc : c ∉ beforeOperands) (p q : Nat) :
      (∃ u ∈ Listing.line line, u.tokenClass = c ∧ u.start = p ∧ u.stop = q) ↔
        ∃ u ∈ operands t.stop (line.drop t.stop), u.tokenClass = c ∧ u.start = p ∧ u.stop = q := by
    refine exists_congr fun u => ⟨?_, ?_⟩
    · rintro ⟨hu, hprops⟩
      exact ⟨(hmem (hprops.1 ▸ hc)).mp hu, hprops⟩
    · rintro ⟨hu, hprops⟩
      exact ⟨(hmem (hprops.1 ▸ hc)).mpr hu, hprops⟩
  refine ⟨fun p q => ?_, fun p q => ?_, fun u hu hnumber => ?_⟩
  · rw [hspan (by decide)]
    exact mem_operands_comment_iff
  · rw [hspan (by decide)]
    exact mem_operands_register_iff
  · have hoperand := (hmem (by rw [hnumber]; decide)).mp hu
    exact mark_of_mem_operands_number hoperand hnumber

/-- Percent signs in a row, behind a dollar sign and before a name that no register has, a mark
without digits, and a percent sign in the comment. -/
theorem operands_tagged_cut :
    let line := ascii "0x1: mov %%rax,$%rbx,%raxx,0x#%rcx"
    let t : Token := ⟨5, 3, .instruction, .boldOnly⟩
    Unbroken line ∧ t ∈ tokenize line ∧
      commentFrom line t.stop = 29 ∧
      (∀ p q, (∃ u ∈ tokenize line, u.tokenClass = .register ∧ u.start = p ∧ u.stop = q) ↔
        t.stop ≤ p ∧ p < commentFrom line t.stop ∧ IsRegister line p q) ∧
      (tokenize line).map (fun u => (u.start, u.stop, u.tokenClass)) =
        [(0, 3, .address), (5, 8, .instruction), (10, 14, .register), (16, 20, .register),
          (27, 29, .number), (29, 34, .comment)] := by
  intro line t
  have hline : Unbroken line := by decide
  have ht : t ∈ tokenize line := by decide +kernel
  have htagged := operands_tagged hline ht rfl
  exact ⟨hline, ht, by decide +kernel, htagged.2.1, by decide +kernel⟩

end CodePane.Listing

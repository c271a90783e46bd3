import CodePane.Proofs.Source.Extent
import CodePane.Proofs.Text.Edge

/-!
# Where source lexemes end

A lexeme of the source lexer ends behind a mark (a quote, a slash, a bracket, an operator), or where
its line or the text ends. This holds also where a backslash takes part of a character with it,
since the literal then goes on to its quote or to the end of its line. Only a name or a number may
end elsewhere, behind a byte of its own.

1. `Closed`: ends behind a mark or with the line.
2. `closed_quotedLength`, `closed_rawLength`, `literal?_eq_some`: literals.
3. `closed_operatorLength`: operators.
4. `madeOf_numberLength`, `numberLength_stops`: numbers.
5. `cons_takeWhile_continuesName`, `endsName_of_stray`: names, and what is neither.
6. `closed_commentToLineEnd`, `closed_commentToClose`: comments.
7. `LineEndsAt`, `closed_pathLength`: what ends with its line at the latest.
-/

namespace CodePane.Source

open Text

variable {b : UInt8} {rest text : Text} {n : Nat}

/-- An offset behind a mark, or where the line or the text ends. -/
abbrev Closed (text : Text) (n : Nat) : Prop := Seam Byte.endsLine Byte.isMark text n

theorem Closed.edge (h : Closed text n) : Edge Byte.endsName text n :=
  Seam.edge h (fun _ => Byte.endsName_of_endsLine) fun _ => Byte.endsName_of_isMark

theorem Closed.ink (h : Closed text n) : Seam Byte.endsLine Byte.isInk text n :=
  Seam.imp h (fun _ => id) fun _ => Byte.isInk_of_isMark

/-! ## Literals -/

theorem closed_quotedLength {quote : UInt8} (hquote : Byte.isMark quote = true) (text : Text) :
    Closed text (quotedLength quote text) := by
  fun_induction quotedLength quote text with
  | case1 => exact Seam.length _ _ []
  | case2 => exact Seam.length _ _ [Byte.backslash]
  | case3 => exact Seam.length _ _ [quote]
  | case4 b _ _ hbreak => exact Seam.head hbreak
  | case5 b => exact Seam.length _ _ [b]
  | case6 next rest ih =>
    rw [Nat.add_comm]
    exact (ih.cons next).cons Byte.backslash
  | case7 next rest => exact Seam.behind rfl hquote
  | case8 b next rest _ _ hbreak => exact Seam.head hbreak
  | case9 b next rest _ _ _ ih =>
    rw [Nat.add_comm]
    exact ih.cons b

/-- A raw string ends behind the quote of its close, or at the end of the text. -/
theorem closed_rawLength (text : Text) : Closed text (rawLength text) := by
  unfold rawLength
  by_cases hraw : opensRaw text = true
  · rw [if_pos hraw]
    generalize text.takeWhile (· != '('.toUInt8) = delimiter
    simp only
    cases hclose : offsetOf (')'.toUInt8 :: delimiter ++ [Byte.quote])
        (text.drop (delimiter.length + 1)) with
    | none => exact Seam.length _ _ text
    | some k =>
      obtain ⟨tail, htail⟩ := prefix_of_offsetOf hclose
      have hquote : (text.drop (delimiter.length + 1 + k))[delimiter.length + 1]? =
          some Byte.quote := by
        rw [← List.drop_drop, ← htail]
        simp
      rw [List.getElem?_drop] at hquote
      exact Seam.behind hquote (by decide)
  · rw [if_neg hraw]
    exact closed_quotedLength (by decide) text

theorem encodingLength_eq_zero_or (text : Text) :
    encodingLength text = 0 ∨ ∃ b rest, text = b :: rest ∧ Byte.isAscii b = true := by
  unfold encodingLength
  by_cases hu8 : (ascii "u8").isPrefixOf text = true
  · obtain ⟨tail, rfl⟩ := List.isPrefixOf_iff_prefix.mp hu8
    exact .inr ⟨_, _, rfl, by decide⟩
  · rw [if_neg hu8]
    cases text with
    | nil => exact .inl rfl
    | cons b rest =>
      by_cases hmark : (ascii "uUL").contains b = true
      · exact .inr ⟨b, rest, rfl, Byte.holds_of_contains (by decide) hmark⟩
      · exact .inl (if_neg hmark)

theorem literal?_eq_some {l : Lexeme} (h : literal? text = some l) :
    ∃ n c, l = .single n c .plain ∧ (c = .string ∨ c = .char) ∧
      (∃ b rest, text = b :: rest ∧ Byte.isAscii b = true) ∧ Closed text n := by
  unfold literal? at h
  simp only at h
  split at h
  · cases h
  · next b rest hdrop =>
    have hmark : encodingLength text + 1 ≤ text.length := by
      have := length_of_drop hdrop
      omega
    -- the literal begins with its mark, or has none and begins with `b`
    have hhead (hb : Byte.isAscii b = true) :
        ∃ b rest, text = b :: rest ∧ Byte.isAscii b = true := by
      rcases encodingLength_eq_zero_or text with hzero | hletter
      · rw [hzero, List.drop_zero] at hdrop
        exact ⟨b, rest, hdrop, hb⟩
      · exact hletter
    have hbehind {n : Nat} (hn : Closed rest n) : Closed text (encodingLength text + 1 + n) := by
      have hcons := hn.cons b
      rw [← hdrop] at hcons
      have hclosed := hcons.ofDrop (by omega)
      rwa [Nat.add_comm n 1, ← Nat.add_assoc] at hclosed
    split_ifs at h with hquote hapostrophe hraw
    · obtain rfl := Option.some.inj h
      exact ⟨_, _, rfl, .inl rfl, hhead (by rw [hquote]; decide),
        hbehind (closed_quotedLength (by decide) rest)⟩
    · obtain rfl := Option.some.inj h
      exact ⟨_, _, rfl, .inr rfl, hhead (by rw [hapostrophe]; decide),
        hbehind (closed_quotedLength (by decide) rest)⟩
    · obtain rfl := Option.some.inj h
      obtain ⟨tail, rfl⟩ := List.head?_eq_some_iff.mp hraw.2
      have hclosed := hbehind ((closed_rawLength tail).cons Byte.quote)
      refine ⟨_, _, rfl, .inl rfl, hhead (by rw [hraw.1]; decide), ?_⟩
      have hlength : encodingLength text + 1 + (rawLength tail + 1) =
          encodingLength text + 2 + rawLength tail := by omega
      rw [hlength] at hclosed
      exact hclosed

/-! ## Operators, delimiters and brackets -/

theorem isMark_of_beginsOperator (h : Vocabulary.beginsOperator b = true) :
    Byte.isMark b = true :=
  Byte.holds_of_contains (by decide) h

theorem isMark_of_isDelimiter (h : isDelimiter b = true) : Byte.isMark b = true :=
  Byte.holds_of_contains (by decide) h

theorem isMark_of_isBracket (h : isBracket b = true) : Byte.isMark b = true :=
  Byte.holds_of_contains (by decide) h

theorem longOperators_isMark :
    ∀ op ∈ Vocabulary.longOperators, op ≠ [] ∧ op.all Byte.isMark = true := by decide

theorem closed_operatorLength (h : Vocabulary.beginsOperator b = true) (rest : Text) :
    Closed (b :: rest) (operatorLength (b :: rest)) := by
  unfold operatorLength
  split
  · next op hop =>
    have hbegins : op.isPrefixOf (b :: rest) = true := by simpa using List.find?_some hop
    obtain ⟨hne, hmarks⟩ := longOperators_isMark op (List.mem_of_find?_eq_some hop)
    exact Seam.ofPrefix (List.isPrefixOf_iff_prefix.mp hbegins) hne hmarks
  · exact Seam.behind rfl (isMark_of_beginsOperator h)

/-! ## Numbers -/

/-- A byte that can stand in a number. -/
def isNumeric (b : UInt8) : Bool :=
  Byte.isLetter b || Byte.isDigit b || (ascii "'_.+-").contains b

theorem isAscii_of_isNumeric (h : isNumeric b = true) : Byte.isAscii b = true := by
  rcases Bool.or_eq_true_iff.mp h with h | h
  · rcases Bool.or_eq_true_iff.mp h with h | h
    · exact Byte.isAscii_of_isLetter h
    · exact Byte.isAscii_of_isDigit h
  · exact Byte.holds_of_contains (by decide) h

theorem isNumeric_of_isLetter (h : Byte.isLetter b = true) : isNumeric b = true := by
  rw [isNumeric, h, Bool.true_or, Bool.true_or]

theorem isNumeric_of_isDigit (h : Byte.isDigit b = true) : isNumeric b = true := by
  rw [isNumeric, h, Bool.or_true, Bool.true_or]

theorem isNumeric_of_isOctalDigit (h : Byte.isOctalDigit b = true) : isNumeric b = true := by
  apply isNumeric_of_isDigit
  unfold Byte.isOctalDigit at h
  rw [Bool.and_eq_true, decide_eq_true_eq, decide_eq_true_eq] at h
  rw [Byte.isDigit, Bool.and_eq_true, decide_eq_true_eq, decide_eq_true_eq]
  exact ⟨h.1, UInt8.le_trans h.2 (by decide)⟩

theorem isNumeric_of_isHexDigit (h : Byte.isHexDigit b = true) : isNumeric b = true := by
  rcases Bool.or_eq_true_iff.mp h with h | h
  · rcases Bool.or_eq_true_iff.mp h with h | h
    · exact isNumeric_of_isDigit h
    · apply isNumeric_of_isLetter
      rw [Bool.and_eq_true, decide_eq_true_eq, decide_eq_true_eq] at h
      rw [Byte.isLetter, Bool.or_eq_true, Bool.and_eq_true, decide_eq_true_eq, decide_eq_true_eq]
      exact .inl ⟨h.1, UInt8.le_trans h.2 (by decide)⟩
  · apply isNumeric_of_isLetter
    rw [Bool.and_eq_true, decide_eq_true_eq, decide_eq_true_eq] at h
    rw [Byte.isLetter, Bool.or_eq_true, Bool.and_eq_true, Bool.and_eq_true, decide_eq_true_eq,
      decide_eq_true_eq, decide_eq_true_eq, decide_eq_true_eq]
    exact .inr ⟨h.1, UInt8.le_trans h.2 (by decide)⟩

section Digits

variable {isDigit : UInt8 → Bool} {markers : Text}
  (hdigit : ∀ b, isDigit b = true → isNumeric b = true)
  (hmarkers : markers.all isNumeric = true)

include hdigit in
theorem madeOf_digitsLength : MadeOf isNumeric (digitsLength isDigit) := by
  apply MadeOf.countWhile
  intro b hb
  simp only [Bool.or_eq_true, beq_iff_eq] at hb
  rcases hb with (hb | rfl) | rfl
  · exact hdigit b hb
  · decide
  · decide

include hdigit in
theorem madeOf_fractionLength : MadeOf isNumeric (fractionLength isDigit) := by
  intro text i hi
  cases text with
  | nil => exact absurd hi (Nat.not_lt_zero i)
  | cons b rest =>
    rw [fractionLength] at hi
    split at hi
    · next hb => exact (madeOf_digitsLength hdigit).cons (by rw [hb]; decide) rest hi
    · exact absurd hi (Nat.not_lt_zero i)

include hmarkers in
theorem madeOf_exponentLength : MadeOf isNumeric (exponentLength markers) := by
  have hsign := MadeOf.headLength fun b (hb : (ascii "+-").contains b = true) =>
    Byte.holds_of_contains (p := isNumeric) (by decide) hb
  have hsigned := hsign.andThen (madeOf_digitsLength fun _ => isNumeric_of_isDigit)
  intro text i hi
  cases text with
  | nil => exact absurd hi (Nat.not_lt_zero i)
  | cons b rest =>
    rw [exponentLength] at hi
    split at hi
    · next hb =>
      rw [Nat.add_assoc] at hi
      exact hsigned.cons (Byte.holds_of_contains hmarkers hb) rest hi
    · exact absurd hi (Nat.not_lt_zero i)

include hdigit hmarkers in
theorem madeOf_scaledLength : MadeOf isNumeric (scaledLength isDigit markers) :=
  ((madeOf_digitsLength hdigit).andThen (madeOf_fractionLength hdigit)).andThen
    (madeOf_exponentLength hmarkers)

end Digits

/-- The case split is the one on the mark behind a zero. -/
theorem madeOf_unsuffixedLength : MadeOf isNumeric unsuffixedLength := by
  have hdecimal : MadeOf isNumeric (scaledLength Byte.isDigit (ascii "eE")) :=
    madeOf_scaledLength (fun _ => isNumeric_of_isDigit) (by decide)
  have hhex : MadeOf isNumeric (scaledLength Byte.isHexDigit (ascii "pP")) :=
    madeOf_scaledLength (fun _ => isNumeric_of_isHexDigit) (by decide)
  have hbinary := madeOf_digitsLength fun b (hb : Byte.isBinaryDigit b = true) =>
    Byte.holds_of_eq_or_eq (p := isNumeric) (by decide) (by decide) hb
  have hoctal := madeOf_digitsLength fun _ => isNumeric_of_isOctalDigit
  intro text i hi
  unfold unsuffixedLength at hi
  split at hi
  · next zero mark rest =>
    -- two bytes, of which the first is a zero, and then a length
    have hmarked {f : Text → Nat} (hf : MadeOf isNumeric f) (hzero : zero = '0'.toUInt8)
        (hmark : isNumeric mark = true) (hlt : i < 2 + f rest) :
        ∃ b, (zero :: mark :: rest)[i]? = some b ∧ isNumeric b = true := by
      cases i with
      | zero => exact ⟨zero, rfl, by rw [hzero]; decide⟩
      | succ i => exact hf.cons hmark rest (by omega)
    split_ifs at hi with hzero hmark hmark
    · exact hmarked hhex hzero (Byte.holds_of_contains (by decide) hmark) hi
    · exact hmarked hbinary hzero (Byte.holds_of_contains (by decide) hmark) hi
    · exact hoctal.cons (by rw [hzero]; decide) (mark :: rest) hi
    · exact hdecimal _ i hi
    · exact hdecimal _ i hi
  · exact hdecimal text i hi

theorem madeOf_numberLength : MadeOf isNumeric numberLength := by
  refine madeOf_unsuffixedLength.andThen (MadeOf.countWhile ?_)
  intro b hb
  rcases Bool.or_eq_true_iff.mp hb with hb | hb
  · exact isNumeric_of_isLetter hb
  · rw [beq_iff_eq.mp hb]
    decide

theorem seam_numberLength {r : UInt8 → Bool} (h : startsNumber (b :: rest) = true) :
    Seam r isNumeric (b :: rest) (numberLength (b :: rest)) :=
  madeOf_numberLength.seam (numberLength_pos h)

theorem edge_numberLength (h : startsNumber (b :: rest) = true) :
    Edge Byte.isAscii (b :: rest) (numberLength (b :: rest)) :=
  (seam_numberLength h).edge (fun _ => id) fun _ => isAscii_of_isNumeric

theorem numberLength_stops (h : text[numberLength text]? = some b) : Byte.opensWord b = false := by
  unfold numberLength at h
  simp only at h
  rw [← List.getElem?_drop] at h
  exact Bool.eq_false_iff.mpr (countWhile_stops h)

/-! ## Names and strays -/

theorem continuesName_of_startsName (hb : Byte.startsName b = true) :
    Byte.continuesName b = true := by
  rw [Byte.continuesName, hb, Bool.true_or]

theorem cons_takeWhile_continuesName (hb : Byte.startsName b = true) (rest : Text) :
    b :: rest.takeWhile Byte.continuesName = (b :: rest).takeWhile Byte.continuesName :=
  (List.takeWhile_cons_of_pos (continuesName_of_startsName hb)).symm

theorem endsName_of_blank (hb : (Byte.endsLine b || Byte.isSpaceOrTab b) = true) :
    Byte.endsName b = true := by
  rcases Bool.or_eq_true_iff.mp hb with hbreak | hspace
  · exact Byte.endsName_of_endsLine hbreak
  · exact Byte.endsName_of_isSpaceOrTab hspace

theorem endsName_of_stray (hnumber : ¬ startsNumber (b :: rest) = true)
    (hname : ¬ Byte.startsName b = true) : Byte.endsName b = true := by
  rw [startsNumber, Bool.or_eq_true, not_or] at hnumber
  rw [Byte.endsName, Byte.continuesName, Bool.eq_false_iff.mpr hname,
    Bool.eq_false_iff.mpr hnumber.1]
  rfl

/-! ## Comments -/

theorem closed_commentToLineEnd (a b : UInt8) (text : Text) :
    Closed (a :: b :: text) (commentToLineEnd text).length := by
  have hend : Closed text (countWhile (fun b => !Byte.endsLine b) text) :=
    Seam.countWhile (fun b hb => by simpa using hb) text
  have hclosed := (hend.cons b).cons a
  rwa [Nat.add_assoc, Nat.add_comm] at hclosed

/-- A comment ends behind its close, or at the end of the text. -/
theorem closed_commentToClose (a b : UInt8) (text : Text) :
    Closed (a :: b :: text) (commentToClose text).length := by
  unfold commentToClose
  cases hclose : offsetOf (ascii "*/") text with
  | none =>
    have hall := Seam.length Byte.endsLine Byte.isMark (a :: b :: text)
    rwa [List.length_cons, List.length_cons, Nat.add_assoc, Nat.add_comm] at hall
  | some k =>
    have hfits := offsetOf_add_length_le hclose
    have hword : Closed (text.drop k) (ascii "*/").length :=
      Seam.ofPrefix (prefix_of_offsetOf hclose) (by decide) (by decide)
    have hwhole := ((hword.ofDrop (by omega)).cons b).cons a
    have hclosing : (ascii "*/").length = 2 := by decide
    have hlength : (comment (text.take k) 2).length = k + (ascii "*/").length + 1 + 1 := by
      show 2 + (text.take k).length + 2 = _
      rw [List.length_take]
      omega
    rw [hlength]
    exact hwhole

/-! ## Lines -/

/-- The line at the head of a text goes on for `left` bytes. -/
def LineEndsAt (text : Text) (left : Nat) : Prop :=
  left ≤ text.length ∧ ∀ b, text[left]? = some b → Byte.endsLine b = true

namespace LineEndsAt

variable {left k : Nat}

theorem closed (h : LineEndsAt text left) : Closed text left := ⟨h.1, .inl h.2⟩

theorem tail (h : LineEndsAt (b :: rest) (left + 1)) : LineEndsAt rest left :=
  ⟨Nat.le_of_succ_le_succ h.1, h.2⟩

theorem drop (h : LineEndsAt text left) (hk : k ≤ left) : LineEndsAt (text.drop k) (left - k) := by
  constructor
  · rw [List.length_drop]
    exact Nat.sub_le_sub_right h.1 k
  · intro b hb
    rw [List.getElem?_drop, Nat.add_sub_cancel' hk] at hb
    exact h.2 b hb

theorem ofCountWhile (text : Text) :
    LineEndsAt text (countWhile (fun b => !Byte.endsLine b) text) := by
  refine ⟨countWhile_le_length _ text, ?_⟩
  intro b hb
  simpa using countWhile_stops hb

end LineEndsAt

theorem closed_pathLength {left : Nat} (h : LineEndsAt text left) :
    Closed text (pathLength left text) := by
  induction text generalizing left with
  | nil =>
    have hnone : pathLength left [] = 0 := by cases left <;> rfl
    rw [hnone]
    exact Seam.length _ _ []
  | cons b rest ih =>
    cases left with
    | zero => exact h.closed
    | succ left =>
      rw [pathLength]
      split
      · next hb =>
        refine Seam.behind rfl ?_
        rcases hb with rfl | rfl
        · decide
        · decide
      · rw [Nat.add_comm]
        exact (ih h.tail).cons b

end CodePane.Source

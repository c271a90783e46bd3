import CodePane.Proofs.Source.Extent
import Mathlib.Data.List.Find

/-!
# What a line break settles

What ends before a line break is the same whatever follows the break. Runs of bytes, numbers and
operators always end before it. A quoted literal may take the break with a backslash, and a raw
string looks for its close beyond it; these are settled only if they do not take the last break that
they are given.

1. `EndsInBreak`, `FailsOnBreaks`: texts that end in a break, and tests that no break passes.
2. `Settled`: lengths that stop before the last break and do not depend on what follows it.
3. `settled_numberLength`, `operatorLength_append`: numbers and operators.
4. `quotedLength_append`, `rawLength_append`, `literal?_append`: literals.
-/

namespace CodePane.Source

open Text

variable {x rest B : Text} {b c : UInt8} {p : UInt8 → Bool} {f g : Text → Nat} {n : Nat}

/-! ## Texts that end in a break -/

/-- The last byte is a line break. -/
def EndsInBreak (text : Text) : Prop := text.getLast?.any Byte.endsLine = true

instance (text : Text) : Decidable (EndsInBreak text) :=
  inferInstanceAs (Decidable (_ = true))

namespace EndsInBreak

theorem length_pos (h : EndsInBreak x) : 0 < x.length := by
  cases x with
  | nil => exact absurd h (by decide)
  | cons b rest => exact Nat.succ_pos _

theorem cons (h : EndsInBreak rest) (b : UInt8) : EndsInBreak (b :: rest) := by
  cases rest with
  | nil => exact absurd h (by decide)
  | cons c rest => exact h

theorem drop (h : EndsInBreak x) (hn : n < x.length) : EndsInBreak (x.drop n) := by
  unfold EndsInBreak
  rw [List.getLast?_drop, if_neg (by omega)]
  exact h

theorem last_or_tail (h : EndsInBreak (b :: rest)) :
    (Byte.endsLine b = true ∧ rest = []) ∨ EndsInBreak rest := by
  cases rest with
  | nil => exact .inl ⟨h, rfl⟩
  | cons c rest => exact .inr h

theorem tail (h : EndsInBreak (b :: rest)) (hb : Byte.endsLine b = false) : EndsInBreak rest :=
  h.last_or_tail.resolve_left fun hlast => absurd hlast.1 (by rw [hb]; decide)

theorem exists_last (h : EndsInBreak (b :: rest)) :
    ∃ c, (b :: rest)[rest.length]? = some c ∧ Byte.endsLine c = true := by
  unfold EndsInBreak at h
  rw [List.getLast?_eq_getElem?] at h
  exact (Option.any_eq_true _ _).mp h

theorem exists_mem (h : EndsInBreak x) : ∃ b ∈ x, Byte.endsLine b = true := by
  cases x with
  | nil => exact absurd h (by decide)
  | cons b rest =>
    obtain ⟨c, hget, hc⟩ := h.exists_last
    exact ⟨c, List.mem_of_getElem? hget, hc⟩

end EndsInBreak

/-- A test that no break passes. -/
def FailsOnBreaks (p : UInt8 → Bool) : Prop :=
  p Byte.lineFeed = false ∧ p Byte.carriageReturn = false

instance (p : UInt8 → Bool) : Decidable (FailsOnBreaks p) :=
  inferInstanceAs (Decidable (_ ∧ _))

theorem FailsOnBreaks.eq_false (h : FailsOnBreaks p) (hb : Byte.endsLine b = true) :
    p b = false := by
  unfold Byte.endsLine at hb
  rcases Bool.or_eq_true_iff.mp hb with hb | hb
  · rw [beq_iff_eq.mp hb]
    exact h.1
  · rw [beq_iff_eq.mp hb]
    exact h.2

theorem FailsOnBreaks.not_endsLine (h : FailsOnBreaks p) (hb : p b = true) :
    Byte.endsLine b = false := by
  cases hbreak : Byte.endsLine b with
  | false => rfl
  | true => exact absurd hb (by rw [h.eq_false hbreak]; decide)

/-! ## Runs and words -/

theorem EndsInBreak.takeWhile_append (h : EndsInBreak x) (hp : FailsOnBreaks p) (B : Text) :
    (x ++ B).takeWhile p = x.takeWhile p := by
  obtain ⟨b, hmem, hb⟩ := h.exists_mem
  exact takeWhile_append_of_mem hmem (hp.eq_false hb) B

theorem EndsInBreak.takeWhile_length_lt (h : EndsInBreak x) (hp : FailsOnBreaks p) :
    (x.takeWhile p).length < x.length := by
  obtain ⟨b, hmem, hb⟩ := h.exists_mem
  exact takeWhile_length_lt_of_mem hmem (hp.eq_false hb)

theorem EndsInBreak.head?_append (h : EndsInBreak x) (B : Text) : (x ++ B).head? = x.head? := by
  cases x with
  | nil => exact absurd h (by decide)
  | cons b rest => rfl

/-- A word without a break in it is found before the break or not at all. -/
theorem EndsInBreak.isPrefixOf_append (h : EndsInBreak x) {word : Text}
    (hw : word.any Byte.endsLine = false) (B : Text) :
    word.isPrefixOf (x ++ B) = word.isPrefixOf x := by
  induction word generalizing x with
  | nil => rw [List.isPrefixOf_nil_left, List.isPrefixOf_nil_left]
  | cons w word ih =>
    cases x with
    | nil => exact absurd h (by decide)
    | cons b rest =>
      obtain ⟨hfirst, hword⟩ := Bool.or_eq_false_iff.mp hw
      rw [List.cons_append, List.isPrefixOf, List.isPrefixOf]
      by_cases hb : w = b
      · subst hb
        rw [ih (h.tail hfirst) hword]
      · rw [beq_false_of_ne hb, Bool.false_and, Bool.false_and]

theorem EndsInBreak.length_lt_of_isPrefixOf (h : EndsInBreak x) {word : Text}
    (hw : word.any Byte.endsLine = false) (hword : word.isPrefixOf x = true) :
    word.length < x.length := by
  have hbegins := List.isPrefixOf_iff_prefix.mp hword
  apply Nat.lt_of_le_of_ne hbegins.length_le
  intro hall
  obtain ⟨b, hmem, hb⟩ := h.exists_mem
  rw [← hbegins.eq_of_length hall] at hmem
  exact List.any_eq_false.mp hw b hmem hb

/-! ## Settled lengths -/

/-- A length that stops before the last break of a text, whatever follows the text. -/
structure SettledAt (f : Text → Nat) (x : Text) : Prop where
  lt : f x < x.length
  eq : ∀ B, f (x ++ B) = f x

/-- A length that stops before the last break of any text that ends in one. -/
def Settled (f : Text → Nat) : Prop := ∀ x, EndsInBreak x → SettledAt f x

theorem Settled.andThen (hf : Settled f) (hg : Settled g) :
    Settled fun text => f text + g (text.drop (f text)) := by
  intro x hx
  have hfirst := hf x hx
  have hsecond := hg _ (hx.drop hfirst.lt)
  have hlt := hsecond.lt
  rw [List.length_drop] at hlt
  constructor
  · have := hfirst.lt
    omega
  · intro B
    rw [hfirst.eq, List.drop_append_of_le_length (Nat.le_of_lt hfirst.lt), hsecond.eq]

/-- Some bytes, and then a length. -/
theorem SettledAt.behind (before : Text) (hf : SettledAt f rest)
    (hg : ∀ B, g (before ++ (rest ++ B)) = before.length + f (rest ++ B)) :
    SettledAt g (before ++ rest) := by
  have hself := hg []
  rw [List.append_nil] at hself
  constructor
  · rw [hself, List.length_append]
    exact Nat.add_lt_add_left hf.lt _
  · intro B
    rw [List.append_assoc, hg, hself, hf.eq]

theorem settled_countWhile (hp : FailsOnBreaks p) : Settled (countWhile p) := by
  intro x hx
  constructor
  · exact hx.takeWhile_length_lt hp
  · intro B
    unfold countWhile
    rw [hx.takeWhile_append hp]

theorem settled_headLength (hp : FailsOnBreaks p) :
    Settled fun text => if text.head?.any p then 1 else 0 := by
  intro x hx
  cases x with
  | nil => exact absurd hx (by decide)
  | cons b rest =>
    refine ⟨?_, fun B => rfl⟩
    show (if p b = true then 1 else 0) < (b :: rest).length
    by_cases hb : p b = true
    · have := (hx.tail (hp.not_endsLine hb)).length_pos
      rw [if_pos hb, List.length_cons]
      omega
    · rw [if_neg hb]
      exact hx.length_pos

/-! ## Numbers -/

theorem settled_digitsLength {isDigit : UInt8 → Bool} (hd : FailsOnBreaks isDigit) :
    Settled (digitsLength isDigit) := by
  refine settled_countWhile ⟨?_, ?_⟩
  · simp only [hd.1]
    decide
  · simp only [hd.2]
    decide

theorem settled_fractionLength {isDigit : UInt8 → Bool} (hd : FailsOnBreaks isDigit) :
    Settled (fractionLength isDigit) := by
  intro x hx
  cases x with
  | nil => exact absurd hx (by decide)
  | cons b rest =>
    by_cases hb : b = '.'.toUInt8
    · have hrest := hx.tail (by rw [hb]; decide)
      exact (settled_digitsLength hd rest hrest).behind [b] fun _ => if_pos hb
    · constructor
      · rw [fractionLength, if_neg hb]
        exact hx.length_pos
      · intro B
        rw [List.cons_append, fractionLength, fractionLength, if_neg hb, if_neg hb]

theorem settled_exponentLength {markers : Text} (hm : FailsOnBreaks markers.contains) :
    Settled (exponentLength markers) := by
  intro x hx
  cases x with
  | nil => exact absurd hx (by decide)
  | cons b rest =>
    by_cases hb : markers.contains b = true
    · have hrest := hx.tail (hm.not_endsLine hb)
      have hsign := settled_headLength (p := (ascii "+-").contains) (by decide)
      have hdecimal : Settled (digitsLength Byte.isDigit) := settled_digitsLength (by decide)
      have hdigits := hsign.andThen hdecimal
      refine (hdigits rest hrest).behind [b] fun text => ?_
      show (if markers.contains b then _ else _) = _
      rw [if_pos hb, Nat.add_assoc]
      rfl
    · constructor
      · rw [exponentLength, if_neg hb]
        exact hx.length_pos
      · intro B
        rw [List.cons_append, exponentLength, exponentLength, if_neg hb, if_neg hb]

theorem settled_scaledLength {isDigit : UInt8 → Bool} {markers : Text}
    (hd : FailsOnBreaks isDigit) (hm : FailsOnBreaks markers.contains) :
    Settled (scaledLength isDigit markers) :=
  ((settled_digitsLength hd).andThen (settled_fractionLength hd)).andThen
    (settled_exponentLength hm)

/-- The case split is the one on the mark behind a zero. -/
theorem settled_unsuffixedLength : Settled unsuffixedLength := by
  have hdecimal : Settled (scaledLength Byte.isDigit (ascii "eE")) :=
    settled_scaledLength (by decide) (by decide)
  intro x hx
  cases x with
  | nil => exact absurd hx (by decide)
  | cons zero rest =>
    by_cases hz : zero = '0'.toUInt8
    · have hrest := hx.tail (by rw [hz]; decide)
      cases rest with
      | nil => exact absurd hrest (by decide)
      | cons mark rest =>
        have hmark (text : Text) : unsuffixedLength (zero :: mark :: text) =
            if (ascii "xX").contains mark then
              2 + scaledLength Byte.isHexDigit (ascii "pP") text
            else if (ascii "bB").contains mark then 2 + digitsLength Byte.isBinaryDigit text
            else if Byte.isOctalDigit mark then
              1 + digitsLength Byte.isOctalDigit (mark :: text)
            else scaledLength Byte.isDigit (ascii "eE") (zero :: mark :: text) := if_pos hz
        by_cases hhex : (ascii "xX").contains mark = true
        · have hdigits := hrest.tail
            ((by decide : FailsOnBreaks (ascii "xX").contains).not_endsLine hhex)
          exact (settled_scaledLength (by decide) (by decide) rest hdigits).behind
            [zero, mark] fun B => (hmark _).trans (if_pos hhex)
        · simp only [if_neg hhex] at hmark
          by_cases hbinary : (ascii "bB").contains mark = true
          · have hdigits := hrest.tail
              ((by decide : FailsOnBreaks (ascii "bB").contains).not_endsLine hbinary)
            exact (settled_digitsLength (by decide) rest hdigits).behind
              [zero, mark] fun B => (hmark _).trans (if_pos hbinary)
          · simp only [if_neg hbinary] at hmark
            by_cases hoctal : Byte.isOctalDigit mark = true
            · exact (settled_digitsLength (by decide) (mark :: rest) hrest).behind
                [zero] fun B => (hmark _).trans (if_pos hoctal)
            · simp only [if_neg hoctal] at hmark
              exact (hdecimal _ hx).behind [] fun B =>
                (hmark _).trans (Nat.zero_add _).symm
    · refine (hdecimal _ hx).behind [] fun B => ?_
      rw [List.nil_append, List.length_nil, Nat.zero_add, List.cons_append]
      cases rest ++ B with
      | nil => rfl
      | cons mark text => rw [unsuffixedLength, if_neg hz]

theorem settled_numberLength : Settled numberLength :=
  settled_unsuffixedLength.andThen (settled_countWhile (by decide))

/-! ## Operators -/

theorem longOperators_oneLine :
    ∀ op ∈ Vocabulary.longOperators, op.any Byte.endsLine = false := by decide

theorem operatorLength_append (h : EndsInBreak x) (B : Text) :
    operatorLength (x ++ B) = operatorLength x := by
  have hfound : Vocabulary.longOperators.find? (·.isPrefixOf (x ++ B)) =
      Vocabulary.longOperators.find? (·.isPrefixOf x) := by
    refine List.find?_congr fun op hop => ?_
    exact h.isPrefixOf_append (longOperators_oneLine op hop) B
  unfold operatorLength
  rw [hfound]

/-! ## Literals -/

theorem quotedLength_cons {quote : UInt8} (hb : b ≠ Byte.backslash) (text : Text) :
    quotedLength quote (b :: text) =
      if b = quote then 1 else if Byte.endsLine b then 0 else 1 + quotedLength quote text := by
  cases text with
  | nil => exact if_neg hb
  | cons next text => rw [quotedLength, if_neg hb]

/-- The induction is on the scan; only a backslash takes two bytes, and if the second one is the
last break then the scan does not stop before it. -/
theorem quotedLength_append {quote : UInt8} (h : EndsInBreak x)
    (hlt : quotedLength quote x < x.length) (B : Text) :
    quotedLength quote (x ++ B) = quotedLength quote x := by
  fun_induction quotedLength quote x with
  | case1 => exact absurd h (by decide)
  | case2 => exact absurd h (by decide)
  | case3 => exact absurd hlt (Nat.lt_irrefl 1)
  | case4 b hb hquote hbreak =>
    rw [List.cons_append, quotedLength_cons hb, if_neg hquote, if_pos hbreak]
  | case5 b _ _ hbreak => exact absurd h hbreak
  | case6 next rest ih =>
    rw [List.length_cons, List.length_cons] at hlt
    have hrest : EndsInBreak rest := h.drop (n := 2) (by simp only [List.length_cons]; omega)
    rw [List.cons_append, List.cons_append, quotedLength, if_pos rfl, ih hrest (by omega)]
  | case7 next rest hquote =>
    rw [List.cons_append, quotedLength_cons hquote, if_pos rfl]
  | case8 b next rest hb hquote hbreak =>
    rw [List.cons_append, quotedLength_cons hb, if_neg hquote, if_pos hbreak]
  | case9 b next rest hb hquote hbreak ih =>
    have hrest := h.tail (Bool.eq_false_iff.mpr hbreak)
    rw [List.length_cons] at hlt
    rw [List.cons_append, quotedLength_cons hb, if_neg hquote, if_neg hbreak,
      ih hrest (by omega)]

theorem opensRaw_append (h : EndsInBreak x) (B : Text) : opensRaw (x ++ B) = opensRaw x := by
  induction x with
  | nil => exact absurd h (by decide)
  | cons b rest ih =>
    rw [List.cons_append, opensRaw, opensRaw]
    cases hb : Byte.endsLine b with
    | true => rfl
    | false => rw [ih (h.tail hb)]

theorem opensRaw_iff :
    opensRaw x = true ↔ '('.toUInt8 ∈ x.takeWhile fun b => !Byte.endsLine b := by
  induction x with
  | nil => exact iff_of_false (by decide) List.not_mem_nil
  | cons b rest ih =>
    rw [opensRaw, Bool.or_eq_true, Bool.and_eq_true, ih, beq_iff_eq, List.takeWhile_cons]
    cases hb : Byte.endsLine b with
    | false =>
      rw [Bool.not_false, if_pos rfl, List.mem_cons, eq_comm]
      exact or_congr_right (and_iff_right rfl)
    | true =>
      rw [Bool.not_true, if_neg Bool.false_ne_true]
      refine iff_of_false ?_ List.not_mem_nil
      rintro (rfl | ⟨hopen, -⟩)
      · exact absurd hb (by decide)
      · exact absurd hopen (by decide)

theorem mem_of_opensRaw (h : opensRaw x = true) : '('.toUInt8 ∈ x :=
  (List.takeWhile_prefix _).subset (opensRaw_iff.mp h)

theorem rawLength_append (h : EndsInBreak x) (hlt : rawLength x < x.length) (B : Text) :
    rawLength (x ++ B) = rawLength x := by
  unfold rawLength at hlt ⊢
  rw [opensRaw_append h]
  by_cases hraw : opensRaw x = true
  · rw [if_pos hraw] at hlt ⊢
    rw [if_pos hraw]
    have hopening : ('('.toUInt8 != '('.toUInt8) = false := by decide
    have hdelimiter := takeWhile_length_lt_of_mem (mem_of_opensRaw hraw)
      (p := (· != '('.toUInt8)) hopening
    rw [takeWhile_append_of_mem (mem_of_opensRaw hraw) (p := (· != '('.toUInt8)) hopening]
    generalize x.takeWhile (· != '('.toUInt8) = delimiter at hdelimiter hlt ⊢
    simp only at hlt ⊢
    rw [List.drop_append_of_le_length hdelimiter]
    cases hclose : offsetOf (')'.toUInt8 :: delimiter ++ [Byte.quote])
        (x.drop (delimiter.length + 1)) with
    | none =>
      rw [hclose] at hlt
      exact absurd hlt (Nat.lt_irrefl _)
    | some k => rw [offsetOf_append hclose (by simp)]
  · rw [if_neg hraw] at hlt ⊢
    rw [if_neg hraw, quotedLength_append h hlt]

theorem settled_encodingLength : Settled encodingLength := by
  intro x hx
  have hhead := settled_headLength (p := (ascii "uUL").contains) (by decide) x hx
  have hword : (ascii "u8").any Byte.endsLine = false := by decide
  by_cases hu8 : (ascii "u8").isPrefixOf x = true
  · constructor
    · rw [encodingLength, if_pos hu8]
      exact hx.length_lt_of_isPrefixOf hword hu8
    · intro B
      rw [encodingLength, encodingLength, hx.isPrefixOf_append hword, if_pos hu8, if_pos hu8]
  · constructor
    · rw [encodingLength, if_neg hu8]
      exact hhead.lt
    · intro B
      rw [encodingLength, encodingLength, hx.isPrefixOf_append hword, if_neg hu8, if_neg hu8]
      exact hhead.eq B

/-- The literal behind an encoding mark of `mark` bytes. -/
def markedLiteral? (mark : Nat) : Text → Option Lexeme
  | [] => none
  | b :: rest =>
    if b = Byte.quote then
      some (.single (mark + 1 + quotedLength Byte.quote rest) .string .plain)
    else if b = Byte.apostrophe then
      some (.single (mark + 1 + quotedLength Byte.apostrophe rest) .char .plain)
    else if b = 'R'.toUInt8 ∧ rest.head? = some Byte.quote then
      some (.single (mark + 2 + rawLength rest.tail) .string .plain)
    else none

theorem literal?_eq (text : Text) :
    literal? text = markedLiteral? (encodingLength text) (text.drop (encodingLength text)) := rfl

theorem markedLiteral?_append {mark : Nat} (h : EndsInBreak x)
    (hlt : ∀ l, markedLiteral? mark x = some l → l.length < mark + x.length) (B : Text) :
    markedLiteral? mark (x ++ B) = markedLiteral? mark x := by
  cases x with
  | nil => exact absurd h (by decide)
  | cons b rest =>
    rw [markedLiteral?, List.length_cons] at hlt
    rw [List.cons_append, markedLiteral?, markedLiteral?]
    by_cases hquote : b = Byte.quote
    · have hrest := h.tail (by rw [hquote]; decide)
      have hstop : mark + 1 + quotedLength Byte.quote rest < mark + (rest.length + 1) :=
        hlt _ (if_pos hquote)
      rw [if_pos hquote, if_pos hquote, quotedLength_append hrest (by omega)]
    rw [if_neg hquote] at hlt
    rw [if_neg hquote, if_neg hquote]
    by_cases hapostrophe : b = Byte.apostrophe
    · have hrest := h.tail (by rw [hapostrophe]; decide)
      have hstop : mark + 1 + quotedLength Byte.apostrophe rest < mark + (rest.length + 1) :=
        hlt _ (if_pos hapostrophe)
      rw [if_pos hapostrophe, if_pos hapostrophe, quotedLength_append hrest (by omega)]
    rw [if_neg hapostrophe] at hlt
    rw [if_neg hapostrophe, if_neg hapostrophe]
    by_cases hletter : b = 'R'.toUInt8
    · have hrest := h.tail (by rw [hletter]; decide)
      rw [hrest.head?_append]
      by_cases hraw : rest.head? = some Byte.quote
      · obtain ⟨tail, rfl⟩ := List.head?_eq_some_iff.mp hraw
        have hstop : mark + 2 + rawLength tail < mark + (tail.length + 1 + 1) :=
          hlt _ (if_pos ⟨hletter, hraw⟩)
        rw [if_pos ⟨hletter, hraw⟩, if_pos ⟨hletter, hraw⟩, List.cons_append, List.tail_cons,
          List.tail_cons, rawLength_append (hrest.tail (by decide)) (by omega)]
      · rw [if_neg fun hr => hraw hr.2, if_neg fun hr => hraw hr.2]
    · rw [if_neg fun hr => hletter hr.1, if_neg fun hr => hletter hr.1]

theorem literal?_append (h : EndsInBreak x) (hlt : ∀ l, literal? x = some l → l.length < x.length)
    (B : Text) : literal? (x ++ B) = literal? x := by
  have hmark := settled_encodingLength x h
  have hle := Nat.le_of_lt hmark.lt
  rw [literal?_eq] at hlt
  rw [literal?_eq, literal?_eq, hmark.eq, List.drop_append_of_le_length hle]
  refine markedLiteral?_append (h.drop hmark.lt) (fun l hl => ?_) B
  rw [List.length_drop, Nat.add_sub_cancel' hle]
  exact hlt l hl

end CodePane.Source

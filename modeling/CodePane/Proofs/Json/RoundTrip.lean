import CodePane.Json.Reader
import CodePane.Json.Writer
import CodePane.Proofs.Decimal.Grammar
import CodePane.Text.Byte

/-!
# Reading what was written

A value that can be spelled is read again from its text. Each part of a text says where it ends: a
string by its quote, an array and an object by their brackets, and a number, which has no end of its
own, by the comma or the new line that stands behind it.

1. `StopsAt`, `EndsValue`: what may follow a part.
2. `number?_chars`: numbers.
3. `StandsFor`, `units?_stringChar`, `string?_written`: strings.
4. `ReadsBack`, `items?_written`, `members?_written`: arrays and objects of values that are read.
5. `Spelled`, `Spelled.readsBack`, `read?_written`: whole values.
-/

namespace CodePane.Json

open Decimal

variable {ds rest cs tail more : List Char} {p : Char → Bool} {c : Char} {depth fuel : Nat}

/-! ## What may follow -/

/-- A text does not begin with such a character. -/
def StopsAt (p : Char → Bool) (cs : List Char) : Prop := ∀ c ∈ cs.head?, p c = false

/-- What stands behind a value: nothing, a comma or a new line. -/
def EndsValue (cs : List Char) : Prop := ∀ c ∈ cs.head?, c = ',' ∨ c = '\n'

theorem EndsValue.stopsAt (h : EndsValue rest) (hp : p ',' = false ∧ p '\n' = false) :
    StopsAt p rest := by
  intro c hc
  rcases h c hc with rfl | rfl
  · exact hp.1
  · exact hp.2

theorem stopsAt_cons (hc : p c = false) (cs : List Char) : StopsAt p (c :: cs) := by
  rintro d ⟨⟩
  exact hc

theorem takeWhile_append_stop (hds : ∀ c ∈ ds, p c = true) (h : StopsAt p rest) :
    (ds ++ rest).takeWhile p = ds := by
  rw [List.takeWhile_append_of_pos hds]
  cases rest with
  | nil => exact List.append_nil ds
  | cons c rest => rw [List.takeWhile_cons_of_neg (by rw [h c rfl]; decide), List.append_nil]

theorem dropWhile_append_stop (hds : ∀ c ∈ ds, p c = true) (h : StopsAt p rest) :
    (ds ++ rest).dropWhile p = rest := by
  rw [List.dropWhile_append_of_pos hds]
  cases rest with
  | nil => rfl
  | cons c rest => rw [List.dropWhile_cons_of_neg (by rw [h c rfl]; decide)]

namespace Reader

/-! ## Numbers -/

theorem digits?_append (h : IsDigits ds) (hrest : StopsAt isDigit rest) :
    digits? (ds ++ rest) = some (ds, rest) := by
  have hdigit : ∀ c ∈ ds, isDigit c = true := h.digit
  unfold digits?
  rw [takeWhile_append_stop hdigit hrest, dropWhile_append_stop hdigit hrest]
  cases ds with
  | nil => exact absurd rfl h.nonempty
  | cons d more => rfl

theorem whole?_append (h : IsDigits ds) (hlead : ds.head? = some '0' → ds = ['0'])
    (hrest : StopsAt isDigit rest) : whole? (ds ++ rest) = some (ds, rest) := by
  unfold whole?
  rw [digits?_append h hrest]
  exact if_neg fun hzero => hzero.2 (hlead hzero.1)

theorem fraction?_append {f : Option (List Char)} (hf : ∀ ds ∈ f, IsDigits ds)
    (hdigit : StopsAt isDigit rest) (hpoint : StopsAt (· == '.') rest) :
    fraction? (Numeral.fractionChars f ++ rest) = some (f, rest) := by
  cases f with
  | some ds =>
    show (digits? (ds ++ rest)).map _ = _
    rw [digits?_append (hf ds rfl) hdigit]
    rfl
  | none =>
    show fraction? rest = _
    unfold fraction?
    split
    · exact absurd (hpoint '.' rfl) (by decide)
    · rfl

theorem ne_of_test {d : Char} (hd : p d = true) (hc : p c = false) : d ≠ c := by
  rintro rfl
  rw [hd] at hc
  cases hc

/-- Without a sign an exponent begins with its digits, and no digit is a sign. -/
theorem exponent?_append {e : Option (Bool × List Char)} (he : ∀ d ∈ e, IsDigits d.2)
    (hdigit : StopsAt isDigit rest) (hmark : StopsAt (fun c => c == 'e' || c == 'E') rest) :
    exponent? (Numeral.exponentChars e ++ rest) = some (e, rest) := by
  cases e with
  | some d =>
    obtain ⟨negative, ds⟩ := d
    have hds : IsDigits ds := he _ rfl
    have hdigits := digits?_append hds hdigit
    cases negative with
    | true =>
      show (digits? (ds ++ rest)).map _ = _
      rw [hdigits]
      rfl
    | false =>
      obtain ⟨d, more, rfl⟩ := List.exists_cons_of_ne_nil hds.nonempty
      have hd := hds.digit d List.mem_cons_self
      show exponent? ('e' :: (d :: more ++ rest)) = _
      rw [exponent?, if_pos (Or.inl rfl)]
      · show (digits? (d :: more ++ rest)).map _ = _
        rw [hdigits]
        rfl
      · exact fun _ h => ne_of_test hd (by decide) (List.cons.inj h).1
      · exact fun _ h => ne_of_test hd (by decide) (List.cons.inj h).1
  | none =>
    show exponent? rest = _
    cases rest with
    | nil => rfl
    | cons c rest =>
      have hc := hmark c rfl
      simp only [Bool.or_eq_false_iff, beq_eq_false_iff_ne] at hc
      unfold exponent?
      exact if_neg (not_or.mpr hc)

/-- **A numeral is read back from its characters.** -/
theorem number?_chars {n : Numeral} (h : n.Grammatical) (hrest : EndsValue rest) :
    number? (n.chars ++ rest) = some (n, rest) := by
  obtain ⟨negative, whole, fraction, exponent⟩ := n
  have hexponent : exponent? (Numeral.exponentChars exponent ++ rest) = some (exponent, rest) :=
    exponent?_append h.exponent (hrest.stopsAt (by decide)) (hrest.stopsAt (by decide))
  have hstops {p : Char → Bool} (he : p 'e' = false) (hp : p ',' = false ∧ p '\n' = false) :
      StopsAt p (Numeral.exponentChars exponent ++ rest) := by
    cases exponent with
    | some e => exact stopsAt_cons he _
    | none => exact hrest.stopsAt hp
  have hfraction := fraction?_append h.fraction (hstops (by decide) (by decide))
    (hstops (by decide) (by decide))
  have hwhole : whole? (whole ++ (Numeral.fractionChars fraction ++
      (Numeral.exponentChars exponent ++ rest))) = some (whole,
        Numeral.fractionChars fraction ++ (Numeral.exponentChars exponent ++ rest)) := by
    refine whole?_append h.whole h.lead ?_
    cases fraction with
    | some ds => exact stopsAt_cons (by decide) _
    | none => exact hstops (by decide) (by decide)
  have hchars : Numeral.chars ⟨negative, whole, fraction, exponent⟩ ++ rest =
      Numeral.signChars negative ++ (whole ++ (Numeral.fractionChars fraction ++
        (Numeral.exponentChars exponent ++ rest))) := by
    simp only [Numeral.chars, List.append_assoc]
  rw [hchars]
  unfold number?
  cases negative with
  | true =>
    simp only [Numeral.signChars, if_true, List.singleton_append, hwhole, hfraction, hexponent,
      Option.bind_eq_bind, Option.bind_some]
  | false =>
    obtain ⟨d, more, rfl⟩ := List.exists_cons_of_ne_nil h.whole.nonempty
    have hd := h.whole.digit d List.mem_cons_self
    have hminus : d ≠ '-' := ne_of_test hd (by decide)
    simp only [Numeral.signChars, Bool.false_eq_true, if_false, List.nil_append,
      List.cons_append] at hwhole ⊢
    split
    · next heq => exact absurd (List.cons.inj heq).1 hminus
    · simp only [hwhole, hfraction, hexponent, Option.bind_eq_bind, Option.bind_some]

/-! ## Strings -/

/-- The piece of a string stands for the character: by itself, or by its value, if that is no half
of a surrogate pair. -/
def StandsFor (c : Char) (u : Unit16) : Prop :=
  u = .char c ∨ u = .escaped c.toNat ∧ c.toNat < 0xD800

theorem chars?_cons {u : Unit16} (h : StandsFor c u) (units : List Unit16) :
    chars? (u :: units) = (chars? units).map (c :: ·) := by
  rcases h with rfl | ⟨rfl, hvalue⟩
  · rw [chars?]
  · have hhigh : ¬ isHighSurrogate c.toNat = true := by
      simp only [isHighSurrogate, Bool.and_eq_true, decide_eq_true_eq]
      omega
    have hlow : ¬ isLowSurrogate c.toNat = true := by
      simp only [isLowSurrogate, Bool.and_eq_true, decide_eq_true_eq]
      omega
    rw [chars?.eq_def]
    simp only
    rw [if_neg hhigh, if_neg hlow, Char.ofNat_toNat]

/-- One more piece in front of those of a text. -/
def withPiece (u : Unit16) (read : List Unit16 × List Char) : List Unit16 × List Char :=
  (u :: read.1, read.2)

theorem units?_letter {l : Char} (h : letterEscape? l = some c) (cs : List Char) :
    units? ('\\' :: l :: cs) = (units? cs).map (withPiece (.char c)) := by
  rw [units?, h]
  · cases units? cs <;> rfl
  · rintro a b d e rest rfl
    cases h

theorem units?_value {a b d e : Char} {n : Nat} (h : unit? a b d e = some n) (cs : List Char) :
    units? ('\\' :: 'u' :: a :: b :: d :: e :: cs) =
      (units? cs).map (withPiece (.escaped n)) := by
  rw [units?, h]
  cases units? cs <;> rfl

theorem units?_itself (hquote : c ≠ '"') (hbackslash : c ≠ '\\') (hvalue : 0x20 ≤ c.toNat)
    (cs : List Char) : units? (c :: cs) = (units? cs).map (withPiece (.char c)) := by
  have hplain : ¬ (c = '\\' ∨ c.toNat < 0x20) := not_or.mpr ⟨hbackslash, by omega⟩
  rw [units?, if_neg hplain]
  · cases units? cs <;> rfl
  · exact hquote
  · exact fun _ _ _ _ _ h => absurd h hbackslash
  · exact fun _ _ h => absurd h hbackslash

theorem unit?_byteDigits (h : c.toNat < 0x20) :
    ∃ d e, Hex.byteDigits c.toUInt8 = [d, e] ∧ unit? '0' '0' d e = some c.toNat := by
  have hbyte : c.toUInt8.toNat = c.toNat := toNat_toUInt8 (by omega)
  have hzero : Hex.byte? '0' '0' = some 0 := by decide
  refine ⟨_, _, rfl, ?_⟩
  unfold unit?
  rw [hzero, Hex.byte?_digits]
  show some (0 * 256 + c.toUInt8.toNat) = _
  rw [hbyte, Nat.zero_mul, Nat.zero_add]

theorem units?_stringChar (c : Char) : ∃ u, StandsFor c u ∧
    ∀ cs, units? (Writer.stringChar c ++ cs) = (units? cs).map (withPiece u) := by
  unfold Writer.stringChar
  split
  · exact ⟨_, .inl rfl, units?_letter rfl⟩
  · exact ⟨_, .inl rfl, units?_letter rfl⟩
  · exact ⟨_, .inl rfl, units?_letter rfl⟩
  · exact ⟨_, .inl rfl, units?_letter rfl⟩
  · exact ⟨_, .inl rfl, units?_letter rfl⟩
  · exact ⟨_, .inl rfl, units?_letter rfl⟩
  · exact ⟨_, .inl rfl, units?_letter rfl⟩
  · split
    · next hvalue =>
      obtain ⟨d, e, hdigits, hunit⟩ := unit?_byteDigits hvalue
      rw [hdigits]
      exact ⟨_, .inr ⟨rfl, by omega⟩, units?_value hunit⟩
    · next hvalue =>
      exact ⟨_, .inl rfl, units?_itself (by assumption) (by assumption) (Nat.le_of_not_lt hvalue)⟩

theorem units?_string (cs rest : List Char) :
    ∃ units, units? (cs.flatMap Writer.stringChar ++ '"' :: rest) = some (units, rest) ∧
      chars? units = some cs := by
  induction cs with
  | nil => exact ⟨[], by rw [List.flatMap_nil, List.nil_append, units?], rfl⟩
  | cons c cs ih =>
    obtain ⟨units, hunits, hchars⟩ := ih
    obtain ⟨u, hu, hpiece⟩ := units?_stringChar c
    refine ⟨u :: units, ?_, ?_⟩
    · rw [List.flatMap_cons, List.append_assoc, hpiece, hunits]
      rfl
    · rw [chars?_cons hu, hchars]
      rfl

theorem string_append (s : String) (rest : List Char) : Writer.string s ++ rest =
    '"' :: (s.toList.flatMap Writer.stringChar ++ '"' :: rest) := by
  rw [Writer.string, List.cons_append, List.append_assoc]
  rfl

/-- **A text is read back** from what is written behind its opening quote. -/
theorem string?_written (s : String) (rest : List Char) :
    string? (s.toList.flatMap Writer.stringChar ++ '"' :: rest) = some (some s, rest) := by
  obtain ⟨units, hunits, hchars⟩ := units?_string s.toList rest
  rw [string?, hunits, Option.map_some]
  simp only
  rw [hchars, Option.map_some, String.ofList_toList]

/-! ## Arrays and objects -/

theorem skipBlanks_cons (hc : (c == ' ' || c == '\t' || c == '\n' || c == '\r') = false)
    (cs : List Char) : skipBlanks (c :: cs) = c :: cs :=
  List.dropWhile_cons_of_neg (by rw [hc]; decide)

theorem skipBlanks_newLine (depth : Nat) (cs : List Char) :
    skipBlanks (Writer.newLine depth ++ cs) = skipBlanks cs := by
  refine List.dropWhile_append_of_pos ?_
  intro c hc
  rcases List.mem_cons.mp hc with rfl | hc
  · rfl
  · rw [List.eq_of_mem_replicate hc]
    rfl

theorem value?_of_skipBlanks {cs cs' : List Char} (h : skipBlanks cs = skipBlanks cs')
    (fuel : Nat) : value? fuel cs = value? fuel cs' := by
  cases fuel with
  | zero => rw [value?, value?]
  | succ fuel =>
    unfold value?
    rw [h]

/-- The value is read from its text at any depth, with as many steps as the text has characters. -/
def ReadsBack (v : Json) : Prop := ∀ depth fuel rest, EndsValue rest →
  (Writer.value depth v).length ≤ fuel →
    value? fuel (Writer.value depth v ++ rest) = some (v, rest)

theorem endsValue_cons (hc : c = ',' ∨ c = '\n') (cs : List Char) : EndsValue (c :: cs) := by
  rintro d ⟨⟩
  exact hc

theorem endsValue_moreItems (depth depth' : Nat) (items : List Json) (cs : List Char) :
    EndsValue (Writer.moreItems depth items ++ (Writer.newLine depth' ++ cs)) := by
  cases items with
  | nil => exact endsValue_cons (.inr rfl) _
  | cons => exact endsValue_cons (.inl rfl) _

theorem items?_of_skipBlanks {cs cs' : List Char} (h : skipBlanks cs = skipBlanks cs')
    (fuel : Nat) : items? fuel cs = items? fuel cs' := by
  cases fuel with
  | zero => rw [items?, items?]
  | succ fuel => rw [items?, items?, value?_of_skipBlanks h]

theorem items?_last {item : Json} (hitem : value? fuel cs = some (item, tail))
    (hclose : skipBlanks tail = ']' :: rest) : items? (fuel + 1) cs = some ([item], rest) := by
  simp only [items?, hitem, hclose, Option.bind_eq_bind, Option.bind_some]

theorem items?_comma {item : Json} {items : List Json} (hitem : value? fuel cs = some (item, tail))
    (hcomma : skipBlanks tail = ',' :: more) (hitems : items? fuel more = some (items, rest)) :
    items? (fuel + 1) cs = some (item :: items, rest) := by
  simp only [items?, hitem, hcomma, hitems, Option.bind_eq_bind, Option.bind_some]

/-- The induction is on the items; each step of the reader takes one and its comma. -/
theorem items?_written {item : Json} {items : List Json} (hitem : ReadsBack item)
    (hitems : ∀ item ∈ items, ReadsBack item) (depth depth' : Nat) (rest : List Char)
    (hfuel : (Writer.value depth item).length + (Writer.moreItems depth items).length < fuel) :
    items? fuel (Writer.value depth item ++ (Writer.moreItems depth items ++
      (Writer.newLine depth' ++ ']' :: rest))) = some (item :: items, rest) := by
  induction items generalizing item fuel with
  | nil =>
    obtain ⟨fuel, rfl⟩ := Nat.exists_eq_succ_of_ne_zero (Nat.ne_zero_of_lt hfuel)
    have hfirst := hitem depth fuel _ (endsValue_moreItems depth depth' [] (']' :: rest)) (by omega)
    exact items?_last hfirst (skipBlanks_newLine depth' (']' :: rest))
  | cons next items ih =>
    obtain ⟨fuel, rfl⟩ := Nat.exists_eq_succ_of_ne_zero (Nat.ne_zero_of_lt hfuel)
    have hfirst := hitem depth fuel _
      (endsValue_moreItems depth depth' (next :: items) (']' :: rest)) (by omega)
    obtain ⟨hnext, hmore⟩ := List.forall_mem_cons.mp hitems
    simp only [Writer.moreItems, List.length_cons, List.length_append] at hfuel
    have hbehind : items? fuel (Writer.value depth next ++ _) = _ := ih hnext hmore (by omega)
    rw [← items?_of_skipBlanks (skipBlanks_newLine depth _)] at hbehind
    simp only [Writer.moreItems, List.cons_append, List.append_assoc] at hfirst ⊢
    exact items?_comma hfirst (skipBlanks_cons (by decide) _) hbehind

/-! ## Objects -/

theorem endsValue_moreMembers (depth depth' : Nat) (members : List (Option String × Json))
    (cs : List Char) :
    EndsValue (Writer.moreMembers depth members ++ (Writer.newLine depth' ++ cs)) := by
  cases members with
  | nil => exact endsValue_cons (.inr rfl) _
  | cons => exact endsValue_cons (.inl rfl) _

theorem members?_of_skipBlanks {cs cs' : List Char} (h : skipBlanks cs = skipBlanks cs')
    (fuel : Nat) : members? fuel cs = members? fuel cs' := by
  cases fuel with
  | zero => rw [members?, members?]
  | succ fuel => rw [members?, members?, h]

/-- The name and the value of a member, and what the object has behind them. -/
theorem members?_member {v : Json} {name : String}
    (hvalue : value? fuel (Writer.value depth v ++ tail) = some (v, tail)) :
    members? (fuel + 1) (Writer.member depth (some name, v) ++ tail) =
      match skipBlanks tail with
      | ',' :: rest => (members? fuel rest).bind fun read => some ((some name, v) :: read.1, read.2)
      | '}' :: rest => some ([(some name, v)], rest)
      | _ => none := by
  have hmember : Writer.member depth (some name, v) ++ tail =
      '"' :: (name.toList.flatMap Writer.stringChar ++ '"' :: ':' :: ' ' ::
        (Writer.value depth v ++ tail)) := by
    rw [Writer.member, Option.getD_some, List.append_assoc, string_append]
    rfl
  have hblank : skipBlanks (' ' :: (Writer.value depth v ++ tail)) =
      skipBlanks (Writer.value depth v ++ tail) := rfl
  rw [← value?_of_skipBlanks hblank] at hvalue
  have hquote (cs : List Char) : expect? ['"'] (skipBlanks ('"' :: cs)) = some cs := rfl
  have hcolon (cs : List Char) : expect? [':'] (skipBlanks (':' :: cs)) = some cs := rfl
  generalize hread : members? (fuel + 1) (Writer.member depth (some name, v) ++ tail) = read
  rw [hmember, members?] at hread
  simp only [hquote, string?_written, hcolon, hvalue, Option.bind_eq_bind, Option.bind_some]
    at hread
  exact hread.symm

/-- Any value that is read back, under a name that is a text. -/
def MemberReadsBack (m : Option String × Json) : Prop := (∃ name, m.1 = some name) ∧ ReadsBack m.2

theorem value_length_le (depth : Nat) (m : Option String × Json) :
    (Writer.value depth m.2).length ≤ (Writer.member depth m).length := by
  rw [Writer.member, List.length_append, List.length_cons, List.length_cons]
  omega

/-- The induction is on the members, as that for arrays is on the items. -/
theorem members?_written {m : Option String × Json} {members : List (Option String × Json)}
    (hm : MemberReadsBack m) (hmembers : ∀ m ∈ members, MemberReadsBack m) (depth depth' : Nat)
    (rest : List Char)
    (hfuel : (Writer.member depth m).length + (Writer.moreMembers depth members).length < fuel) :
    members? fuel (Writer.member depth m ++ (Writer.moreMembers depth members ++
      (Writer.newLine depth' ++ '}' :: rest))) = some (m :: members, rest) := by
  induction members generalizing m fuel with
  | nil =>
    obtain ⟨fuel, rfl⟩ := Nat.exists_eq_succ_of_ne_zero (Nat.ne_zero_of_lt hfuel)
    obtain ⟨name, v⟩ := m
    obtain ⟨⟨name, rfl⟩, hv⟩ := hm
    have hlength := value_length_le depth (some name, v)
    have hfirst := hv depth fuel _ (endsValue_moreMembers depth depth' [] ('}' :: rest)) (by omega)
    rw [members?_member hfirst, Writer.moreMembers, List.nil_append, skipBlanks_newLine,
      skipBlanks_cons (by decide)]
    rfl
  | cons next members ih =>
    obtain ⟨fuel, rfl⟩ := Nat.exists_eq_succ_of_ne_zero (Nat.ne_zero_of_lt hfuel)
    obtain ⟨name, v⟩ := m
    obtain ⟨⟨name, rfl⟩, hv⟩ := hm
    have hlength := value_length_le depth (some name, v)
    have hfirst := hv depth fuel _
      (endsValue_moreMembers depth depth' (next :: members) ('}' :: rest)) (by omega)
    obtain ⟨hnext, hmore⟩ := List.forall_mem_cons.mp hmembers
    simp only [Writer.moreMembers, List.length_cons, List.length_append] at hfuel
    have hbehind : members? fuel (Writer.member depth next ++ _) = _ := ih hnext hmore (by omega)
    rw [← members?_of_skipBlanks (skipBlanks_newLine depth _)] at hbehind
    rw [members?_member hfirst, Writer.moreMembers, List.cons_append, skipBlanks_cons (by decide)]
    simp only [List.append_assoc]
    rw [hbehind]
    rfl

/-! ## Values -/

/-- A value that a text can spell: each number follows the grammar, and each string and each name is
a text. -/
inductive Spelled : Json → Prop
  | null : Spelled .null
  | bool (b : Bool) : Spelled (.bool b)
  | number {n : Numeral} (h : n.Grammatical) : Spelled (.number n)
  | string (s : String) : Spelled (.string (some s))
  | array {items : List Json} (h : ∀ item ∈ items, Spelled item) : Spelled (.array items)
  | object {members : List (Option String × Json)} (hnames : ∀ m ∈ members, ∃ name, m.1 = some name)
      (h : ∀ m ∈ members, Spelled m.2) : Spelled (.object members)

/-- A character that begins a number. -/
def beginsNumber (c : Char) : Bool := c == '-' || c.isDigit

theorem exists_head_chars {n : Numeral} (h : n.Grammatical) :
    ∃ c tail, n.chars = c :: tail ∧ beginsNumber c = true := by
  obtain ⟨negative, whole, fraction, exponent⟩ := n
  cases negative with
  | true => exact ⟨'-', _, rfl, rfl⟩
  | false =>
    obtain ⟨d, more, rfl⟩ := List.exists_cons_of_ne_nil h.whole.nonempty
    exact ⟨d, _, rfl, Bool.or_eq_true_iff.mpr (.inr (h.whole.digit d List.mem_cons_self))⟩

/-- A character that begins a value. -/
def beginsValue (c : Char) : Bool := ['"', '[', '{', 'n', 't', 'f'].contains c || beginsNumber c

theorem skipBlanks_of_beginsValue (hc : beginsValue c = true) (cs : List Char) :
    skipBlanks (c :: cs) = c :: cs := by
  refine skipBlanks_cons ?_ cs
  have hne {d : Char} (hd : beginsValue d = false) : c ≠ d := ne_of_test hc hd
  rw [beq_false_of_ne (hne rfl), beq_false_of_ne (hne rfl), beq_false_of_ne (hne rfl),
    beq_false_of_ne (hne rfl)]
  rfl

/-- A number begins like no other form of value. -/
theorem value?_number {n : Numeral} (h : n.Grammatical) (hrest : EndsValue rest) (fuel : Nat) :
    value? (fuel + 1) (n.chars ++ rest) = some (.number n, rest) := by
  have hnumber := number?_chars h hrest
  obtain ⟨c, tail, hchars, hc⟩ := exists_head_chars h
  have hne {d : Char} (hd : beginsNumber d = false) : c ≠ d := ne_of_test hc hd
  have hbegins : beginsValue c = true := Bool.or_eq_true_iff.mpr (.inr hc)
  rw [hchars, List.cons_append] at hnumber ⊢
  unfold value?
  rw [skipBlanks_of_beginsValue hbegins]
  split
  · next heq => exact absurd (List.cons.inj heq).1 (hne rfl)
  · next heq => exact absurd (List.cons.inj heq).1 (hne rfl)
  · next heq => exact absurd (List.cons.inj heq).1 (hne rfl)
  · next heq => exact absurd (List.cons.inj heq).1 (hne rfl)
  · next heq => exact absurd (List.cons.inj heq).1 (hne rfl)
  · next heq => exact absurd (List.cons.inj heq).1 (hne rfl)
  · rw [hnumber]
    rfl

theorem Spelled.exists_head {v : Json} (h : Spelled v) (depth : Nat) :
    ∃ c tail, Writer.value depth v = c :: tail ∧ beginsValue c = true := by
  cases h with
  | null => exact ⟨_, _, rfl, rfl⟩
  | bool b => cases b <;> exact ⟨_, _, rfl, rfl⟩
  | number hn =>
    obtain ⟨c, tail, hchars, hc⟩ := exists_head_chars hn
    exact ⟨c, tail, hchars, Bool.or_eq_true_iff.mpr (.inr hc)⟩
  | string s => exact ⟨_, _, rfl, rfl⟩
  | @array items => cases items <;> exact ⟨_, _, rfl, rfl⟩
  | @object members => cases members <;> exact ⟨_, _, rfl, rfl⟩

theorem Spelled.exists_step {v : Json} (h : Spelled v)
    (hfuel : (Writer.value depth v).length ≤ fuel) : ∃ more, fuel = more + 1 := by
  obtain ⟨c, tail, hhead, -⟩ := h.exists_head depth
  rw [hhead] at hfuel
  exact Nat.exists_eq_succ_of_ne_zero (Nat.ne_zero_of_lt hfuel)

theorem value?_array {items : List Json} (hhead : cs = c :: tail) (hc : beginsValue c = true)
    (depth : Nat) (hitems : items? fuel cs = some (items, rest)) :
    value? (fuel + 1) ('[' :: (Writer.newLine depth ++ cs)) = some (.array items, rest) := by
  subst hhead
  unfold value?
  rw [skipBlanks_cons (by decide)]
  simp only
  rw [skipBlanks_newLine, skipBlanks_of_beginsValue hc]
  split
  · next heq =>
    rw [(List.cons.inj heq).1] at hc
    exact absurd hc (by decide)
  · rw [hitems]
    rfl

theorem value?_object {members : List (Option String × Json)} (hhead : cs = '"' :: tail)
    (depth : Nat) (hmembers : members? fuel cs = some (members, rest)) :
    value? (fuel + 1) ('\x7b' :: (Writer.newLine depth ++ cs)) = some (.object members, rest) := by
  subst hhead
  unfold value?
  rw [skipBlanks_cons (by decide)]
  simp only
  rw [skipBlanks_newLine, skipBlanks_cons (by decide)]
  show (members? fuel ('"' :: tail)).map _ = _
  rw [hmembers]
  rfl

theorem readsBack_array {items : List Json} (h : ∀ item ∈ items, Spelled item)
    (hitems : ∀ item ∈ items, ReadsBack item) : ReadsBack (.array items) := by
  intro depth fuel rest _ hfuel
  obtain ⟨fuel, rfl⟩ := (Spelled.array h).exists_step hfuel
  cases items with
  | nil => rfl
  | cons item items =>
    obtain ⟨hitem, hmore⟩ := List.forall_mem_cons.mp hitems
    obtain ⟨c, tail, hhead, hc⟩ := (h item List.mem_cons_self).exists_head (depth + 1)
    simp only [Writer.value, List.length_cons, List.length_append] at hfuel
    have hread : items? fuel _ = _ := items?_written hitem hmore (depth + 1) depth rest (by omega)
    have hvalue := value?_array (by rw [hhead]; rfl) hc (depth + 1) hread
    simpa only [Writer.value, List.cons_append, List.append_assoc, List.nil_append] using hvalue

theorem readsBack_object {members : List (Option String × Json)} (h : Spelled (.object members))
    (hmembers : ∀ m ∈ members, MemberReadsBack m) : ReadsBack (.object members) := by
  intro depth fuel rest _ hfuel
  obtain ⟨fuel, rfl⟩ := h.exists_step hfuel
  cases members with
  | nil => rfl
  | cons m members =>
    obtain ⟨hm, hmore⟩ := List.forall_mem_cons.mp hmembers
    simp only [Writer.value, List.length_cons, List.length_append] at hfuel
    have hread : members? fuel _ = _ := members?_written hm hmore (depth + 1) depth rest (by omega)
    obtain ⟨name, v⟩ := m
    have hvalue := value?_object (by rfl) (depth + 1) hread
    simpa only [Writer.value, List.cons_append, List.append_assoc, List.nil_append] using hvalue

/-- The induction is on the value as it is spelled. -/
theorem Spelled.readsBack {v : Json} (h : Spelled v) : ReadsBack v := by
  induction h with
  | array h ih => exact readsBack_array h ih
  | object hnames h ih =>
    exact readsBack_object (.object hnames h) fun m hm => ⟨hnames m hm, ih m hm⟩
  | null =>
    intro depth fuel rest _ hfuel
    obtain ⟨fuel, rfl⟩ := Spelled.null.exists_step hfuel
    rfl
  | bool b =>
    intro depth fuel rest _ hfuel
    obtain ⟨fuel, rfl⟩ := (Spelled.bool b).exists_step hfuel
    cases b <;> rfl
  | number hn =>
    intro depth fuel rest hrest hfuel
    obtain ⟨fuel, rfl⟩ := (Spelled.number hn).exists_step hfuel
    exact value?_number hn hrest fuel
  | string s =>
    intro depth fuel rest _ hfuel
    obtain ⟨fuel, rfl⟩ := (Spelled.string s).exists_step hfuel
    show value? (fuel + 1) (Writer.string s ++ rest) = _
    rw [string_append]
    unfold value?
    rw [skipBlanks_cons (by decide)]
    simp only
    rw [string?_written]
    rfl

end Reader

/-- **What is written is read back,** whatever stands in its texts and however deep its arrays and
objects are nested. -/
theorem read?_written {v : Json} (h : Reader.Spelled v) : read? v.render.toList = some v := by
  have hend : EndsValue [] := fun c hc => by cases hc
  have hread := h.readsBack 0 (2 * (Writer.value 0 v).length + 2) [] hend (by omega)
  rw [List.append_nil] at hread
  rw [render, String.toList_ofList, read?, hread]
  rfl

end CodePane.Json

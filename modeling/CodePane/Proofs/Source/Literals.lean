import CodePane.Proofs.Source.LineBreak

/-!
# Where literals end

The scan of a quoted literal takes two bytes at a backslash and one elsewhere. Seen from outside, a
byte is escaped if the backslashes right before it are odd in number, and the literal ends at the
first quote or line break that is not. A raw string ends behind the first occurrence of its closing
word, whatever stands before it.

1. `EndsQuoted`, `QuotedExtent`: the end of a quoted literal, told from the parity of backslashes.
2. `quotedLength_extent`: the scan stops there.
3. `ReachesPast`, `rawLength_extent`: the end of a raw string.
4. `literal_extents`: the first token of a text that begins with a literal.
-/

namespace CodePane.Source

open Text

variable {before body delimiter mark rest text word : Text} {b quote : UInt8} {k n : Nat}

/-! ## Escapes -/

/-- How many backslashes stand right before offset `k`. -/
def backslashesBefore (text : Text) (k : Nat) : Nat :=
  countWhile (· == Byte.backslash) (text.take k).reverse

/-- A quote or a line break that no backslash takes. -/
def EndsQuoted (quote : UInt8) (text : Text) (k : Nat) : Prop :=
  ∃ b, text[k]? = some b ∧ (b = quote ∨ Byte.endsLine b = true) ∧
    backslashesBefore text k % 2 = 0

/-- How far a quoted literal reaches when the text behind its opening quote is given. -/
inductive QuotedExtent (quote : UInt8) (text : Text) : Nat → Prop
  | closed {k : Nat} (first : IsLeast {k | EndsQuoted quote text k} k)
      (here : text[k]? = some quote) : QuotedExtent quote text (k + 1)
  | broken {k : Nat} (first : IsLeast {k | EndsQuoted quote text k} k)
      (here : text[k]? ≠ some quote) : QuotedExtent quote text k
  | unended (never : ∀ k, ¬ EndsQuoted quote text k) : QuotedExtent quote text text.length

theorem backslashesBefore_append_left (h : k ≤ before.length) (rest : Text) :
    backslashesBefore (before ++ rest) k = backslashesBefore before k := by
  unfold backslashesBefore
  rw [List.take_append_of_le_length h]

/-- Where the backslashes at the end of a text pair up, they escape nothing behind it. -/
theorem backslashesBefore_append_right (h : backslashesBefore before before.length % 2 = 0)
    (rest : Text) (k : Nat) : backslashesBefore (before ++ rest) (before.length + k) % 2 =
      backslashesBefore rest k % 2 := by
  unfold backslashesBefore at h ⊢
  rw [List.take_length] at h
  rw [List.take_length_add_append, List.reverse_append, countWhile_append]
  split
  · next hall =>
    rw [hall, Nat.add_mod, h, Nat.add_zero, Nat.mod_mod]
  · rfl

/-- A text that a quoted literal runs over: nothing in it ends the literal, and it escapes nothing
behind it. -/
structure Passes (quote : UInt8) (before : Text) : Prop where
  unended : ∀ k, ¬ EndsQuoted quote before k
  even : backslashesBefore before before.length % 2 = 0

theorem Passes.endsQuoted_iff (h : Passes quote before) :
    EndsQuoted quote (before ++ rest) k ↔
      before.length ≤ k ∧ EndsQuoted quote rest (k - before.length) := by
  by_cases hk : before.length ≤ k
  · obtain ⟨j, rfl⟩ := Nat.exists_eq_add_of_le hk
    unfold EndsQuoted
    rw [backslashesBefore_append_right h.even, List.getElem?_append_right hk,
      Nat.add_sub_cancel_left]
    exact (and_iff_right hk).symm
  · refine iff_of_false ?_ (fun hends => hk hends.1)
    have hlt := Nat.lt_of_not_le hk
    unfold EndsQuoted
    rw [backslashesBefore_append_left (Nat.le_of_lt hlt), List.getElem?_append_left hlt]
    exact h.unended k

theorem Passes.isLeast (h : Passes quote before)
    (hfirst : IsLeast {k | EndsQuoted quote rest k} k) :
    IsLeast {k | EndsQuoted quote (before ++ rest) k} (before.length + k) := by
  constructor
  · refine h.endsQuoted_iff.mpr ⟨Nat.le_add_right _ _, ?_⟩
    rw [Nat.add_sub_cancel_left]
    exact hfirst.1
  · intro j hj
    obtain ⟨hle, hends⟩ := h.endsQuoted_iff.mp hj
    have := hfirst.2 hends
    omega

theorem Passes.extent (h : Passes quote before) (hrest : QuotedExtent quote rest n) :
    QuotedExtent quote (before ++ rest) (before.length + n) := by
  have hbehind (k : Nat) : (before ++ rest)[before.length + k]? = rest[k]? := by
    rw [List.getElem?_append_right (Nat.le_add_right _ _), Nat.add_sub_cancel_left]
  cases hrest with
  | closed first here => exact .closed (h.isLeast first) ((hbehind _).trans here)
  | broken first here => exact .broken (h.isLeast first) (by rw [hbehind]; exact here)
  | unended never =>
    rw [← List.length_append]
    exact .unended fun k hends => never _ (h.endsQuoted_iff.mp hends).2

theorem passes_single (hslash : b ≠ Byte.backslash) (hquote : b ≠ quote)
    (hbreak : ¬ Byte.endsLine b = true) : Passes quote [b] where
  unended k := by
    rintro ⟨c, hc, hend, -⟩
    obtain rfl := List.mem_singleton.mp (List.mem_of_getElem? hc)
    exact hend.elim hquote hbreak
  even := by
    show countWhile (· == Byte.backslash) [b] % 2 = 0
    rw [countWhile_cons_of_neg (by rw [beq_iff_eq]; exact hslash)]

/-- A backslash and the byte that it takes. -/
theorem passes_escape (hquote : quote ≠ Byte.backslash) (b : UInt8) :
    Passes quote [Byte.backslash, b] where
  unended k := by
    rintro ⟨c, hc, hend, heven⟩
    match k with
    | 0 =>
      obtain rfl := Option.some.inj hc
      rcases hend with hend | hend
      · exact hquote hend.symm
      · exact absurd hend (by decide)
    | 1 => exact absurd heven Nat.one_ne_zero
    | k + 2 => cases hc
  even := by
    show countWhile (· == Byte.backslash) [b, Byte.backslash] % 2 = 0
    by_cases hb : (b == Byte.backslash) = true
    · rw [countWhile_cons_of_pos (p := (· == Byte.backslash)) hb]
      decide
    · rw [countWhile_cons_of_neg (p := (· == Byte.backslash)) hb]

theorem isLeast_endsQuoted_zero (h : b = quote ∨ Byte.endsLine b = true) (rest : Text) :
    IsLeast {k | EndsQuoted quote (b :: rest) k} 0 :=
  ⟨⟨b, rfl, h, rfl⟩, fun _ _ => Nat.zero_le _⟩

/-- **Quoted literals.** The scan stops behind the first quote, or before the first line break, that
stands behind an even number of backslashes. The induction is on the scan, which runs over a
backslash with the next byte, or over one other byte. -/
theorem quotedLength_extent (hquote : quote ≠ Byte.backslash) (text : Text) :
    QuotedExtent quote text (quotedLength quote text) := by
  fun_induction quotedLength quote text
  case case1 =>
    refine .unended fun k => ?_
    rintro ⟨c, hc, -⟩
    cases hc
  case case2 =>
    refine .unended fun k => ?_
    rintro ⟨c, hc, hend, -⟩
    obtain rfl := List.mem_singleton.mp (List.mem_of_getElem? hc)
    exact hend.elim hquote.symm (by decide)
  case case3 | case7 => exact .closed (isLeast_endsQuoted_zero (.inl rfl) _) rfl
  case case4 hne hbreak | case8 hne hbreak =>
    exact .broken (isLeast_endsQuoted_zero (.inr hbreak) _) fun h => hne (Option.some.inj h)
  case case5 hb hne hbreak => exact .unended (passes_single hb hne hbreak).unended
  case case6 next rest ih => exact (passes_escape hquote next).extent ih
  case case9 hb hne hbreak ih => exact (passes_single hb hne hbreak).extent ih

/-! ## Raw strings -/

/-- The first occurrence of a word ends `n` bytes into the text, or the text has `n` bytes and the
word does not occur. -/
inductive ReachesPast (word text : Text) : Nat → Prop
  | found {k : Nat} (first : IsLeast {k | word <+: text.drop k} k) :
      ReachesPast word text (k + word.length)
  | missing (never : ∀ k, ¬ word <+: text.drop k) : ReachesPast word text text.length

theorem opensRaw_behind_delimiter (hline : delimiter.any Byte.endsLine = false) (body : Text) :
    opensRaw (delimiter ++ '('.toUInt8 :: body) = true := by
  have hrun : ∀ b ∈ delimiter, (!Byte.endsLine b) = true := fun b hb => by
    rw [Bool.not_eq_true', ← Bool.not_eq_true]
    exact List.any_eq_false.mp hline b hb
  rw [opensRaw_iff, List.takeWhile_append_of_pos hrun, List.takeWhile_cons_of_pos (by decide)]
  exact List.mem_append_right _ List.mem_cons_self

/-- **Raw strings.** A raw string reaches past the first occurrence of its closing word. -/
theorem rawLength_extent (hopen : '('.toUInt8 ∉ delimiter)
    (hline : delimiter.any Byte.endsLine = false) (body : Text) :
    ∃ n, ReachesPast (')'.toUInt8 :: delimiter ++ [Byte.quote]) body n ∧
      rawLength (delimiter ++ '('.toUInt8 :: body) = delimiter.length + 1 + n := by
  have hrun : ∀ b ∈ delimiter, (b != '('.toUInt8) = true := fun b hb =>
    bne_iff_ne.mpr fun heq => hopen (heq ▸ hb)
  have hdelimiter : (delimiter ++ '('.toUInt8 :: body).takeWhile (· != '('.toUInt8) =
      delimiter := by
    rw [List.takeWhile_append_of_pos hrun, List.takeWhile_cons_of_neg (by decide),
      List.append_nil]
  have hbody : (delimiter ++ '('.toUInt8 :: body).drop (delimiter.length + 1) = body := by
    rw [List.drop_length_add_append]
    rfl
  have hlength : (')'.toUInt8 :: delimiter ++ [Byte.quote]).length = delimiter.length + 2 := by
    rw [List.length_append, List.length_cons, List.length_singleton]
  unfold rawLength
  rw [if_pos (opensRaw_behind_delimiter hline body)]
  simp only [hdelimiter, hbody]
  cases hfound : offsetOf (')'.toUInt8 :: delimiter ++ [Byte.quote]) body with
  | none =>
    refine ⟨body.length, .missing (not_prefix_of_offsetOf_eq_none hfound), ?_⟩
    show (delimiter ++ '('.toUInt8 :: body).length = _
    rw [List.length_append, List.length_cons]
    omega
  | some k =>
    refine ⟨_, .found (isLeast_of_offsetOf hfound), ?_⟩
    show delimiter.length + 1 + k + (delimiter.length + 2) = _
    rw [hlength]
    omega

theorem rawLength_of_not_mem
    (h : '('.toUInt8 ∉ text.takeWhile fun b => !Byte.endsLine b) :
    rawLength text = quotedLength Byte.quote text :=
  if_neg fun hopens => h (opensRaw_iff.mp hopens)

/-! ## The first token -/

/-- What may stand before the opening quote of a literal, or before the letter of a raw string. -/
def encodingMarks : List Text := [[], ascii "u8", ascii "u", ascii "U", ascii "L"]

/-- The bytes that a literal can have behind its encoding mark. -/
def literalOpeners : Text := [Byte.quote, Byte.apostrophe, 'R'.toUInt8]

theorem encodingLength_marked (hmark : mark ∈ encodingMarks) (hb : b ∈ literalOpeners)
    (rest : Text) : encodingLength (mark ++ b :: rest) = mark.length := by
  simp only [encodingMarks, literalOpeners, List.mem_cons, List.not_mem_nil, or_false]
    at hmark hb
  rcases hmark with rfl | rfl | rfl | rfl | rfl <;> rcases hb with rfl | rfl | rfl <;> rfl

theorem literal?_marked (hmark : mark ∈ encodingMarks) (hb : b ∈ literalOpeners) (rest : Text) :
    literal? (mark ++ b :: rest) = markedLiteral? mark.length (b :: rest) := by
  rw [literal?_eq, encodingLength_marked hmark hb, List.drop_left]

theorem head_marked : ∀ mark ∈ encodingMarks, ∀ b ∈ literalOpeners,
    (mark ++ [b]).head?.all fun a =>
      !(Byte.endsLine a || Byte.isSpaceOrTab a) && a != '#'.toUInt8 && a != '/'.toUInt8 := by
  decide +kernel

theorem head?_tokenize_marked {c : TokenClass} {s : Style} (hmark : mark ∈ encodingMarks)
    (hb : b ∈ literalOpeners)
    (hliteral : markedLiteral? mark.length (b :: rest) = some (.single n c s)) :
    (tokenize (mark ++ b :: rest)).head? = some ⟨0, n, c, s⟩ := by
  rw [← literal?_marked hmark hb] at hliteral
  have hhead := head_marked mark hmark b hb
  obtain ⟨a, tail, htext⟩ : ∃ a tail, mark ++ [b] = a :: tail :=
    List.exists_cons_of_ne_nil (List.append_ne_nil_of_right_ne_nil _ (List.cons_ne_nil _ _))
  rw [htext, List.head?_cons, Option.all_some, Bool.and_eq_true, Bool.and_eq_true,
    Bool.not_eq_true', bne_iff_ne, bne_iff_ne] at hhead
  obtain ⟨⟨hblank, hhash⟩, hslash⟩ := hhead
  have hcons : mark ++ b :: rest = a :: (tail ++ rest) := by
    rw [← List.cons_append, ← htext, List.append_assoc, List.singleton_append]
  rw [hcons] at hliteral ⊢
  have hlexeme : lexeme true a (tail ++ rest) = .single n c s := by
    rw [lexeme, hblank, if_neg Bool.false_ne_true, if_neg fun h => hhash h.1,
      if_neg fun h => hslash h.1, if_neg fun h => hslash h.1, plainLexeme, hliteral]
  rw [tokenize, scan, hlexeme]
  rfl

/-- **Extents of literals.** Behind any encoding mark, a raw string reaches past the first
occurrence of its closing word; a string or a character ends behind the first closing quote or
before the first line break that is not escaped; and a raw string without a parenthesis on its line
ends as a string does. What does not end reaches to the end of the text. -/
theorem literal_extents (hmark : mark ∈ encodingMarks) (body : Text) :
    (∀ delimiter, '('.toUInt8 ∉ delimiter → delimiter.any Byte.endsLine = false →
      ∃ n, ReachesPast (')'.toUInt8 :: delimiter ++ [Byte.quote]) body n ∧
        (tokenize (mark ++ 'R'.toUInt8 :: Byte.quote ::
            (delimiter ++ '('.toUInt8 :: body))).head? =
          some ⟨0, mark.length + 2 + delimiter.length + 1 + n, .string, .plain⟩) ∧
    (∃ n, QuotedExtent Byte.quote body n ∧
      (tokenize (mark ++ Byte.quote :: body)).head? =
        some ⟨0, mark.length + 1 + n, .string, .plain⟩) ∧
    (∃ n, QuotedExtent Byte.apostrophe body n ∧
      (tokenize (mark ++ Byte.apostrophe :: body)).head? =
        some ⟨0, mark.length + 1 + n, .char, .plain⟩) ∧
    (('('.toUInt8 ∉ body.takeWhile fun b => !Byte.endsLine b) →
      ∃ n, QuotedExtent Byte.quote body n ∧
        (tokenize (mark ++ 'R'.toUInt8 :: Byte.quote :: body)).head? =
          some ⟨0, mark.length + 2 + n, .string, .plain⟩) := by
  have hraw (text : Text) :
      (tokenize (mark ++ 'R'.toUInt8 :: Byte.quote :: text)).head? =
        some ⟨0, mark.length + 2 + rawLength text, .string, .plain⟩ :=
    head?_tokenize_marked hmark (by decide) rfl
  refine ⟨fun delimiter hopen hline => ?_, ?_, ?_, fun hopen => ?_⟩
  · obtain ⟨n, hreaches, hlength⟩ := rawLength_extent hopen hline body
    refine ⟨n, hreaches, ?_⟩
    rw [hraw, hlength, ← Nat.add_assoc, ← Nat.add_assoc]
  · exact ⟨_, quotedLength_extent (by decide) body, head?_tokenize_marked hmark (by decide) rfl⟩
  · exact ⟨_, quotedLength_extent (by decide) body, head?_tokenize_marked hmark (by decide) rfl⟩
  · refine ⟨_, quotedLength_extent (by decide) body, ?_⟩
    rw [hraw, rawLength_of_not_mem hopen]

/-- The first quote of this text is escaped and the next one is not. The first parenthesis closes
no raw string with the delimiter, for only one quote follows the delimiter there. -/
theorem literal_extents_escaped :
    let body := ascii "\\\")d\"\\\\\")d\"\" x"
    let first (opening : Text) := (tokenize (ascii "u8" ++ opening ++ body)).head?
    (ascii "u8" ∈ encodingMarks ∧ '('.toUInt8 ∉ ascii "d\"" ∧
      (ascii "d\"").any Byte.endsLine = false ∧
      '('.toUInt8 ∉ body.takeWhile fun b => !Byte.endsLine b) ∧
    (first (ascii "R\"d\"(") = some ⟨0, 19, .string, .plain⟩ ∧
      ReachesPast (ascii ")d\"\"") body 12) ∧
    (first (ascii "\"") = some ⟨0, 8, .string, .plain⟩ ∧ QuotedExtent Byte.quote body 5) ∧
    (first (ascii "'") = some ⟨0, 17, .char, .plain⟩ ∧ QuotedExtent Byte.apostrophe body 14) ∧
    (first (ascii "R\"") = some ⟨0, 9, .string, .plain⟩ ∧ QuotedExtent Byte.quote body 5) := by
  intro body first
  have hmet : ascii "u8" ∈ encodingMarks ∧ '('.toUInt8 ∉ ascii "d\"" ∧
      (ascii "d\"").any Byte.endsLine = false ∧
      '('.toUInt8 ∉ body.takeWhile fun b => !Byte.endsLine b := by decide +kernel
  obtain ⟨hmark, hopen, hline, hplain⟩ := hmet
  have hdelimited : first (ascii "R\"d\"(") = some ⟨0, 19, .string, .plain⟩ := by decide +kernel
  have hstring : first (ascii "\"") = some ⟨0, 8, .string, .plain⟩ := by decide +kernel
  have hchar : first (ascii "'") = some ⟨0, 17, .char, .plain⟩ := by decide +kernel
  have hundelimited : first (ascii "R\"") = some ⟨0, 9, .string, .plain⟩ := by decide +kernel
  obtain ⟨hreaches, hstops, hruns, hfalls⟩ := literal_extents hmark body
  obtain ⟨n, hn, htoken⟩ := hreaches (ascii "d\"") hopen hline
  obtain rfl : n = 12 := by
    have : 7 + n = 19 := congrArg Token.length (Option.some.inj (htoken.symm.trans hdelimited))
    omega
  obtain ⟨i, hi, htoken⟩ := hstops
  obtain rfl : i = 5 := by
    have : 3 + i = 8 := congrArg Token.length (Option.some.inj (htoken.symm.trans hstring))
    omega
  obtain ⟨j, hj, htoken⟩ := hruns
  obtain rfl : j = 14 := by
    have : 3 + j = 17 := congrArg Token.length (Option.some.inj (htoken.symm.trans hchar))
    omega
  obtain ⟨m, hm, htoken⟩ := hfalls hplain
  obtain rfl : m = 5 := by
    have : 4 + m = 9 := congrArg Token.length (Option.some.inj (htoken.symm.trans hundelimited))
    omega
  exact ⟨⟨hmark, hopen, hline, hplain⟩, ⟨hdelimited, hn⟩, ⟨hstring, hi⟩, ⟨hchar, hj⟩,
    hundelimited, hm⟩

end CodePane.Source

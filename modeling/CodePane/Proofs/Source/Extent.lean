import CodePane.Proofs.Text.Search
import CodePane.Proofs.Tidy
import CodePane.Source.Lexer
import Mathlib.Tactic.SplitIfs

/-!
# Extents of source lexemes

Every piece that the source lexer recognises lies inside the text that it was given: the lengths of
literals, numbers, operators, comments and directive lines are bounded by the length of the text,
and each lexeme `Fits`.

1. Literals, numbers, operators: `quotedLength_le`, `rawLength_le`, `numberLength_le`,
   `operatorLength_le`.
2. Comments and directives: `commandLength?_eq_some_iff`, `comment_fits`, `DirectiveRest`,
   `directive_eq`, `directive_fits`.
3. `lexeme_fits`: what begins at the head of a text.
-/

namespace CodePane.Source

open Text

/-! ## Literals -/

theorem quotedLength_le (quote : UInt8) (text : Text) : quotedLength quote text ≤ text.length := by
  fun_induction quotedLength quote text
  all_goals
    simp only [List.length_cons, List.length_nil] at *
    omega

theorem rawLength_le (text : Text) : rawLength text ≤ text.length := by
  unfold rawLength
  split
  · simp only
    split
    · next k hk =>
      have hk := offsetOf_add_length_le hk
      have hd := (List.takeWhile_prefix (· != '('.toUInt8) (l := text)).length_le
      simp only [List.length_cons, List.length_append, List.length_nil, List.length_drop] at hk
      omega
    · exact Nat.le_refl _
  · exact quotedLength_le _ _

theorem literal?_fits {text : Text} {l : Lexeme} (h : literal? text = some l) :
    l.Fits text.length := by
  unfold literal? at h
  simp only at h
  split at h
  · simp at h
  · next b rest hdrop =>
    have hlen : text.length = encodingLength text + (rest.length + 1) := by
      have := congrArg List.length hdrop
      rw [List.length_drop, List.length_cons] at this
      omega
    have hquoted (quote : UInt8) := quotedLength_le quote rest
    split_ifs at h with _ _ hraw
    · obtain rfl := Option.some.inj h
      have := hquoted Byte.quote
      exact Lexeme.fits_single (by decide) (by omega) (by omega)
    · obtain rfl := Option.some.inj h
      have := hquoted Byte.apostrophe
      exact Lexeme.fits_single (by decide) (by omega) (by omega)
    · obtain rfl := Option.some.inj h
      obtain ⟨tail, rfl⟩ := List.head?_eq_some_iff.mp hraw.2
      have := rawLength_le tail
      rw [List.length_cons] at hlen
      exact Lexeme.fits_single (by decide) (by omega) (by rw [List.tail_cons]; omega)

/-! ## Numbers -/

theorem digitsLength_le (isDigit : UInt8 → Bool) (text : Text) :
    digitsLength isDigit text ≤ text.length :=
  countWhile_le_length _ _

theorem fractionLength_le (isDigit : UInt8 → Bool) (text : Text) :
    fractionLength isDigit text ≤ text.length := by
  cases text with
  | nil => exact Nat.le_refl _
  | cons b rest =>
    have := digitsLength_le isDigit rest
    rw [fractionLength, List.length_cons]
    split <;> omega

theorem exponentLength_le (markers text : Text) : exponentLength markers text ≤ text.length := by
  cases text with
  | nil => exact Nat.le_refl _
  | cons b rest =>
    rw [exponentLength, List.length_cons]
    split
    · have hsign : (if rest.head?.any (ascii "+-").contains then 1 else 0) ≤ rest.length := by
        cases rest <;> simp
        split <;> omega
      generalize (if rest.head?.any (ascii "+-").contains then 1 else 0) = sign at hsign ⊢
      have := digitsLength_le Byte.isDigit (rest.drop sign)
      rw [List.length_drop] at this
      simp only
      omega
    · omega

theorem scaledLength_le (isDigit : UInt8 → Bool) (markers text : Text) :
    scaledLength isDigit markers text ≤ text.length := by
  unfold scaledLength
  simp only
  have hw := digitsLength_le isDigit text
  generalize digitsLength isDigit text = whole at hw ⊢
  have hf := fractionLength_le isDigit (text.drop whole)
  rw [List.length_drop] at hf
  generalize fractionLength isDigit (text.drop whole) = fraction at hf ⊢
  have he := exponentLength_le markers (text.drop (whole + fraction))
  rw [List.length_drop] at he
  omega

theorem unsuffixedLength_le (text : Text) : unsuffixedLength text ≤ text.length := by
  unfold unsuffixedLength
  split
  · next zero mark rest =>
    have hx := scaledLength_le Byte.isHexDigit (ascii "pP") rest
    have hb := digitsLength_le Byte.isBinaryDigit rest
    have ho := digitsLength_le Byte.isOctalDigit (mark :: rest)
    have hd := scaledLength_le Byte.isDigit (ascii "eE") (zero :: mark :: rest)
    simp only [List.length_cons] at *
    repeat' split
    all_goals omega
  · exact scaledLength_le _ _ _

theorem numberLength_le (text : Text) : numberLength text ≤ text.length := by
  unfold numberLength
  simp only
  have hn := unsuffixedLength_le text
  have hs := countWhile_le_length (fun b => Byte.isLetter b || b == Byte.underscore)
    (text.drop (unsuffixedLength text))
  rw [List.length_drop] at hs
  omega

theorem scaledLength_pos {b : UInt8} {rest : Text} (h : startsNumber (b :: rest) = true)
    (markers : Text) : 0 < scaledLength Byte.isDigit markers (b :: rest) := by
  unfold scaledLength
  simp only
  by_cases hd : Byte.isDigit b = true
  · unfold digitsLength
    rw [countWhile_cons_of_pos (by simp [hd])]
    omega
  · -- a point, which no run of digits takes
    have hb : b = '.'.toUInt8 := by
      simp only [startsNumber, hd, Bool.false_or, Bool.and_eq_true, beq_iff_eq] at h
      exact h.1
    subst hb
    have hz : digitsLength Byte.isDigit ('.'.toUInt8 :: rest) = 0 :=
      countWhile_cons_of_neg (by decide) rest
    rw [hz, Nat.zero_add, List.drop_zero, fractionLength, if_pos rfl]
    omega

theorem numberLength_pos {b : UInt8} {rest : Text} (h : startsNumber (b :: rest) = true) :
    0 < numberLength (b :: rest) := by
  have hs := scaledLength_pos h (ascii "eE")
  have hu : 0 < unsuffixedLength (b :: rest) := by
    unfold unsuffixedLength
    repeat' split
    all_goals omega
  unfold numberLength
  simp only
  omega

/-! ## Operators and words -/

theorem longOperators_pos : ∀ op ∈ Vocabulary.longOperators, 0 < op.length := by decide

theorem operatorLength_pos (text : Text) : 0 < operatorLength text := by
  unfold operatorLength
  split
  · next op hop => exact longOperators_pos op (List.mem_of_find?_eq_some hop)
  · omega

theorem operatorLength_le {text : Text} (h : text ≠ []) : operatorLength text ≤ text.length := by
  unfold operatorLength
  split
  · next op hop =>
    have hprefix : op.isPrefixOf text = true := by simpa using List.find?_some hop
    exact (List.isPrefixOf_iff_prefix.mp hprefix).length_le
  · exact List.length_pos_iff.mpr h

theorem identifier_length (word : Text) : (identifier word).length = word.length := by
  unfold identifier
  split <;> rfl

theorem identifier_fits {word : Text} {available : Nat} (hpos : 0 < word.length)
    (h : word.length ≤ available) : (identifier word).Fits available := by
  unfold identifier
  split
  · exact Lexeme.fits_skip hpos h
  · exact Lexeme.fits_single (by decide) hpos h
  · next hd _ => exact Lexeme.fits_single hd hpos h

/-! ## Comments -/

theorem commentText_tidy (start stop : Nat) : Tidy start stop (commentText start stop) := by
  unfold commentText
  split
  · next h => exact Tidy.ofSpan (by decide) _ h
  · exact Tidy.nil _ _

theorem commandLength?_eq_some_iff {b : UInt8} {rest : Text} {n : Nat} :
    commandLength? b rest = some n ↔ isCommandMark b = true ∧
      countWhile Byte.continuesName rest = n ∧ Vocabulary.isDocWord (rest.take n) = true := by
  unfold commandLength?
  constructor
  · intro h
    simp only at h
    split_ifs at h with hmark hlisted
    obtain rfl := Option.some.inj h
    exact ⟨hmark, rfl, by rw [← take_countWhile] at hlisted; exact hlisted⟩
  · rintro ⟨hmark, rfl, hlisted⟩
    rw [take_countWhile] at hlisted
    simp only [if_pos hmark, if_pos hlisted]
    rfl

theorem commandLength?_le {b : UInt8} {rest : Text} {n : Nat} (h : commandLength? b rest = some n) :
    n ≤ rest.length := by
  obtain ⟨-, rfl, -⟩ := commandLength?_eq_some_iff.mp h
  exact countWhile_le_length _ _

/-- The tokens of a comment lie between where its text begins and where its close ends. -/
theorem commentTokens_tidy (closing segment pos : Nat) (content : Text) (h : segment ≤ pos) :
    Tidy segment (pos + content.length + closing) (commentTokens closing segment pos content) := by
  fun_induction commentTokens closing segment pos content with
  | case1 segment pos => exact commentText_tidy segment _
  | case2 segment pos b rest n hn stop ih =>
    have hle := commandLength?_le hn
    have hcommand : Tidy pos stop [.ofSpan pos stop .docWord .boldOnly] :=
      Tidy.ofSpan (by decide) _ (by omega)
    have hrest := ih (Nat.le_refl _)
    rw [List.length_drop] at hrest
    have hfrom := (hcommand.append hrest (by omega) (by omega)).mono (Nat.le_refl _)
      (show _ ≤ pos + (b :: rest).length + closing by rw [List.length_cons]; omega)
    exact (commentText_tidy segment pos).append hfrom h (by omega)
  | case3 segment pos b rest hn ih =>
    refine (ih (by omega)).mono (Nat.le_refl _) ?_
    rw [List.length_cons]
    omega

theorem comment_fits {content : Text} {closing available : Nat}
    (h : 2 + content.length + closing ≤ available) : (comment content closing).Fits available :=
  ⟨by simp only [comment]; omega, h, commentTokens_tidy closing 0 2 content (Nat.zero_le _)⟩

theorem commentToLineEnd_fits (text : Text) :
    (commentToLineEnd text).Fits (text.length + 1 + 1) := by
  have := (List.takeWhile_prefix (fun b => !Byte.endsLine b) (l := text)).length_le
  exact comment_fits (by omega)

theorem commentToClose_fits (text : Text) :
    (commentToClose text).Fits (text.length + 1 + 1) := by
  unfold commentToClose
  split
  · next k hk =>
    have hk := offsetOf_add_length_le hk
    rw [show (ascii "*/").length = 2 from by decide] at hk
    refine comment_fits ?_
    rw [List.length_take]
    omega
  · exact comment_fits (by omega)

/-! ## Directives -/

theorem pathLength_le (left : Nat) (text : Text) : pathLength left text ≤ left := by
  fun_induction pathLength left text <;> omega

theorem directivePiece_fits (takesPath : Bool) {left : Nat} {b : UInt8} {rest : Text}
    (h : left ≤ rest.length) : (directivePiece takesPath left b rest).Fits (rest.length + 1) := by
  have hquoted (quote : UInt8) := quotedLength_le quote rest
  unfold directivePiece
  split_ifs with _ hclose
  · exact Lexeme.fits_single (by decide) (by omega) (by omega)
  · obtain ⟨tail, rfl⟩ := List.head?_eq_some_iff.mp hclose.2
    exact commentToClose_fits tail
  · have := pathLength_le left rest
    exact Lexeme.fits_single (by decide) (by omega) (by omega)
  · have := hquoted Byte.quote
    exact Lexeme.fits_single (by decide) (by omega) (by omega)
  · have := hquoted Byte.apostrophe
    exact Lexeme.fits_single (by decide) (by omega) (by omega)
  · exact Lexeme.fits_skip (by omega) (by omega)

theorem directiveBody_zero (takesPath : Bool) (pos : Nat) (text : Text) :
    directiveBody takesPath pos 0 text = .skip pos := by
  rw [directiveBody]
  rintro left b rest ⟨⟩

/-- How the rest of a directive line comes about, of which `left` bytes remain: the line has ended,
or a piece stays on it and more follows, or a piece goes beyond it. -/
inductive DirectiveRest (takesPath : Bool) : (pos left : Nat) → Text → Lexeme → Prop
  | ended (pos : Nat) (text : Text) : DirectiveRest takesPath pos 0 text (.skip pos)
  | onward {pos left : Nat} {b : UInt8} {rest : Text} {piece following : Lexeme}
      (inside : left ≤ rest.length) (here : directivePiece takesPath left b rest = piece)
      (fits : piece.Fits (rest.length + 1)) (stays : piece.length ≤ left)
      (more : DirectiveRest takesPath (pos + piece.length) (left - (piece.length - 1))
        (rest.drop (piece.length - 1)) following) :
      DirectiveRest takesPath pos (left + 1) (b :: rest)
        ⟨piece.tokensAt pos ++ following.tokens, following.length⟩
  | beyond {pos left : Nat} {b : UInt8} {rest : Text} {piece : Lexeme}
      (inside : left ≤ rest.length) (here : directivePiece takesPath left b rest = piece)
      (fits : piece.Fits (rest.length + 1)) (leaves : left < piece.length) :
      DirectiveRest takesPath pos (left + 1) (b :: rest) ⟨piece.tokensAt pos, pos + piece.length⟩

/-- The induction is on how much of the line remains, of which each piece takes some. -/
theorem directiveBody_rest (takesPath : Bool) (pos : Nat) {left : Nat} {text : Text}
    (h : left ≤ text.length) :
    DirectiveRest takesPath pos left text (directiveBody takesPath pos left text) := by
  induction left using Nat.strongRecOn generalizing pos text with
  | ind left ih =>
    cases left with
    | zero =>
      rw [directiveBody_zero]
      exact .ended pos text
    | succ left =>
      obtain ⟨b, rest, rfl⟩ := List.exists_cons_of_length_pos (Nat.lt_of_lt_of_le (by omega) h)
      have hinside : left ≤ rest.length := Nat.le_of_succ_le_succ h
      have hfits := directivePiece_fits takesPath (b := b) hinside
      rw [directiveBody]
      generalize hpiece : directivePiece takesPath left b rest = piece at hfits ⊢
      have hpos := hfits.pos
      by_cases hstays : piece.length ≤ left
      · rw [if_pos hstays]
        refine .onward hinside hpiece hfits hstays (ih _ (by omega) _ ?_)
        rw [List.length_drop]
        omega
      · rw [if_neg hstays, Lexeme.skip, List.append_nil]
        exact .beyond hinside hpiece hfits (Nat.lt_of_not_le hstays)

/-- The tokens of the rest of a directive line lie between where it begins and where it ends. -/
theorem DirectiveRest.tidy {takesPath : Bool} {pos left : Nat} {text : Text} {l : Lexeme}
    (h : DirectiveRest takesPath pos left text l) :
    pos ≤ l.length ∧ l.length ≤ pos + text.length ∧ Tidy pos l.length l.tokens := by
  induction h with
  | ended pos text => exact ⟨Nat.le_refl _, Nat.le_add_right _ _, Tidy.nil _ _⟩
  | @onward pos _ _ _ _ _ _ _ fits _ _ ih =>
    have hpos := fits.pos
    have hle := fits.le
    obtain ⟨hstart, hend, htidy⟩ := ih
    rw [List.length_drop] at hend
    refine ⟨by simp only; omega, by simp only [List.length_cons]; omega, ?_⟩
    exact (fits.tidy_tokensAt pos).append htidy (by omega) hstart
  | @beyond pos _ _ _ _ _ _ fits =>
    exact ⟨Nat.le_add_right _ _, Nat.add_le_add_left fits.le pos, fits.tidy_tokensAt pos⟩

/-- The name of a directive behind its hash sign. -/
def directiveName (text : Text) : Text :=
  (text.drop (countWhile Byte.isSpaceOrTab text)).takeWhile Byte.continuesName

/-- How far the head of a directive reaches behind its hash sign: blanks and the name. -/
def headLength (text : Text) : Nat :=
  countWhile Byte.isSpaceOrTab text + (directiveName text).length

/-- What follows the head of a directive. -/
def directiveTail (text : Text) : Lexeme :=
  let line := text.drop (headLength text)
  directiveBody (takesPath (directiveName text)) (1 + headLength text)
    (countWhile (fun b => !Byte.endsLine b) line) line

theorem directive_eq (text : Text) : directive text =
    ⟨⟨0, 1 + headLength text, .directive, .boldOnly⟩ :: (directiveTail text).tokens,
      (directiveTail text).length⟩ := by
  simp only [directive, directiveTail, headLength, directiveName, Nat.add_assoc]

theorem directiveTail_rest (text : Text) :
    DirectiveRest (takesPath (directiveName text)) (1 + headLength text)
      (countWhile (fun b => !Byte.endsLine b) (text.drop (headLength text)))
      (text.drop (headLength text)) (directiveTail text) :=
  directiveBody_rest _ _ (countWhile_le_length _ _)

theorem headLength_le (text : Text) : headLength text ≤ text.length := by
  have hblanks := countWhile_le_length Byte.isSpaceOrTab text
  have hname : (directiveName text).length ≤ _ := (List.takeWhile_prefix _).length_le
  rw [List.length_drop] at hname
  unfold headLength
  omega

theorem directive_fits (text : Text) : (directive text).Fits (text.length + 1) := by
  obtain ⟨hstart, hend, htidy⟩ := (directiveTail_rest text).tidy
  have hle := headLength_le text
  rw [List.length_drop] at hend
  rw [directive_eq]
  refine ⟨by simp only; omega, by simp only; omega, ?_⟩
  have hhead : Tidy 0 (1 + headLength text)
      [.ofSpan 0 (1 + headLength text) .directive .boldOnly] :=
    Tidy.ofSpan (by decide) _ (by omega)
  exact hhead.append htidy (Nat.zero_le _) hstart

/-! ## Lexemes -/

theorem plainLexeme_fits (b : UInt8) (rest : Text) :
    (plainLexeme b rest).Fits (rest.length + 1) := by
  unfold plainLexeme
  split
  · next l hl => exact literal?_fits hl
  · split_ifs with hnumber
    · exact Lexeme.fits_single (by decide) (numberLength_pos hnumber) (numberLength_le _)
    · exact Lexeme.fits_single (by decide) (by omega) (by omega)
    · exact Lexeme.fits_single (by decide) (by omega) (by omega)
    · exact Lexeme.fits_single (by decide) (operatorLength_pos _)
        (operatorLength_le (List.cons_ne_nil _ _))
    · have := (List.takeWhile_prefix Byte.continuesName (l := rest)).length_le
      exact identifier_fits (by rw [List.length_cons]; omega) (by rw [List.length_cons]; omega)
    · exact Lexeme.fits_skip (by omega) (by omega)

/-- **Extents.** What the source lexer recognises at the head of a text fits into it. -/
theorem lexeme_fits (freshLine : Bool) (b : UInt8) (rest : Text) :
    (lexeme freshLine b rest).Fits (rest.length + 1) := by
  unfold lexeme
  split_ifs with _ _ hline hclose
  · exact Lexeme.fits_skip (by omega) (by omega)
  · exact directive_fits rest
  · obtain ⟨tail, rfl⟩ := List.head?_eq_some_iff.mp hline.2
    exact commentToLineEnd_fits tail
  · obtain ⟨tail, rfl⟩ := List.head?_eq_some_iff.mp hclose.2
    exact commentToClose_fits tail
  · exact plainLexeme_fits b rest

end CodePane.Source

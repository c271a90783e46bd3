import CodePane.Proofs.Source.Gaps

/-!
# Resuming at a line break

The source lexer carries two things from lexeme to lexeme: where it is and whether its line is
fresh. Behind a line break that no token covers, it is where it would be at the start of a text. So
the tokens of a text in two parts are those of the first part and, moved, those of the second.

1. `commentToClose_append`, `directive_append`, `lexeme_append`: a lexeme that does not take the
   last break is the same whatever follows the break.
2. `scan_append`, `scan_shift`, `tokenize_append`: texts in two parts.
-/

namespace CodePane.Source

open Text

variable {x rest B : Text} {b : UInt8}

/-! ## Comments -/

theorem commentToLineEnd_append (h : EndsInBreak x) (B : Text) :
    commentToLineEnd (x ++ B) = commentToLineEnd x := by
  unfold commentToLineEnd
  rw [h.takeWhile_append (by decide)]

/-- A comment that does not take all of a text has its close there. -/
theorem commentToClose_append (hlt : (commentToClose x).length < 2 + x.length) (B : Text) :
    commentToClose (x ++ B) = commentToClose x := by
  unfold commentToClose at hlt ⊢
  cases hclose : offsetOf (ascii "*/") x with
  | none =>
    rw [hclose] at hlt
    exact absurd hlt (Nat.lt_irrefl _)
  | some k =>
    have hfits := offsetOf_add_length_le hclose
    rw [offsetOf_append hclose (by decide)]
    simp only
    rw [List.take_append_of_le_length (by omega)]

/-! ## Directives -/

theorem pathLength_append {left : Nat} (h : left ≤ x.length) (B : Text) :
    pathLength left (x ++ B) = pathLength left x := by
  induction x generalizing left with
  | nil =>
    obtain rfl : left = 0 := Nat.le_zero.mp h
    cases B <;> rfl
  | cons b rest ih =>
    cases left with
    | zero => rfl
    | succ left =>
      rw [List.cons_append, pathLength, pathLength, ih (by rw [List.length_cons] at h; omega)]

theorem directivePiece_append {takesPath : Bool} {left : Nat} (h : EndsInBreak rest)
    (hleft : left ≤ rest.length)
    (hlt : (directivePiece takesPath left b rest).length ≤ rest.length) (B : Text) :
    directivePiece takesPath left b (rest ++ B) = directivePiece takesPath left b rest := by
  unfold directivePiece at hlt ⊢
  rw [h.head?_append]
  by_cases hline : b = '/'.toUInt8 ∧ rest.head? = some '/'.toUInt8
  · rw [if_pos hline, if_pos hline]
  rw [if_neg hline] at hlt
  rw [if_neg hline, if_neg hline]
  by_cases hclose : b = '/'.toUInt8 ∧ rest.head? = some '*'.toUInt8
  · obtain ⟨tail, rfl⟩ := List.head?_eq_some_iff.mp hclose.2
    rw [if_pos hclose, List.tail_cons, List.length_cons] at hlt
    rw [if_pos hclose, if_pos hclose, List.cons_append, List.tail_cons, List.tail_cons,
      commentToClose_append (by omega)]
  rw [if_neg hclose] at hlt
  rw [if_neg hclose, if_neg hclose]
  by_cases hpath : takesPath = true ∧ (b = '<'.toUInt8 ∨ b = Byte.quote)
  · rw [if_pos hpath, if_pos hpath, pathLength_append hleft]
  rw [if_neg hpath] at hlt
  rw [if_neg hpath, if_neg hpath]
  by_cases hquote : b = Byte.quote
  · rw [if_pos hquote] at hlt
    have hstop : 1 + quotedLength Byte.quote rest ≤ rest.length := hlt
    rw [if_pos hquote, if_pos hquote, quotedLength_append h (by omega)]
  rw [if_neg hquote] at hlt
  rw [if_neg hquote, if_neg hquote]
  by_cases hapostrophe : b = Byte.apostrophe
  · rw [if_pos hapostrophe] at hlt
    have hstop : 1 + quotedLength Byte.apostrophe rest ≤ rest.length := hlt
    rw [if_pos hapostrophe, if_pos hapostrophe, quotedLength_append h (by omega)]
  · rw [if_neg hapostrophe, if_neg hapostrophe]

theorem DirectiveRest.append {takesPath : Bool} {pos left : Nat} {l : Lexeme}
    (hbody : DirectiveRest takesPath pos left x l) (h : EndsInBreak x) (hleft : left < x.length)
    (hlt : l.length < pos + x.length) (B : Text) :
    directiveBody takesPath pos left (x ++ B) = l := by
  induction hbody with
  | ended pos text => exact directiveBody_zero takesPath pos (text ++ B)
  | @onward pos left b rest piece following inside here fits stays _ ih =>
    simp only [List.length_cons] at hleft hlt
    have hrest : EndsInBreak rest := h.drop (n := 1) (by rw [List.length_cons]; omega)
    have hpos := fits.pos
    have hsame := directivePiece_append hrest inside (by rw [here]; omega) B
    have hmore := ih (hrest.drop (by omega)) (by rw [List.length_drop]; omega)
      (by rw [List.length_drop]; omega)
    rw [List.cons_append, directiveBody, hsame, here, if_pos stays,
      List.drop_append_of_le_length (by omega), hmore]
  -- the piece goes beyond the line, but not to the last break
  | @beyond pos left b rest piece inside here _ leaves =>
    simp only [List.length_cons] at hleft hlt
    have hrest : EndsInBreak rest := h.drop (n := 1) (by rw [List.length_cons]; omega)
    have hsame := directivePiece_append hrest inside (by rw [here]; omega) B
    rw [List.cons_append, directiveBody, hsame, here, if_neg (Nat.not_le_of_lt leaves),
      Lexeme.skip, List.append_nil]

theorem headLength_lt (h : EndsInBreak x) : headLength x < x.length := by
  have hblanks := settled_countWhile (p := Byte.isSpaceOrTab) (by decide) x h
  have hname : (directiveName x).length < _ :=
    (h.drop hblanks.lt).takeWhile_length_lt (p := Byte.continuesName) (by decide)
  rw [List.length_drop] at hname
  unfold headLength
  omega

theorem directiveName_append (h : EndsInBreak x) (B : Text) :
    directiveName (x ++ B) = directiveName x := by
  have hblanks := settled_countWhile (p := Byte.isSpaceOrTab) (by decide) x h
  unfold directiveName
  rw [hblanks.eq, List.drop_append_of_le_length (Nat.le_of_lt hblanks.lt),
    (h.drop hblanks.lt).takeWhile_append (by decide)]

theorem headLength_append (h : EndsInBreak x) (B : Text) : headLength (x ++ B) = headLength x := by
  unfold headLength
  rw [directiveName_append h, (settled_countWhile (by decide) x h).eq]

/-- A directive that does not take the last break. -/
theorem directive_append (h : EndsInBreak x) (hlt : (directive x).length ≤ x.length) (B : Text) :
    directive (x ++ B) = directive x := by
  have hhead := headLength_lt h
  have hline := h.drop hhead
  have hleft := settled_countWhile (p := fun b => !Byte.endsLine b) (by decide) _ hline
  rw [directive_eq] at hlt
  have htail : directiveTail (x ++ B) = directiveTail x := by
    unfold directiveTail
    rw [directiveName_append h, headLength_append h,
      List.drop_append_of_le_length (Nat.le_of_lt hhead)]
    simp only [hleft.eq]
    refine (directiveTail_rest x).append hline hleft.lt ?_ B
    simp only [List.length_drop] at hlt ⊢
    omega
  rw [directive_eq, directive_eq, htail, headLength_append h]

/-! ## Lexemes -/

theorem startsNumber_append (h : EndsInBreak rest) (b : UInt8) (B : Text) :
    startsNumber (b :: (rest ++ B)) = startsNumber (b :: rest) := by
  rw [startsNumber, startsNumber, h.head?_append]

theorem plainLexeme_append (h : EndsInBreak rest)
    (hlt : (plainLexeme b rest).length ≤ rest.length) (B : Text) :
    plainLexeme b (rest ++ B) = plainLexeme b rest := by
  have hliteral : literal? (b :: rest ++ B) = literal? (b :: rest) := by
    refine literal?_append (h.cons b) (fun l hl => ?_) B
    unfold plainLexeme at hlt
    simp only [hl] at hlt
    exact Nat.lt_succ_of_le hlt
  have hnumber := (settled_numberLength _ (h.cons b)).eq B
  have hoperator := operatorLength_append (h.cons b) B
  have hname := h.takeWhile_append (p := Byte.continuesName) (by decide) B
  rw [List.cons_append] at hliteral hnumber hoperator
  unfold plainLexeme
  rw [hliteral, startsNumber_append h, hnumber, hoperator, hname]

/-- **A lexeme that does not take the last break is the same whatever follows the break.** -/
theorem lexeme_append {freshLine : Bool} (h : EndsInBreak rest)
    (hlt : (lexeme freshLine b rest).length ≤ rest.length) (B : Text) :
    lexeme freshLine b (rest ++ B) = lexeme freshLine b rest := by
  unfold lexeme at hlt ⊢
  rw [h.head?_append]
  by_cases hblank : (Byte.endsLine b || Byte.isSpaceOrTab b) = true
  · rw [if_pos hblank, if_pos hblank]
  rw [if_neg hblank] at hlt
  rw [if_neg hblank, if_neg hblank]
  by_cases hhash : b = '#'.toUInt8 ∧ freshLine = true
  · rw [if_pos hhash] at hlt
    rw [if_pos hhash, if_pos hhash, directive_append h hlt]
  rw [if_neg hhash] at hlt
  rw [if_neg hhash, if_neg hhash]
  by_cases hline : b = '/'.toUInt8 ∧ rest.head? = some '/'.toUInt8
  · obtain ⟨tail, rfl⟩ := List.head?_eq_some_iff.mp hline.2
    rw [if_pos hline, if_pos hline, List.cons_append, List.tail_cons, List.tail_cons,
      commentToLineEnd_append (h.tail (by decide))]
  rw [if_neg hline] at hlt
  rw [if_neg hline, if_neg hline]
  by_cases hclose : b = '/'.toUInt8 ∧ rest.head? = some '*'.toUInt8
  · obtain ⟨tail, rfl⟩ := List.head?_eq_some_iff.mp hclose.2
    rw [if_pos hclose, List.tail_cons, List.length_cons] at hlt
    rw [if_pos hclose, if_pos hclose, List.cons_append, List.tail_cons, List.tail_cons,
      commentToClose_append (by omega)]
  · rw [if_neg hclose] at hlt
    rw [if_neg hclose, if_neg hclose, plainLexeme_append h hlt]

/-! ## Texts -/

theorem scan_shift (freshLine : Bool) (n pos : Nat) (text : Text) :
    scan freshLine (n + pos) text = (scan freshLine pos text).map (Token.shift n) := by
  fun_induction scan freshLine pos text with
  | case1 _ pos => rw [scan]; rfl
  | case2 freshLine pos b rest l ih =>
    have htokens : l.tokensAt (n + pos) = (l.tokensAt pos).map (Token.shift n) := by
      unfold Lexeme.tokensAt
      rw [List.map_map]
      refine List.map_congr_left fun t _ => ?_
      simp only [Function.comp_apply, Token.shift, Nat.add_assoc]
    rw [scan, List.map_append, ← ih, ← htokens, Nat.add_assoc]

/-- Where a text ends in a break that no token covers, the lexer goes on behind it as at the start
of a text. The induction is on the text, lexeme by lexeme; the break is a lexeme of its own. -/
theorem scan_append {freshLine : Bool} {pos : Nat} (h : EndsInBreak x)
    (hfree : ∀ t ∈ scan freshLine pos x, ¬ t.Covers (pos + x.length - 1)) (B : Text) :
    scan freshLine pos (x ++ B) = scan freshLine pos x ++ scan true (pos + x.length) B := by
  induction hn : x.length using Nat.strongRecOn generalizing freshLine pos x with
  | ind n ih =>
    subst hn
    cases x with
    | nil => exact absurd h (by decide)
    | cons b rest =>
      rw [scan] at hfree
      simp only [List.length_cons] at hfree
      rw [List.cons_append, scan, scan]
      rcases h.last_or_tail with ⟨hb, rfl⟩ | hrest
      · have hskip (text : Text) : lexeme freshLine b text = .skip 1 := by
          unfold lexeme
          rw [if_pos (by rw [hb]; rfl)]
        have hfresh : freshLineAfter freshLine b = true := by
          unfold freshLineAfter
          rw [hb]
          rfl
        rw [hskip, hskip, hfresh, List.drop_nil, scan]
        rfl
      · have hfits := lexeme_fits freshLine b rest
        have hpos := hfits.pos
        have hle := hfits.le
        -- else a token of the lexeme would cover the break
        have hlt : (lexeme freshLine b rest).length ≤ rest.length := by
          apply Nat.le_of_not_lt
          intro hlast
          obtain ⟨c, hget, hc⟩ := h.exists_last
          obtain ⟨t, ht, hcover⟩ := lexeme_covers_break hlast hget hc hrest.length_pos
          refine hfree (t.shift pos) (List.mem_append_left _ (List.mem_map_of_mem ht)) ?_
          exact Token.covers_shift.mpr hcover
        rw [lexeme_append hrest hlt]
        generalize lexeme freshLine b rest = l at *
        have hend : pos + l.length + (rest.drop (l.length - 1)).length =
            pos + (b :: rest).length := by
          rw [List.length_drop, List.length_cons]
          omega
        have hbehind : scan (freshLineAfter freshLine b) (pos + l.length)
            (rest.drop (l.length - 1) ++ B) =
              scan (freshLineAfter freshLine b) (pos + l.length) (rest.drop (l.length - 1)) ++
                scan true (pos + (b :: rest).length) B := by
          rw [← hend]
          refine ih _ ?_ (hrest.drop (by omega)) (fun t ht => ?_) rfl
          · rw [List.length_drop, List.length_cons]
            omega
          · rw [hend]
            exact hfree t (List.mem_append_right _ ht)
        rw [List.drop_append_of_le_length (by omega), hbehind, List.append_assoc]

/-- **The lexer resumes at a line break.** If a text ends in a break that no token covers, then what
follows has the tokens that it has alone. -/
theorem tokenize_append {A : Text} (h : EndsInBreak A)
    (hfree : ∀ t ∈ tokenize A, ¬ t.Covers (A.length - 1)) (B : Text) :
    tokenize (A ++ B) = tokenize A ++ (tokenize B).map (Token.shift A.length) := by
  have hscan : scan true 0 (A ++ B) = scan true 0 A ++ scan true (0 + A.length) B :=
    scan_append h (fun t ht => by rw [Nat.zero_add]; exact hfree t ht) B
  have hshift := scan_shift true A.length 0 B
  rw [Nat.zero_add] at hscan
  rw [Nat.add_zero] at hshift
  unfold tokenize
  rw [hscan, hshift]

/-- A comment inside a directive crosses one line, and the next line begins with a directive
again. -/
theorem tokenize_append_directives :
    let A := ascii "#if a /* b\n*/\n"
    let B := ascii "#endif"
    EndsInBreak A ∧ (∀ t ∈ tokenize A, ¬ t.Covers (A.length - 1)) ∧
      tokenize (A ++ B) = tokenize A ++ (tokenize B).map (Token.shift A.length) ∧
      tokenize (A ++ B) = [⟨0, 3, .directive, .boldOnly⟩, ⟨6, 7, .comment, .italicOnly⟩,
        ⟨14, 6, .directive, .boldOnly⟩] :=
  have h := tokenize_append (A := ascii "#if a /* b\n*/\n") (by decide) (by decide +kernel)
    (ascii "#endif")
  ⟨by decide, by decide +kernel, h, by decide +kernel⟩

end CodePane.Source

import CodePane.Proofs.Source.Comments
import Mathlib.Data.List.Basic

/-!
# Comments on the line of a directive

What stands on the line of a directive is taken piece by piece, apart from the lexemes of code. A
comment up to its close is the same piece there as in code. One up to the end of its line is a
single token there, whatever commands are in it: it has the tokens that it has in code only if there
are none.

1. `OpensDirective`, `directiveTail_behind`: how the lexer comes to the comment.
2. `directiveBody_piece`, `tokensFrom_behind`: the tokens that begin inside the comment.
3. `EndsComment`, `directive_comments`: the same comment in code.
-/

namespace CodePane.Source

open Text

variable {body content D d rest text x : Text} {b : UInt8} {left n pos : Nat} {path : Bool}

/-! ## Up to the comment -/

/-- A byte that can begin a piece on the line of a directive. -/
def opensPiece (b : UInt8) : Bool :=
  b == '/'.toUInt8 || b == '<'.toUInt8 || b == Byte.quote || b == Byte.apostrophe

/-- A directive with nothing else on its line. -/
structure OpensDirective (D : Text) : Prop where
  hash : D.head? = some '#'.toUInt8
  inert : ∀ b ∈ D, opensPiece b = false
  unbroken : ∀ b ∈ D, Byte.endsLine b = false

theorem directivePiece_inert (hb : opensPiece b = false) (path : Bool) (left : Nat)
    (rest : Text) : directivePiece path left b rest = .skip 1 := by
  simp only [opensPiece, Bool.or_eq_false_iff, beq_eq_false_iff_ne] at hb
  obtain ⟨⟨⟨hslash, hangle⟩, hquote⟩, hapostrophe⟩ := hb
  unfold directivePiece
  rw [if_neg fun h => hslash h.1, if_neg fun h => hslash h.1,
    if_neg fun h => h.2.elim hangle hquote, if_neg hquote, if_neg hapostrophe]

/-- The lexer passes byte by byte over what begins no piece. -/
theorem directiveBody_inert (h : ∀ b ∈ x, opensPiece b = false) (hn : 0 < n) :
    directiveBody path pos (x.length + n) (x ++ text) =
      directiveBody path (pos + x.length) n text := by
  induction x generalizing pos with
  | nil => rw [List.length_nil, Nat.zero_add]; rfl
  | cons b x ih =>
    obtain ⟨hb, hx⟩ := List.forall_mem_cons.mp h
    have hleft : (b :: x).length + n = (x.length + n) + 1 := by
      rw [List.length_cons]
      omega
    have hstays : 1 ≤ x.length + n := by omega
    have hnext : directiveBody path (pos + 1) (x.length + n) (x ++ text) = _ := ih hx
    rw [hleft, List.cons_append, directiveBody, directivePiece_inert hb, Lexeme.skip]
    simp only [if_pos hstays]
    rw [show (1 : Nat) - 1 = 0 from rfl, Nat.sub_zero, List.drop_zero, hnext, List.length_cons,
      Nat.add_assoc pos, Nat.add_comm 1]
    rfl

theorem directiveName_behind (d rest : Text) :
    directiveName (d ++ '/'.toUInt8 :: rest) = directiveName d := by
  unfold directiveName
  rw [countWhile_append_cons_of_neg (by decide),
    List.drop_append_of_le_length (countWhile_le_length _ d),
    takeWhile_append_cons_of_neg (by decide)]

theorem headLength_behind (d rest : Text) :
    headLength (d ++ '/'.toUInt8 :: rest) = headLength d := by
  unfold headLength
  rw [directiveName_behind, countWhile_append_cons_of_neg (by decide)]

theorem directiveTail_behind (hinert : ∀ b ∈ d, opensPiece b = false)
    (hunbroken : ∀ b ∈ d, Byte.endsLine b = false) (rest : Text) :
    directiveTail (d ++ '/'.toUInt8 :: rest) = directiveBody (takesPath (directiveName d))
      (1 + d.length) (lineLength rest + 1) ('/'.toUInt8 :: rest) := by
  have hle := headLength_le d
  have hline : lineLength (d.drop (headLength d) ++ '/'.toUInt8 :: rest) =
      (d.drop (headLength d)).length + (lineLength rest + 1) := by
    have hmore : ∀ b ∈ d.drop (headLength d), (!Byte.endsLine b) = true := by
      intro b hb
      rw [hunbroken b (List.mem_of_mem_drop hb)]
      rfl
    rw [← lineLength_cons (b := '/'.toUInt8) (by decide), lineLength, countWhile,
      List.takeWhile_append_of_pos hmore, List.length_append]
    rfl
  have hbefore : ∀ b ∈ d.drop (headLength d), opensPiece b = false :=
    fun b hb => hinert b (List.mem_of_mem_drop hb)
  have hpos : 1 + headLength d + (d.drop (headLength d)).length = 1 + d.length := by
    rw [List.length_drop]
    omega
  unfold directiveTail
  rw [directiveName_behind, headLength_behind, List.drop_append_of_le_length hle]
  simp only
  rw [← lineLength, hline, directiveBody_inert hbefore (Nat.succ_pos _), hpos]

/-! ## The tokens of the comment -/

theorem directiveBody_piece (path : Bool) (pos : Nat) (b : UInt8) (h : left ≤ rest.length) :
    let piece := directivePiece path left b rest
    let body := directiveBody path pos (left + 1) (b :: rest)
    pos + piece.length ≤ body.length ∧ ∃ following,
      body.tokens = piece.tokensAt pos ++ following ∧
        Tidy (pos + piece.length) body.length following := by
  intro piece body
  have hrest : DirectiveRest path pos (left + 1) (b :: rest) body :=
    directiveBody_rest path pos (Nat.succ_le_succ h)
  generalize body = l at hrest ⊢
  cases hrest with
  | onward _ here fits _ more =>
    obtain ⟨hstart, hend, htidy⟩ := more.tidy
    subst here
    exact ⟨hstart, _, rfl, htidy⟩
  | beyond _ here =>
    subst here
    exact ⟨Nat.le_refl _, [], (List.append_nil _).symm, Tidy.nil _ _⟩

/-- The tokens of a text that begin in `[start, stop)`. -/
def tokensFrom (text : Text) (start stop : Nat) : List Token :=
  (tokenize text).filter fun t => start ≤ t.start && t.start < stop

theorem tokenize_directive (text : Text) : tokenize ('#'.toUInt8 :: text) =
    [⟨0, 1 + headLength text, .directive, .boldOnly⟩] ++ ((directiveTail text).tokens ++
      scan false (directiveTail text).length (text.drop ((directiveTail text).length - 1))) := by
  have hlexeme : lexeme true '#'.toUInt8 text = directive text := rfl
  rw [tokenize, scan, hlexeme, directive_eq, Lexeme.tokensAt, Token.map_shift_zero, Nat.zero_add]
  rfl

/-- Behind a directive the tokens are those of the piece there. -/
theorem tokensFrom_behind (hD : OpensDirective D) {piece : Lexeme}
    (hpiece : ∀ path, directivePiece path (lineLength rest) '/'.toUInt8 rest = piece) :
    tokensFrom (D ++ '/'.toUInt8 :: rest) D.length (D.length + piece.length) =
      piece.tokensAt D.length := by
  obtain ⟨d, rfl⟩ := List.head?_eq_some_iff.mp hD.hash
  obtain ⟨-, hinert⟩ := List.forall_mem_cons.mp hD.inert
  obtain ⟨-, hunbroken⟩ := List.forall_mem_cons.mp hD.unbroken
  have hlength : ('#'.toUInt8 :: d).length = 1 + d.length := by
    rw [List.length_cons, Nat.add_comm]
  have hline : lineLength rest ≤ rest.length := countWhile_le_length _ _
  have hfits := directivePiece_fits (takesPath (directiveName d)) (b := '/'.toUInt8) hline
  have hbody := directiveBody_piece (takesPath (directiveName d)) (1 + d.length) '/'.toUInt8 hline
  rw [← directiveTail_behind hinert hunbroken, hpiece] at hbody
  rw [hpiece] at hfits
  obtain ⟨hreach, following, htokens, hfollowing⟩ := hbody
  have hhead : Tidy 0 (1 + d.length) [⟨0, 1 + headLength d, .directive, .boldOnly⟩] := by
    have hle := headLength_le d
    have hspan : Tidy 0 (1 + headLength d) [.ofSpan 0 (1 + headLength d) .directive .boldOnly] :=
      Tidy.ofSpan (by decide) _ (by omega)
    exact hspan.mono (Nat.le_refl 0) (by omega)
  rw [hlength, tokensFrom, List.cons_append, tokenize_directive, htokens, headLength_behind,
    List.append_assoc]
  generalize directiveTail (d ++ '/'.toUInt8 :: rest) = tail at hreach hfollowing ⊢
  exact hhead.filter_middle (hfits.tidy_tokensAt _)
    (hfollowing.append (scan_tidy false _ _) hreach (Nat.le_add_right _ _))

/-! ## The same comment in code -/

/-- Where a comment ends behind its opening: just behind the first close, or with the text. -/
inductive ClosesAt (body : Text) : Nat → Prop
  | close {k : Nat} (first : IsLeast {k | ascii "*/" <+: body.drop k} k) : ClosesAt body (k + 2)
  | never (unclosed : ∀ k, ¬ ascii "*/" <+: body.drop k) : ClosesAt body body.length

theorem ClosesAt.length_eq (h : ClosesAt body n) : (commentToClose body).length = 2 + n := by
  unfold commentToClose
  cases h with
  | @close k first =>
    have hfound := offsetOf_of_isLeast first
    have hle := offsetOf_add_length_le hfound
    rw [hfound]
    simp only [comment, List.length_take]
    omega
  | never unclosed =>
    cases hfound : offsetOf (ascii "*/") body with
    | none => rfl
    | some k => exact absurd (prefix_of_offsetOf hfound) (unclosed k)

theorem commentTokens_eq_commentText {closing segment : Nat}
    (h : ∀ t ∈ commentTokens closing segment pos content, t.tokenClass ≠ .docWord) :
    commentTokens closing segment pos content =
      commentText segment (pos + content.length + closing) := by
  fun_induction commentTokens closing segment pos content with
  | case1 => rfl
  | case2 => exact absurd rfl (h _ (List.mem_append_right _ List.mem_cons_self))
  | case3 segment pos b rest hn ih =>
    rw [ih h, List.length_cons, Nat.add_assoc pos, Nat.add_comm 1]

/-- Up to the end of its line a comment is a single token just if no command is in it. -/
theorem commentToLineEnd_tokens_iff {stop : Nat} (hstop : stop = 2 + lineLength body) :
    (commentToLineEnd body).tokens = [⟨0, stop, .comment, .italicOnly⟩] ↔
      ∀ k j, ¬ IsCommand (ascii "//" ++ body) 2 stop k j := by
  have htiled : TiledComment (ascii "//" ++ body) stop (stop + 0) (commentToLineEnd body).tokens :=
    comment_tiled List.takeWhile_append_dropWhile hstop
  constructor
  · intro hsingle k j hcommand
    obtain ⟨t, ht, hclass, -⟩ := (htiled.commands k j).mpr hcommand
    rw [hsingle] at ht
    obtain rfl := List.mem_singleton.mp ht
    cases hclass
  · intro hnone
    have hplain : ∀ t ∈ (commentToLineEnd body).tokens, t.tokenClass ≠ .docWord := by
      intro t ht hclass
      exact hnone _ _ ((htiled.commands t.start t.stop).mp ⟨t, ht, hclass, rfl, rfl⟩)
    have hpos : 0 < stop := by omega
    have hspan : 2 + (body.takeWhile fun b => !Byte.endsLine b).length + 0 = stop := hstop.symm
    refine (commentTokens_eq_commentText hplain).trans ?_
    rw [hspan, commentText, if_pos hpos]
    rfl

/-- **Comments behind a directive.** A comment up to its close has the tokens there that it has in
code. A comment up to the end of its line is a single token there, so it has the tokens that it has
in code if and only if no command is in it. -/
theorem directive_comments (hD : OpensDirective D) (body : Text) :
    (∀ n, ClosesAt body n →
      tokensFrom (D ++ (ascii "/*" ++ body)) D.length (D.length + (2 + n)) =
        (tokensBefore (2 + n) (ascii "/*" ++ body)).map (Token.shift D.length)) ∧
    let C := ascii "//" ++ body
    let stop := 2 + lineLength body
    tokensFrom (D ++ C) D.length (D.length + stop) = [⟨D.length, stop, .comment, .italicOnly⟩] ∧
      (tokensFrom (D ++ C) D.length (D.length + stop) =
          (tokensBefore stop C).map (Token.shift D.length) ↔
        ∀ k j, ¬ IsCommand C 2 stop k j) := by
  constructor
  case left =>
    intro n hn
    have hpiece (path : Bool) : directivePiece path (lineLength ('*'.toUInt8 :: body)) '/'.toUInt8
        ('*'.toUInt8 :: body) = commentToClose body := rfl
    have hlexeme : lexeme true '/'.toUInt8 ('*'.toUInt8 :: body) = commentToClose body := rfl
    have hwindow := tokensFrom_behind hD hpiece
    have hbefore := tokensBefore_lexeme '/'.toUInt8 ('*'.toUInt8 :: body)
    rw [hlexeme] at hbefore
    rw [hn.length_eq] at hbefore hwindow
    exact hwindow.trans (congrArg _ hbefore.symm)
  case right =>
    intro C stop
    have hpiece (path : Bool) : directivePiece path (lineLength ('/'.toUInt8 :: body)) '/'.toUInt8
        ('/'.toUInt8 :: body) = .single stop .comment .italicOnly := by
      rw [lineLength_cons (by decide)]
      show Lexeme.single (lineLength body + 1 + 1) _ _ = _
      rw [Nat.add_assoc, Nat.add_comm]
    have hwindow : tokensFrom (D ++ C) D.length (D.length + stop) =
        [Token.shift D.length ⟨0, stop, .comment, .italicOnly⟩] := tokensFrom_behind hD hpiece
    have hbefore : tokensBefore stop C = (commentToLineEnd body).tokens :=
      tokensBefore_lexeme '/'.toUInt8 ('/'.toUInt8 :: body)
    refine ⟨hwindow, ?_⟩
    rw [hwindow, hbefore, ← List.map_singleton, eq_comm,
      (List.map_injective_iff.mpr (Token.shift_injective _)).eq_iff]
    exact commentToLineEnd_tokens_iff rfl

/-- A comment that leaves the line of its directive, with a command behind the break. -/
theorem directive_comments_unclosed :
    let D := ascii "#if 1 "
    let C := ascii "/* a\n@param"
    OpensDirective D ∧ ClosesAt (ascii " a\n@param") 9 ∧
      tokensFrom (D ++ C) 6 17 = (tokensBefore 11 C).map (Token.shift 6) ∧
      tokensFrom (D ++ C) 6 17 = [⟨6, 5, .comment, .italicOnly⟩, ⟨11, 6, .docWord, .boldOnly⟩] := by
  intro D C
  have hD : OpensDirective D := ⟨rfl, by decide +kernel, by decide +kernel⟩
  have hcloses : ClosesAt (ascii " a\n@param") 9 := by
    refine .never fun k hclose => ?_
    have hmem : '*'.toUInt8 ∈ ascii " a\n@param" :=
      List.mem_of_mem_drop (hclose.subset List.mem_cons_self)
    exact absurd hmem (by decide)
  exact ⟨hD, hcloses, (directive_comments hD (ascii " a\n@param")).1 9 hcloses, by decide +kernel⟩

/-- A command that the directive's line hides. -/
theorem directive_comments_hidden :
    let D := ascii "#if "
    let C := ascii "// @param"
    OpensDirective D ∧ 2 + lineLength (ascii " @param") = C.length ∧
      tokensFrom (D ++ C) 4 13 = [⟨4, 9, .comment, .italicOnly⟩] ∧
      (tokensBefore 9 C).map (Token.shift 4) =
        [⟨4, 3, .comment, .italicOnly⟩, ⟨7, 6, .docWord, .boldOnly⟩] ∧
      tokensFrom (D ++ C) 4 13 ≠ (tokensBefore 9 C).map (Token.shift 4) :=
  ⟨⟨rfl, by decide +kernel, by decide +kernel⟩, by decide, by decide +kernel, by decide +kernel,
    by decide +kernel⟩

end CodePane.Source

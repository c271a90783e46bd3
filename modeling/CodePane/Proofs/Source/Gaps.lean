import CodePane.Proofs.Source.Edges
import CodePane.Proofs.Source.LineBreak

/-!
# What source lexemes leave without a token

Most lexemes are solid: each of their bytes belongs to a token. The others are a directive, which
leaves bytes of its own line only, a name that no word list has, and a single byte that opens
nothing.

1. `Lexeme.Solid`: lexemes without gaps.
2. `comment_solid`, `DirectiveParts`, `directive_parts`: comments, and what a directive is made of.
3. `opensToken`, `Kind`, `lexeme_kind`: the kinds of lexemes.
4. `lexeme_covers_break`: no lexeme leaves out a break behind its first byte.
-/

namespace CodePane

/-- Each byte of a lexeme belongs to one of its tokens, and none of these is a directive. -/
structure Lexeme.Solid (l : Lexeme) : Prop where
  covers : ∀ k < l.length, ∃ t ∈ l.tokens, t.Covers k
  classed : ∀ t ∈ l.tokens, t.tokenClass ≠ .directive

theorem Lexeme.solid_single {c : TokenClass} (hc : c ≠ .directive) (n : Nat) (s : Style) :
    (Lexeme.single n c s).Solid where
  covers k hk := ⟨_, List.mem_singleton.mpr rfl, Nat.zero_le k, by rwa [Token.stop, Nat.zero_add]⟩
  classed t ht := by rwa [List.mem_singleton.mp ht]

namespace Source

open Text

variable {b c : UInt8} {rest text : Text} {k n : Nat}

/-! ## Comments -/

theorem commentText_covers {segment stop : Nat} (hk : segment ≤ k) (hlt : k < stop) :
    ∃ t ∈ commentText segment stop, t.Covers k := by
  unfold commentText
  rw [if_pos (Nat.lt_of_le_of_lt hk hlt)]
  exact ⟨_, List.mem_singleton.mpr rfl, Token.covers_ofSpan.mpr ⟨hk, hlt⟩⟩

/-- The tokens of a comment leave out nothing from where its text begins to where its close ends. -/
theorem commentTokens_covers {closing segment pos : Nat} {content : Text} (hle : segment ≤ pos)
    (hk : segment ≤ k) (hlt : k < pos + content.length + closing) :
    ∃ t ∈ commentTokens closing segment pos content, t.Covers k := by
  fun_induction commentTokens closing segment pos content with
  | case1 segment pos => exact commentText_covers hk hlt
  | case2 segment pos b rest n hn stop ih =>
    have hcommand := commandLength?_le hn
    rw [List.length_cons] at hlt
    by_cases hbefore : k < pos
    · obtain ⟨t, ht, hcovers⟩ := commentText_covers hk hbefore
      exact ⟨t, List.mem_append_left _ ht, hcovers⟩
    by_cases hinside : k < stop
    · exact ⟨_, List.mem_append_right _ List.mem_cons_self,
        Token.covers_ofSpan.mpr ⟨Nat.le_of_not_lt hbefore, hinside⟩⟩
    · obtain ⟨t, ht, hcovers⟩ := ih (Nat.le_refl stop) (Nat.le_of_not_lt hinside)
        (by rw [List.length_drop]; omega)
      exact ⟨t, List.mem_append_right _ (List.mem_cons_of_mem _ ht), hcovers⟩
  | case3 segment pos b rest hn ih =>
    rw [List.length_cons] at hlt
    exact ih (by omega) hk (by omega)

theorem commentText_class {segment stop : Nat} :
    ∀ t ∈ commentText segment stop, t.tokenClass = .comment := by
  intro t ht
  unfold commentText at ht
  split at ht
  · rw [List.mem_singleton.mp ht]
    rfl
  · exact absurd ht List.not_mem_nil

theorem commentTokens_class {closing segment pos : Nat} {content : Text} :
    ∀ t ∈ commentTokens closing segment pos content,
      t.tokenClass = .docWord ∨ t.tokenClass = .comment := by
  fun_induction commentTokens closing segment pos content with
  | case1 => exact fun t ht => .inr (commentText_class t ht)
  | case2 segment pos b rest n hn stop ih =>
    intro t ht
    rcases List.mem_append.mp ht with ht | ht
    · exact .inr (commentText_class t ht)
    rcases List.mem_cons.mp ht with rfl | ht
    · exact .inl rfl
    · exact ih t ht
  | case3 segment pos b rest hn ih => exact ih

theorem comment_solid (content : Text) (closing : Nat) : (comment content closing).Solid where
  covers k hk := commentTokens_covers (Nat.zero_le 2) (Nat.zero_le k) hk
  classed t ht := by
    rcases commentTokens_class t ht with hclass | hclass
    · rw [hclass]
      exact TokenClass.noConfusion
    · rw [hclass]
      exact TokenClass.noConfusion

theorem commentToClose_solid (text : Text) : (commentToClose text).Solid := by
  unfold commentToClose
  split
  · exact comment_solid _ 2
  · exact comment_solid _ 0

/-! ## Directives -/

theorem directivePiece_solid (takesPath : Bool) (left : Nat) (b : UInt8) (rest : Text) :
    directivePiece takesPath left b rest = .skip 1 ∨
      (directivePiece takesPath left b rest).Solid := by
  unfold directivePiece
  split_ifs
  · exact .inr (Lexeme.solid_single (by decide) _ _)
  · exact .inr (commentToClose_solid _)
  · exact .inr (Lexeme.solid_single (by decide) _ _)
  · exact .inr (Lexeme.solid_single (by decide) _ _)
  · exact .inr (Lexeme.solid_single (by decide) _ _)
  · exact .inl rfl

/-- The rest of a directive line has tokens of other classes only. It reaches to the end of the
line, and what it has beyond belongs to its tokens: the last piece on the line goes there. -/
theorem DirectiveRest.solid_behind {takesPath : Bool} {pos left : Nat} {l : Lexeme}
    (h : DirectiveRest takesPath pos left text l) :
    (∀ t ∈ l.tokens, t.tokenClass ≠ .directive) ∧ pos + left ≤ l.length ∧
      ∀ k, pos + left ≤ k → k < l.length → ∃ t ∈ l.tokens, t.Covers k := by
  have hpieces {pos left : Nat} {b : UInt8} {rest : Text} {piece : Lexeme}
      (here : directivePiece takesPath left b rest = piece) :
      ∀ t ∈ piece.tokensAt pos, t.tokenClass ≠ .directive := by
    intro t ht
    obtain ⟨u, hu, rfl⟩ := List.mem_map.mp ht
    rcases directivePiece_solid takesPath left b rest with hskip | hsolid
    · rw [← here, hskip] at hu
      exact absurd hu List.not_mem_nil
    · exact hsolid.classed u (here ▸ hu)
  induction h with
  | ended pos text =>
    refine ⟨List.forall_mem_nil _, Nat.le_refl _, ?_⟩
    intro k hk hlt
    exact absurd hlt (Nat.not_lt_of_le hk)
  | onward _ here fits _ _ ih =>
    obtain ⟨hclassed, hreach, hcovers⟩ := ih
    have hpos := fits.pos
    refine ⟨fun t ht => (List.mem_append.mp ht).elim (hpieces here t) (hclassed t), ?_, ?_⟩
    · simp only
      omega
    · intro k hk hlt
      obtain ⟨t, ht, hcover⟩ := hcovers k (by omega) hlt
      exact ⟨t, List.mem_append_right _ ht, hcover⟩
  | @beyond pos left b rest piece _ here _ leaves =>
    refine ⟨hpieces here, Nat.add_le_add_left leaves pos, ?_⟩
    intro k hk hlt
    simp only at hlt
    obtain ⟨j, rfl⟩ := Nat.exists_eq_add_of_le (Nat.le_trans (Nat.le_add_right _ _) hk)
    rcases directivePiece_solid takesPath left b rest with hskip | hsolid
    · rw [here] at hskip
      have hone : piece.length = 1 := by rw [hskip]; rfl
      omega
    · rw [here] at hsolid
      obtain ⟨u, hu, hcover⟩ := hsolid.covers j (by omega)
      exact ⟨u.shift pos, List.mem_map_of_mem hu, Token.covers_shift.mpr hcover⟩

/-- How many bytes of a text stand on its first line. -/
def lineLength (text : Text) : Nat := countWhile (fun b => !Byte.endsLine b) text

theorem lineLength_cons (hb : Byte.endsLine b = false) (rest : Text) :
    lineLength (b :: rest) = lineLength rest + 1 :=
  countWhile_cons_of_pos (by rw [hb]; rfl) rest

theorem lineLength_le (h : text[k]? = some b) (hb : Byte.endsLine b = true) :
    lineLength text ≤ k :=
  countWhile_le_of_getElem? h (by rw [hb]; rfl)

theorem lineLength_eq_add {p : UInt8 → Bool} (hp : FailsOnBreaks p) (text : Text) :
    lineLength text = countWhile p text + lineLength (text.drop (countWhile p text)) := by
  refine countWhile_drop (countWhile_mono ?_ text)
  intro b hb
  rw [hp.not_endsLine hb]
  rfl

/-- A directive of which `line` bytes are on its line: its head, and tokens of other classes to
which all that it has beyond its line belongs. -/
structure DirectiveParts (l : Lexeme) (line : Nat) (head : Token) (body : List Token) : Prop where
  tokens : l.tokens = head :: body
  headStart : head.start = 0
  headClass : head.tokenClass = .directive
  bodyClass : ∀ t ∈ body, t.tokenClass ≠ .directive
  reaches : line ≤ l.length
  covers : ∀ k, line ≤ k → k < l.length → ∃ t ∈ body, t.Covers k

theorem directive_parts (rest : Text) :
    ∃ head body, DirectiveParts (directive rest) (1 + lineLength rest) head body := by
  obtain ⟨hclassed, hreach, hcovers⟩ := (directiveTail_rest rest).solid_behind
  have hblanks := lineLength_eq_add (p := Byte.isSpaceOrTab) (by decide) rest
  have hname := lineLength_eq_add (p := Byte.continuesName) (by decide)
    (rest.drop (countWhile Byte.isSpaceOrTab rest))
  rw [List.drop_drop] at hname
  have hline : 1 + lineLength rest =
      1 + headLength rest + lineLength (rest.drop (headLength rest)) := by
    rw [hblanks, hname]
    simp only [headLength, directiveName, countWhile, Nat.add_assoc]
  rw [directive_eq, hline]
  exact ⟨_, _, rfl, rfl, rfl, hclassed, hreach, hcovers⟩

/-! ## Kinds of lexemes -/

/-- A byte that opens a token wherever a lexeme begins with it. -/
def opensToken (b : UInt8) : Bool :=
  b == Byte.quote || b == Byte.apostrophe || isBracket b || isDelimiter b ||
    Vocabulary.beginsOperator b

theorem endsName_of_opensToken (h : opensToken b = true) : Byte.endsName b = true := by
  simp only [opensToken, Bool.or_eq_true, beq_iff_eq] at h
  rcases h with (((rfl | rfl) | h) | h) | h
  · decide
  · decide
  · exact Byte.endsName_of_isMark (isMark_of_isBracket h)
  · exact Byte.endsName_of_isMark (isMark_of_isDelimiter h)
  · exact Byte.endsName_of_isMark (isMark_of_beginsOperator h)

/-- What a lexeme that begins with `b` is, by what it leaves without a token. -/
inductive Kind (freshLine : Bool) (b : UInt8) (rest : Text) : Lexeme → Prop
  | solid {l : Lexeme} (solid : l.Solid) : Kind freshLine b rest l
  | directive (hash : b = '#'.toUInt8) (fresh : freshLine = true) :
      Kind freshLine b rest (directive rest)
  | name (starts : Byte.startsName b = true)
      (unlisted : classify ((b :: rest).takeWhile Byte.continuesName) = .default) :
      Kind freshLine b rest (.skip (countWhile Byte.continuesName (b :: rest)))
  | stray (opens : opensToken b = false) (ends : Byte.endsName b = true) :
      Kind freshLine b rest (.skip 1)

theorem classify_ne_directive (word : Text) : classify word ≠ .directive := by
  unfold classify
  split_ifs
  all_goals decide

theorem identifier_kind {freshLine : Bool} (hb : Byte.startsName b = true) (rest : Text) :
    Kind freshLine b rest (identifier (b :: rest.takeWhile Byte.continuesName)) := by
  have hclass := classify_ne_directive ((b :: rest).takeWhile Byte.continuesName)
  rw [cons_takeWhile_continuesName hb]
  unfold identifier
  split
  · next hdefault => exact .name hb hdefault
  · exact .solid (Lexeme.solid_single (by decide) _ _)
  · exact .solid (Lexeme.solid_single hclass _ _)

theorem literal?_ne_none_of_quote (hb : b = Byte.quote ∨ b = Byte.apostrophe) (rest : Text) :
    literal? (b :: rest) ≠ none := by
  rcases hb with rfl | rfl
  · exact Option.some_ne_none _
  · exact Option.some_ne_none _

theorem plainLexeme_kind (freshLine : Bool) (b : UInt8) (rest : Text) :
    Kind freshLine b rest (plainLexeme b rest) := by
  unfold plainLexeme
  split
  · next l hl =>
    obtain ⟨n, c, rfl, hclass, -, -⟩ := literal?_eq_some hl
    refine .solid (Lexeme.solid_single ?_ _ _)
    rcases hclass with rfl | rfl
    · decide
    · decide
  · next hliteral =>
    split_ifs with hnumber hdelimiter hbracket hoperator hname
    · exact .solid (Lexeme.solid_single (by decide) _ _)
    · exact .solid (Lexeme.solid_single (by decide) _ _)
    · exact .solid (Lexeme.solid_single (by decide) _ _)
    · exact .solid (Lexeme.solid_single (by decide) _ _)
    · exact identifier_kind hname rest
    · refine .stray ?_ (endsName_of_stray hnumber hname)
      have hquote : ¬ (b = Byte.quote ∨ b = Byte.apostrophe) := fun hb =>
        literal?_ne_none_of_quote hb rest hliteral
      simp only [not_or, Bool.not_eq_true] at hquote hdelimiter hbracket hoperator
      simp only [opensToken, Bool.or_eq_false_iff, beq_eq_false_iff_ne]
      exact ⟨⟨⟨hquote, hbracket⟩, hdelimiter⟩, hoperator⟩

/-- **Each lexeme is of one of the kinds.** -/
theorem lexeme_kind (freshLine : Bool) (b : UInt8) (rest : Text) :
    Kind freshLine b rest (lexeme freshLine b rest) := by
  unfold lexeme
  split_ifs with hblank hhash
  · refine .stray ?_ (endsName_of_blank hblank)
    rw [← Bool.not_eq_true]
    intro hopens
    have hink := Byte.isInk_of_holds (p := opensToken) (by decide) hopens
    rw [Byte.isInk_eq_not, hblank] at hink
    cases hink
  · exact .directive hhash.1 hhash.2
  · exact .solid (comment_solid _ 0)
  · exact .solid (commentToClose_solid _)
  · exact plainLexeme_kind freshLine b rest

/-- **A break behind the first byte of a lexeme belongs to one of its tokens.** -/
theorem lexeme_covers_break {freshLine : Bool} (hk : k < (lexeme freshLine b rest).length)
    (hbreak : (b :: rest)[k]? = some c) (hc : Byte.endsLine c = true) (hpos : 0 < k) :
    ∃ t ∈ (lexeme freshLine b rest).tokens, t.Covers k := by
  have hkind := lexeme_kind freshLine b rest
  generalize lexeme freshLine b rest = l at hk hkind ⊢
  cases hkind with
  | solid hsolid => exact hsolid.covers k hk
  | directive =>
    obtain ⟨head, body, hparts⟩ := directive_parts rest
    obtain ⟨j, rfl⟩ := Nat.exists_eq_add_one.mpr hpos
    -- the break ends the line or is beyond its end
    have hline : lineLength rest ≤ j := lineLength_le hbreak hc
    obtain ⟨t, ht, hcover⟩ := hparts.covers (j + 1) (by omega) hk
    exact ⟨t, by rw [hparts.tokens]; exact List.mem_cons_of_mem _ ht, hcover⟩
  | name =>
    have hname := countWhile_le_of_getElem? (p := Byte.continuesName) hbreak
      (FailsOnBreaks.eq_false (by decide) hc)
    exact absurd hk (Nat.not_lt_of_le hname)
  | stray => exact absurd hk (Nat.not_lt_of_le hpos)

end Source

end CodePane

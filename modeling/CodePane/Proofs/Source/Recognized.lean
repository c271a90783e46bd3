import CodePane.Proofs.Source.Course
import CodePane.Proofs.Source.Edges

/-!
# What source tokens stand for

A token of the source lexer is recognised by what stands at its head, and it reaches as far as the
rule for its class says. `Recognized` lists these rules. They speak of the text from the token on,
and of nothing before it.

1. `listedClass?`: the class that the word lists give a word.
2. `Recognized`: the rules.
3. `commentTokens_inset`, `directive_inset`: comments and directives.
4. `lexeme_recognized`, `tokenize_stands`: lexemes and texts.
-/

namespace CodePane.Source

open Text

variable {b : UInt8} {rest text x : Text} {n pos : Nat} {c : TokenClass} {s : Style} {t : Token}

/-! ## Word lists -/

/-- The word lists in the order in which they are asked, each with the class of its words. -/
def wordLists : List (TokenClass × (Text → Bool)) :=
  [(.keyword, Vocabulary.isReserved), (.type, Vocabulary.isTypeName),
    (.libraryName, Vocabulary.isLibraryName), (.foreignName, Vocabulary.isForeignName),
    (.markedVariable, Vocabulary.isMarkedVariable)]

def wordClasses : List TokenClass := wordLists.map Prod.fst

/-- The class of the first list that has a word. -/
def listedClass? (word : Text) : Option TokenClass :=
  (wordLists.find? fun list => list.2 word).map Prod.fst

theorem listedClass?_eq (word : Text) :
    listedClass? word = if classify word = .default then none else some (classify word) := by
  unfold listedClass? wordLists classify
  simp only [List.find?_cons, List.find?_nil]
  cases Vocabulary.isReserved word <;> cases Vocabulary.isTypeName word <;>
    cases Vocabulary.isLibraryName word <;> cases Vocabulary.isForeignName word <;>
    cases Vocabulary.isMarkedVariable word <;> rfl

theorem opensWord_of_contains {words : List Text} {word : Text}
    (hwords : ∀ word ∈ words, word.head?.any Byte.opensWord = true)
    (h : words.contains word = true) : word.head?.any Byte.opensWord = true :=
  hwords word (List.contains_iff_mem.mp h)

theorem opensWord_of_isPrefixOf {head word : Text} (hhead : head.head?.any Byte.opensWord = true)
    (h : head.isPrefixOf word = true) : word.head?.any Byte.opensWord = true := by
  obtain ⟨tail, rfl⟩ := List.isPrefixOf_iff_prefix.mp h
  cases head with
  | nil => cases hhead
  | cons b head => exact hhead

theorem opensWord_of_wordLists {word : Text} :
    ∀ list ∈ wordLists, list.2 word = true → word.head?.any Byte.opensWord = true := by
  unfold wordLists
  simp only [List.forall_mem_cons, List.not_mem_nil, false_implies, implies_true, and_true]
  refine ⟨?reserved, ?type, ?library, ?foreign, ?marked⟩
  case reserved => exact opensWord_of_contains (by decide)
  case type => exact opensWord_of_contains (by decide)
  case library => exact opensWord_of_contains (by decide)
  case foreign =>
    intro h
    rcases Bool.or_eq_true_iff.mp h with h | h
    · exact opensWord_of_isPrefixOf (by decide) h
    · exact opensWord_of_contains (by decide) h
  case marked =>
    intro h
    rcases Bool.or_eq_true_iff.mp h with h | h
    · rcases Bool.or_eq_true_iff.mp h with h | h
      · exact opensWord_of_isPrefixOf (by decide) h
      · exact opensWord_of_isPrefixOf (by decide) h
    · exact opensWord_of_isPrefixOf (by decide) h

theorem head_of_listedClass? (h : listedClass? (x.take n) = some c) :
    ∃ b rest, x = b :: rest ∧ Byte.opensWord b = true := by
  obtain ⟨list, hlist, -⟩ := Option.map_eq_some_iff.mp h
  have hlisted : list.2 (x.take n) = true := by simpa using List.find?_some hlist
  have hopens := opensWord_of_wordLists _ (List.mem_of_find?_eq_some hlist) hlisted
  cases x with
  | nil => simp at hopens
  | cons b rest =>
    cases n with
    | zero => simp at hopens
    | succ n => exact ⟨b, rest, rfl, hopens⟩

/-! ## The rules -/

/-- The regions that one byte opens, with their styles. -/
def regions : List (TokenClass × Style) :=
  [(.string, .plain), (.char, .plain), (.comment, .italicOnly), (.directive, .boldOnly),
    (.includePath, .plain)]

/-- A token of `n` bytes at the head of a text, by its class and style. -/
inductive Recognized (x : Text) (n : Nat) : TokenClass → Style → Prop
  | word {c : TokenClass} (length : n = countWhile Byte.continuesName x)
      (listed : listedClass? (x.take n) = some c) :
      Recognized x n c (if c = .keyword then .boldOnly else .plain)
  | number (starts : startsNumber x = true) (length : n = numberLength x) :
      Recognized x n .number .plain
  | operator {b : UInt8} {rest : Text} (head : x = b :: rest)
      (starts : Vocabulary.beginsOperator b = true) (length : n = operatorLength x) :
      Recognized x n .operator .plain
  | delimiter {b : UInt8} {rest : Text} (head : x = b :: rest) (starts : isDelimiter b = true)
      (length : n = 1) : Recognized x n .delimiter .plain
  | bracket {b : UInt8} {rest : Text} (head : x = b :: rest) (starts : isBracket b = true)
      (length : n = 1) : Recognized x n .bracket .plain
  | docWord {mark : UInt8} {word tail : Text} (head : x = mark :: (word ++ tail))
      (marks : isCommandMark mark = true) (listed : Vocabulary.isDocWord word = true)
      (length : n = word.length + 1) : Recognized x n .docWord .boldOnly
  | region {c : TokenClass} {s : Style} {b : UInt8} {rest : Text} (listed : (c, s) ∈ regions)
      (head : x = b :: rest) (starts : Byte.isAscii b = true) (ends : Edge Byte.endsName x n) :
      Recognized x n c s

/-- A token of a text where a rule puts it. -/
def Stands (x : Text) (t : Token) : Prop :=
  Recognized (x.drop t.start) t.length t.tokenClass t.style

theorem Stands.shift (h : Stands (x.drop pos) t) : Stands x (t.shift pos) := by
  unfold Stands at h ⊢
  rw [List.drop_drop] at h
  exact h

/-- A token inside a comment or a directive, which is never a word. -/
def Inset (x : Text) (t : Token) : Prop := Stands x t ∧ t.tokenClass ∉ wordClasses

theorem Inset.shift (h : Inset (x.drop pos) t) : Inset x (t.shift pos) := ⟨h.1.shift, h.2⟩

theorem wordClasses_of_regions : ∀ r ∈ regions, r.1 ∉ wordClasses := by decide

theorem docWord_notMem_wordClasses : TokenClass.docWord ∉ wordClasses := by decide

theorem Inset.region {start stop : Nat} (hlisted : (c, s) ∈ regions) (hb : x[start]? = some b)
    (hascii : Byte.isAscii b = true) (hend : Edge Byte.endsName x stop) (hlt : start < stop) :
    Inset x (.ofSpan start stop c s) := by
  obtain ⟨hin, rfl⟩ := List.getElem?_eq_some_iff.mp hb
  have hhead : x.drop start = x[start] :: x.drop (start + 1) := List.drop_eq_getElem_cons hin
  exact ⟨.region hlisted hhead hascii (hend.drop hlt), wordClasses_of_regions _ hlisted⟩

theorem Inset.single (hlisted : (c, s) ∈ regions) (hascii : Byte.isAscii b = true)
    (hend : Edge Byte.endsName (b :: rest) n) :
    ∀ t ∈ (Lexeme.single n c s).tokens, Inset (b :: rest) t := by
  intro t ht
  obtain rfl := List.mem_singleton.mp ht
  exact ⟨.region hlisted rfl hascii hend, wordClasses_of_regions _ hlisted⟩

/-! ## Comments -/

theorem endsName_of_isCommandMark (h : isCommandMark b = true) : Byte.endsName b = true :=
  Byte.holds_of_eq_or_eq (by decide) (by decide) h

theorem commandLength?_eq_some (h : commandLength? b rest = some n) :
    ∃ word tail, rest = word ++ tail ∧ word.length = n ∧ isCommandMark b = true ∧
      Vocabulary.isDocWord word = true ∧ ∀ c, tail.head? = some c → Byte.endsName c = true := by
  obtain ⟨hmark, hrun, hlisted⟩ := commandLength?_eq_some_iff.mp h
  obtain ⟨hle, -, hstop⟩ := countWhile_eq_iff.mp hrun
  have hlength : (rest.take n).length = n := by rw [List.length_take, Nat.min_eq_left hle]
  refine ⟨_, rest.drop n, (List.take_append_drop n rest).symm, hlength, hmark, hlisted, ?_⟩
  intro c hc
  rw [List.head?_drop] at hc
  rw [Byte.endsName, hstop c hc]
  rfl

/-- The comment's own text up to an edge. -/
theorem commentText_inset {segment stop : Nat} (hend : Edge Byte.endsName x stop)
    (hsegment : ∀ b, x[segment]? = some b → Byte.endsName b = true) :
    ∀ t ∈ commentText segment stop, Inset x t := by
  intro t ht
  unfold commentText at ht
  split at ht
  · next hlt =>
    obtain rfl := List.mem_singleton.mp ht
    have hin : segment < x.length := Nat.lt_of_lt_of_le hlt hend.le_length
    have hhead := List.getElem?_eq_getElem hin
    exact .region (by decide) hhead (Byte.isAscii_of_endsName (hsegment _ hhead)) hend hlt
  · exact absurd ht List.not_mem_nil

/-- The tokens of a comment whose content from offset `pos` on is followed by `tail`. Where a part
of its own text begins, no name goes on: it is at the opening or behind a command. -/
theorem commentTokens_inset {content tail : Text} {closing segment : Nat}
    (hx : x.drop pos = content ++ tail)
    (hend : Edge Byte.endsName x (pos + content.length + closing))
    (htail : ∀ b, tail.head? = some b → Byte.endsName b = true)
    (hsegment : ∀ b, x[segment]? = some b → Byte.endsName b = true) :
    ∀ t ∈ commentTokens closing segment pos content, Inset x t := by
  fun_induction commentTokens closing segment pos content with
  | case1 segment pos => exact commentText_inset hend hsegment
  | case2 segment pos b rest n hn stop ih =>
    obtain ⟨word, behind, rfl, rfl, hmark, hword, hbehind⟩ := commandLength?_eq_some hn
    have hhead : x[pos]? = some b := by
      rw [← Nat.add_zero pos, ← List.getElem?_drop, hx]
      rfl
    have hstop : x.drop stop = behind ++ tail := by
      rw [show stop = pos + (word.length + 1) by omega, ← List.drop_drop, hx]
      simp
    intro t ht
    rcases List.mem_append.mp ht with ht | ht
    · exact commentText_inset (.before hhead (endsName_of_isCommandMark hmark)) hsegment t ht
    rcases List.mem_cons.mp ht with rfl | ht
    · have hcommand : x.drop pos = b :: (word ++ (behind ++ tail)) := by
        rw [hx, List.cons_append, List.append_assoc]
      refine ⟨.docWord hcommand hmark hword ?_, docWord_notMem_wordClasses⟩
      simp only [Token.ofSpan]
      omega
    · refine ih ?_ ?_ ?_ t ht
      · rw [List.drop_left, hstop]
      · simpa [stop, Nat.add_assoc, Nat.add_comm, Nat.add_left_comm] using hend
      · intro c hc
        rw [← Nat.add_zero stop, ← List.getElem?_drop, hstop, ← List.head?_eq_getElem?,
          List.head?_append] at hc
        rcases Option.or_eq_some_iff.mp hc with hc | ⟨-, hc⟩
        · exact hbehind c hc
        · exact htail c hc
  | case3 segment pos b rest hn ih =>
    refine ih ?_ ?_ hsegment
    · rw [← List.drop_drop, hx]
      rfl
    · have hlength : pos + 1 + rest.length + closing = pos + (b :: rest).length + closing := by
        rw [List.length_cons]
        omega
      rw [hlength]
      exact hend

theorem comment_inset {a b : UInt8} {content tail : Text} {closing : Nat}
    (hsplit : content ++ tail = text) (ha : Byte.endsName a = true)
    (hend : Edge Byte.endsName (a :: b :: text) (comment content closing).length)
    (htail : ∀ b, tail.head? = some b → Byte.endsName b = true) :
    ∀ t ∈ (comment content closing).tokens, Inset (a :: b :: text) t := by
  refine commentTokens_inset hsplit.symm hend htail ?_
  intro c hc
  obtain rfl := Option.some.inj hc
  exact ha

theorem commentToLineEnd_inset {a : UInt8} (ha : Byte.endsName a = true) (b : UInt8)
    (text : Text) : ∀ t ∈ (commentToLineEnd text).tokens, Inset (a :: b :: text) t := by
  have hend := Closed.edge (closed_commentToLineEnd a b text)
  have hline := List.head?_dropWhile_not (fun b => !Byte.endsLine b) text
  refine comment_inset List.takeWhile_append_dropWhile ha hend ?_
  intro c hc
  rw [hc] at hline
  exact Byte.endsName_of_endsLine (by simpa using hline)

theorem commentToClose_inset {a : UInt8} (ha : Byte.endsName a = true) (b : UInt8)
    (text : Text) : ∀ t ∈ (commentToClose text).tokens, Inset (a :: b :: text) t := by
  have hend := Closed.edge (closed_commentToClose a b text)
  unfold commentToClose at hend ⊢
  cases hclose : offsetOf (ascii "*/") text with
  | none =>
    rw [hclose] at hend
    exact comment_inset (List.append_nil text) ha hend fun c hc => by cases hc
  | some k =>
    rw [hclose] at hend
    refine comment_inset (List.take_append_drop k text) ha hend ?_
    intro c hc
    obtain ⟨behind, hbehind⟩ := prefix_of_offsetOf hclose
    rw [← hbehind] at hc
    obtain rfl := Option.some.inj hc
    decide

/-! ## Directives -/

theorem directivePiece_inset (takesPath : Bool) {left : Nat} (hline : LineEndsAt rest left) :
    (∀ t ∈ (directivePiece takesPath left b rest).tokens, Inset (b :: rest) t) ∧
      ((directivePiece takesPath left b rest).length ≤ left ∨
        Closed (b :: rest) (directivePiece takesPath left b rest).length) := by
  have hquoted (quote : UInt8) (hquote : Byte.isMark quote = true) :
      Closed (b :: rest) (1 + quotedLength quote rest) := by
    rw [Nat.add_comm]
    exact (closed_quotedLength hquote rest).cons b
  unfold directivePiece
  split_ifs with hcomment hclose hpath hquote hapostrophe
  · have hend := hline.closed.cons b
    exact ⟨Inset.single (by decide) (by rw [hcomment.1]; decide) (Closed.edge hend), .inr hend⟩
  · obtain ⟨rfl, hstar⟩ := hclose
    obtain ⟨tail, rfl⟩ := List.head?_eq_some_iff.mp hstar
    exact ⟨commentToClose_inset (by decide) _ tail, .inr (closed_commentToClose _ _ tail)⟩
  · have hend := (closed_pathLength hline).cons b
    have hascii : Byte.isAscii b = true := by
      rcases hpath.2 with rfl | rfl
      · decide
      · decide
    rw [Nat.add_comm]
    exact ⟨Inset.single (by decide) hascii (Closed.edge hend), .inr hend⟩
  · have hend := hquoted Byte.quote (by decide)
    exact ⟨Inset.single (by decide) (by rw [hquote]; decide) (Closed.edge hend), .inr hend⟩
  · have hend := hquoted Byte.apostrophe (by decide)
    exact ⟨Inset.single (by decide) (by rw [hapostrophe]; decide) (Closed.edge hend), .inr hend⟩
  · refine ⟨List.forall_mem_nil _, ?_⟩
    cases left with
    | zero => exact .inr (hline.closed.cons b)
    | succ left => exact .inl (Nat.succ_pos left)

/-- The rest of a directive line has its tokens in the text, and is closed. -/
theorem DirectiveRest.inset {takesPath : Bool} {left : Nat} {l : Lexeme}
    (h : DirectiveRest takesPath pos left text l) (hx : x.drop pos = text) (hpos : pos ≤ x.length)
    (hline : LineEndsAt text left) : (∀ t ∈ l.tokens, Inset x t) ∧ Closed x l.length := by
  have hpieces {pos : Nat} {piece : Lexeme} {text : Text} (hx : x.drop pos = text)
      (hpiece : ∀ t ∈ piece.tokens, Inset text t) : ∀ t ∈ piece.tokensAt pos, Inset x t := by
    intro t ht
    obtain ⟨u, hu, rfl⟩ := List.mem_map.mp ht
    exact .shift (hx ▸ hpiece u hu)
  induction h with
  | ended pos text => exact ⟨List.forall_mem_nil _, (hx ▸ hline.closed).ofDrop hpos⟩
  | @onward pos left b rest piece following _ here fits stays _ ih =>
    obtain ⟨hpiece, -⟩ := directivePiece_inset takesPath (b := b) hline.tail
    rw [here] at hpiece
    have hlength := length_of_drop hx
    have hle := fits.le
    obtain ⟨hbehind, hclosed⟩ := ih (drop_behind hx fits.pos) (by omega)
      (hline.tail.drop (by omega))
    exact ⟨fun t ht => (List.mem_append.mp ht).elim (hpieces hx hpiece t) (hbehind t), hclosed⟩
  | @beyond pos left b rest piece _ here _ leaves =>
    obtain ⟨hpiece, hends⟩ := directivePiece_inset takesPath (b := b) hline.tail
    rw [here] at hpiece hends
    have hclosed := hends.resolve_left (Nat.not_le_of_lt leaves)
    rw [← hx] at hclosed
    exact ⟨hpieces hx hpiece, hclosed.ofDrop hpos⟩

theorem directive_inset (hb : Byte.isAscii b = true) (rest : Text) :
    (∀ t ∈ (directive rest).tokens, Inset (b :: rest) t) ∧
      Closed (b :: rest) (directive rest).length := by
  have hhead : Edge Byte.endsName rest (headLength rest) :=
    (Edge.name _).ofDrop (countWhile_le_length _ rest)
  have htail := directiveTail_rest rest
  rw [directive_eq]
  rw [Nat.add_comm] at htail ⊢
  obtain ⟨htokens, hend⟩ := htail.inset (x := b :: rest) rfl (Nat.succ_le_succ hhead.le_length)
    (LineEndsAt.ofCountWhile _)
  refine ⟨?_, hend⟩
  intro t ht
  rcases List.mem_cons.mp ht with rfl | ht
  · exact Inset.single (by decide) hb (hhead.cons b) _ (List.mem_singleton.mpr rfl)
  · exact htokens t ht

/-! ## Lexemes -/

theorem identifier_eq (word : Text) :
    identifier word = match listedClass? word with
      | some c => .single word.length c (if c = .keyword then .boldOnly else .plain)
      | none => .skip word.length := by
  unfold identifier
  rw [listedClass?_eq]
  cases classify word <;> rfl

/-- What is neither a comment nor a directive is one token that a rule puts there, or has none. -/
theorem plainLexeme_recognized (b : UInt8) (rest : Text) :
    (plainLexeme b rest).tokens = [] ∨ ∃ n c s, plainLexeme b rest = .single n c s ∧
      Recognized (b :: rest) n c s := by
  unfold plainLexeme
  split
  · next l hl =>
    obtain ⟨n, c, rfl, hclass, ⟨a, tail, hhead, hascii⟩, hend⟩ := literal?_eq_some hl
    have hlisted : (c, Style.plain) ∈ regions := by
      rcases hclass with rfl | rfl
      · decide
      · decide
    exact .inr ⟨n, c, _, rfl, .region hlisted hhead hascii (Closed.edge hend)⟩
  · split_ifs with hnumber hdelimiter hbracket hoperator hname
    · exact .inr ⟨_, _, _, rfl, .number hnumber rfl⟩
    · exact .inr ⟨_, _, _, rfl, .delimiter rfl hdelimiter rfl⟩
    · exact .inr ⟨_, _, _, rfl, .bracket rfl hbracket rfl⟩
    · exact .inr ⟨_, _, _, rfl, .operator rfl hoperator rfl⟩
    · rw [cons_takeWhile_continuesName hname, identifier_eq]
      cases hlisted : listedClass? ((b :: rest).takeWhile Byte.continuesName) with
      | none => exact .inl rfl
      | some c =>
        refine .inr ⟨_, c, _, rfl, .word rfl ?_⟩
        exact (congrArg listedClass? (take_countWhile _ _)).trans hlisted
    · exact .inl rfl

/-- A lexeme's tokens are inside a comment or a directive, or the lexeme is one token that a rule
puts there. -/
theorem lexeme_recognized (freshLine : Bool) (b : UInt8) (rest : Text) :
    (∀ t ∈ (lexeme freshLine b rest).tokens, Inset (b :: rest) t) ∨
      ∃ n c s, lexeme freshLine b rest = .single n c s ∧ Recognized (b :: rest) n c s := by
  unfold lexeme
  split_ifs with hblank hhash hline hclose
  · exact .inl (List.forall_mem_nil _)
  · exact .inl (directive_inset (by rw [hhash.1]; decide) rest).1
  · obtain ⟨rfl, hslash⟩ := hline
    obtain ⟨tail, rfl⟩ := List.head?_eq_some_iff.mp hslash
    exact .inl (commentToLineEnd_inset (by decide) _ tail)
  · obtain ⟨rfl, hstar⟩ := hclose
    obtain ⟨tail, rfl⟩ := List.head?_eq_some_iff.mp hstar
    exact .inl (commentToClose_inset (by decide) _ tail)
  · refine (plainLexeme_recognized b rest).imp ?_ id
    intro hnone t ht
    rw [hnone] at ht
    exact absurd ht List.not_mem_nil

/-- Every token of a lexeme stands where a rule puts it, and the words stand at its head. -/
theorem lexeme_stands {freshLine : Bool} (ht : t ∈ (lexeme freshLine b rest).tokens) :
    Stands (b :: rest) t ∧ (t.tokenClass ∈ wordClasses → t.start = 0) := by
  rcases lexeme_recognized freshLine b rest with hinset | ⟨n, c, s, hl, hrule⟩
  · exact ⟨(hinset t ht).1, fun hword => absurd hword (hinset t ht).2⟩
  · rw [hl] at ht
    obtain rfl := List.mem_singleton.mp ht
    exact ⟨hrule, fun _ => rfl⟩

/-! ## Texts -/

theorem tokenize_stands (text : Text) : ∀ t ∈ tokenize text, Stands text t := by
  intro t ht
  obtain ⟨s, b, rest, u, hreads, hu, rfl⟩ := mem_tokenize_iff.mp ht
  refine Stands.shift ?_
  rw [hreads.head]
  exact (lexeme_stands hu).1

end CodePane.Source

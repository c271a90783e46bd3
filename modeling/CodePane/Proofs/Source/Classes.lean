import CodePane.Proofs.Source.Recognized

/-!
# The classes of source tokens are right

What the class of a token promises of its bytes and its neighbours, in every text. Behind a token
this is the rule that put it there. Before a word it is an invariant of the lexer: no lexeme ends
inside a name where a word could begin.

1. `WholeName`, `IsLongestOperator`, `styleOf`, `Classified`: what a class promises.
2. `Recognized.word_inv`, `Recognized.operator_inv`, `Recognized.style_eq`: what the rules say of a
   class.
3. `Ending`, `Parted`: how lexemes end, and where the lexer stands after each.
4. `tokenize_classified`: every token of every text.
-/

namespace CodePane

theorem Text.between_add (text : Text) (start n : Nat) :
    between text start (start + n) = (text.drop start).take n := by
  unfold between
  rw [List.take_eq_take_iff, List.length_drop]
  omega

/-- The bytes of a token. -/
def Token.bytes (text : Text) (t : Token) : Text := text.between t.start t.stop

namespace Source

open Text

variable {text x rest : Text} {b : UInt8} {n k : Nat} {c : TokenClass} {s : Style} {t : Token}

/-! ## Promises -/

/-- A span of name bytes that no name byte stands beside. -/
structure WholeName (text : Text) (start stop : Nat) : Prop where
  inside : ∀ b ∈ between text start stop, Byte.continuesName b = true
  before : ∀ pos b, start = pos + 1 → text[pos]? = some b → Byte.continuesName b = false
  behind : ∀ b, text[stop]? = some b → Byte.continuesName b = false

/-- The longest of the long operators that a text begins with, or one operator byte if it begins
with none of them. -/
def IsLongestOperator (x op : Text) : Prop :=
  (op ∈ Vocabulary.longOperators ∧ op <+: x ∧
      ∀ other ∈ Vocabulary.longOperators, other <+: x → other.length ≤ op.length) ∨
    ((∀ other ∈ Vocabulary.longOperators, ¬ other <+: x) ∧
      ∃ b, op = [b] ∧ Vocabulary.beginsOperator b = true)

def styleOf : TokenClass → Style
  | .keyword | .directive | .docWord => .boldOnly
  | .comment => .italicOnly
  | _ => .plain

/-- A token of a text keeps what its class promises. -/
structure Classified (text : Text) (t : Token) : Prop where
  word : t.tokenClass ∈ wordClasses →
    WholeName text t.start t.stop ∧ listedClass? (t.bytes text) = some t.tokenClass
  operator : t.tokenClass = .operator → IsLongestOperator (text.drop t.start) (t.bytes text)
  delimiter : t.tokenClass = .delimiter → ∃ b ∈ ascii ",;", t.bytes text = [b]
  bracket : t.tokenClass = .bracket → ∃ b ∈ ascii "()[]\x7b\x7d", t.bytes text = [b]
  number : t.tokenClass = .number → startsNumber (text.drop t.start) = true ∧
    ∀ b, text[t.stop]? = some b → Byte.opensWord b = false
  docWord : t.tokenClass = .docWord → ∃ mark word, t.bytes text = mark :: word ∧
    isCommandMark mark = true ∧ Vocabulary.isDocWord word = true
  style : t.style = styleOf t.tokenClass

/-! ## What the rules say of a class -/

theorem mem_wordClasses_of_listed {word : Text} (h : listedClass? word = some c) :
    c ∈ wordClasses := by
  obtain ⟨list, hlist, rfl⟩ := Option.map_eq_some_iff.mp h
  exact List.mem_map_of_mem (List.mem_of_find?_eq_some hlist)

/-- The list of long operators has longer ones first, so the first one found is the longest. -/
theorem isLongestOperator_take (hb : Vocabulary.beginsOperator b = true) (rest : Text) :
    IsLongestOperator (b :: rest) ((b :: rest).take (operatorLength (b :: rest))) := by
  have hsorted : Vocabulary.longOperators.Pairwise fun op other => other.length ≤ op.length := by
    decide
  unfold operatorLength
  split
  · next op hop =>
    obtain ⟨hop', before, after, hlist, hnone⟩ := List.find?_eq_some_iff_append.mp hop
    have hhead := List.isPrefixOf_iff_prefix.mp hop'
    rw [← List.prefix_iff_eq_take.mp hhead]
    refine .inl ⟨List.mem_of_find?_eq_some hop, hhead, ?_⟩
    intro other hother hbegins
    rw [hlist] at hother hsorted
    rcases List.mem_append.mp hother with hbefore | hafter
    · have hskipped := hnone other hbefore
      rw [List.isPrefixOf_iff_prefix.mpr hbegins] at hskipped
      cases hskipped
    · rcases List.mem_cons.mp hafter with rfl | hafter
      · exact Nat.le_refl _
      · exact (List.pairwise_cons.mp (List.pairwise_append.mp hsorted).2.1).1 other hafter
  · next hnone =>
    refine .inr ⟨?_, b, rfl, hb⟩
    intro other hother hbegins
    exact List.find?_eq_none.mp hnone other hother (List.isPrefixOf_iff_prefix.mpr hbegins)

namespace Recognized

theorem word_inv (h : Recognized x n c s) (hc : c ∈ wordClasses) :
    n = countWhile Byte.continuesName x ∧ listedClass? (x.take n) = some c := by
  cases h with
  | word length listed => exact ⟨length, listed⟩
  | region listed => exact absurd hc (wordClasses_of_regions _ listed)
  | number => exact absurd hc (by decide)
  | operator => exact absurd hc (by decide)
  | delimiter => exact absurd hc (by decide)
  | bracket => exact absurd hc (by decide)
  | docWord => exact absurd hc (by decide)

theorem operator_inv (h : Recognized x n .operator s) : IsLongestOperator x (x.take n) := by
  cases h with
  | word length listed => exact absurd (mem_wordClasses_of_listed listed) (by decide)
  | region listed => exact absurd listed (by simp [regions])
  | operator head starts length =>
    subst head length
    exact isLongestOperator_take starts _

theorem delimiter_inv (h : Recognized x n .delimiter s) : ∃ b ∈ ascii ",;", x.take n = [b] := by
  cases h with
  | word length listed => exact absurd (mem_wordClasses_of_listed listed) (by decide)
  | region listed => exact absurd listed (by simp [regions])
  | delimiter head starts length =>
    subst head length
    exact ⟨_, List.contains_iff_mem.mp starts, rfl⟩

theorem bracket_inv (h : Recognized x n .bracket s) :
    ∃ b ∈ ascii "()[]\x7b\x7d", x.take n = [b] := by
  cases h with
  | word length listed => exact absurd (mem_wordClasses_of_listed listed) (by decide)
  | region listed => exact absurd listed (by simp [regions])
  | bracket head starts length =>
    subst head length
    exact ⟨_, List.contains_iff_mem.mp starts, rfl⟩

theorem number_inv (h : Recognized x n .number s) : startsNumber x = true ∧
    ∀ b, x[n]? = some b → Byte.opensWord b = false := by
  cases h with
  | word length listed => exact absurd (mem_wordClasses_of_listed listed) (by decide)
  | region listed => exact absurd listed (by simp [regions])
  | number starts length =>
    subst length
    exact ⟨starts, fun b hb => numberLength_stops hb⟩

theorem docWord_inv (h : Recognized x n .docWord s) : ∃ mark word, x.take n = mark :: word ∧
    isCommandMark mark = true ∧ Vocabulary.isDocWord word = true := by
  cases h with
  | word length listed => exact absurd (mem_wordClasses_of_listed listed) (by decide)
  | region listed => exact absurd listed (by simp [regions])
  | docWord head marks listed length =>
    subst head length
    refine ⟨_, _, ?_, marks, listed⟩
    rw [List.take_succ_cons, List.take_left]

theorem style_eq (h : Recognized x n c s) : s = styleOf c := by
  cases h with
  | word length listed =>
    have hwords : ∀ c ∈ wordClasses,
        (if c = .keyword then Style.boldOnly else .plain) = styleOf c := by decide
    exact hwords c (mem_wordClasses_of_listed listed)
  | region listed =>
    have hregions : ∀ r ∈ regions, r.2 = styleOf r.1 := by decide
    exact hregions _ listed
  | number => rfl
  | operator => rfl
  | delimiter => rfl
  | bracket => rfl
  | docWord => rfl

end Recognized

/-! ## Where lexemes end -/

/-- No name goes on before an offset at which a word could begin. -/
def Parted (x : Text) (n : Nat) : Prop :=
  ∀ b, x[n]? = some b → Byte.opensWord b = true →
    ∀ m a, n = m + 1 → x[m]? = some a → Byte.endsName a = true

namespace Parted

theorem zero (x : Text) : Parted x 0 := by
  rintro b - - m a ⟨⟩

theorem ofStop (h : ∀ b, x[n]? = some b → Byte.opensWord b = false) : Parted x n := by
  intro b hb hopens
  rw [h b hb] at hopens
  cases hopens

theorem ofEdge (h : Edge Byte.endsName x n) : Parted x n := by
  intro b hb hopens m a hn ha
  rcases h.2 with hbefore | ⟨m', a', hm', ha', hends⟩
  · have hends := Byte.continuesName_eq_false (hbefore b hb)
    rw [Byte.continuesName_of_opensWord hopens] at hends
    cases hends
  · obtain rfl : m' = m := by omega
    rw [ha] at ha'
    obtain rfl := Option.some.inj ha'
    exact hends

theorem ofDrop (h : Parted (x.drop k) n) (hn : 0 < n) : Parted x (k + n) := by
  intro b hb hopens m a hm ha
  refine h b (by rw [List.getElem?_drop]; exact hb) hopens (n - 1) a (by omega) ?_
  rw [List.getElem?_drop, ← ha]
  congr 1
  omega

end Parted

/-- The ways in which a lexeme that begins with `b` can end. -/
inductive Ending (b : UInt8) (rest : Text) : Nat → Prop
  | closed {n : Nat} (closed : Closed (b :: rest) n) : Ending b rest n
  | number (starts : startsNumber (b :: rest) = true) : Ending b rest (numberLength (b :: rest))
  | name (starts : Byte.startsName b = true) :
      Ending b rest (countWhile Byte.continuesName (b :: rest))
  | byte (ends : Byte.endsName b = true) : Ending b rest 1

theorem plainLexeme_ending (b : UInt8) (rest : Text) :
    Ending b rest (plainLexeme b rest).length := by
  unfold plainLexeme
  split
  · next l hl =>
    obtain ⟨n, c, rfl, -, -, hend⟩ := literal?_eq_some hl
    exact .closed hend
  · split_ifs with hnumber hdelimiter hbracket hoperator hname
    · exact .number hnumber
    · exact .byte (Byte.endsName_of_isMark (isMark_of_isDelimiter hdelimiter))
    · exact .byte (Byte.endsName_of_isMark (isMark_of_isBracket hbracket))
    · exact .closed (closed_operatorLength hoperator rest)
    · rw [identifier_length, cons_takeWhile_continuesName hname]
      exact .name hname
    · exact .byte (endsName_of_stray hnumber hname)

theorem lexeme_ending (freshLine : Bool) (b : UInt8) (rest : Text) :
    Ending b rest (lexeme freshLine b rest).length := by
  unfold lexeme
  split_ifs with hblank hhash hline hclose
  · exact .byte (endsName_of_blank hblank)
  · exact .closed (directive_inset (by rw [hhash.1]; decide) rest).2
  · obtain ⟨tail, rfl⟩ := List.head?_eq_some_iff.mp hline.2
    exact .closed (closed_commentToLineEnd b _ tail)
  · obtain ⟨tail, rfl⟩ := List.head?_eq_some_iff.mp hclose.2
    exact .closed (closed_commentToClose b _ tail)
  · exact plainLexeme_ending b rest

/-- **No lexeme ends inside a name where a word could begin.** -/
theorem Ending.parted (h : Ending b rest n) : Parted (b :: rest) n := by
  cases h with
  | closed hend => exact .ofEdge (Closed.edge hend)
  | number => exact .ofStop fun c hc => numberLength_stops hc
  | name => exact .ofEdge (Edge.name _)
  | byte hends => exact .ofEdge (Edge.behind rfl hends)

/-! ## Texts -/

theorem Visits.parted {station : Station} (h : Visits text station) : Parted text station.pos := by
  refine h.induct (P := fun station => Parted text station.pos) (Parted.zero text) ?_
  intro station b rest hreads _
  have hend := (lexeme_ending station.freshLine b rest).parted
  rw [← hreads.head] at hend
  exact hend.ofDrop (lexeme_fits station.freshLine b rest).pos

/-- The lexer stands before no word inside a name. -/
theorem parted_of_mem_tokenize (ht : t ∈ tokenize text) (hword : t.tokenClass ∈ wordClasses) :
    Parted text t.start := by
  obtain ⟨station, b, rest, u, hreads, hu, rfl⟩ := mem_tokenize_iff.mp ht
  have hhead : u.start = 0 := (lexeme_stands hu).2 hword
  rw [Token.shift, hhead]
  exact hreads.visited.parted

/-- A listed word that is all of the name at its head, where no name goes on before it. -/
theorem wholeName_of_listed {start : Nat} (hparted : Parted text start)
    (hlisted : listedClass? ((text.drop start).take n) = some c)
    (hlength : n = countWhile Byte.continuesName (text.drop start)) :
    WholeName text start (start + n) := by
  obtain ⟨b, rest, hhead, hopens⟩ := head_of_listedClass? hlisted
  constructor
  case inside =>
    intro a ha
    rw [between_add, hlength, take_countWhile] at ha
    exact List.mem_takeWhile_imp ha
  case before =>
    intro pos a hpos ha
    have hb : text[start]? = some b := by
      rw [← Nat.add_zero start, ← List.getElem?_drop, hhead]
      rfl
    exact Byte.continuesName_eq_false (hparted b hb hopens pos a hpos ha)
  case behind =>
    intro a ha
    rw [← List.getElem?_drop, hlength] at ha
    exact Bool.eq_false_iff.mpr (countWhile_stops ha)

/-- **The class of every token of every text is right.** -/
theorem tokenize_classified (text : Text) : ∀ t ∈ tokenize text, Classified text t := by
  intro t ht
  have hrule := tokenize_stands text t ht
  unfold Stands at hrule
  have hbytes : t.bytes text = (text.drop t.start).take t.length :=
    text.between_add t.start t.length
  constructor
  case word =>
    intro hword
    obtain ⟨hlength, hlisted⟩ := hrule.word_inv hword
    rw [hbytes]
    exact ⟨wholeName_of_listed (parted_of_mem_tokenize ht hword) hlisted hlength, hlisted⟩
  case operator =>
    intro hc
    rw [hc] at hrule
    rw [hbytes]
    exact hrule.operator_inv
  case delimiter =>
    intro hc
    rw [hc] at hrule
    rw [hbytes]
    exact hrule.delimiter_inv
  case bracket =>
    intro hc
    rw [hc] at hrule
    rw [hbytes]
    exact hrule.bracket_inv
  case number =>
    intro hc
    rw [hc] at hrule
    obtain ⟨hstarts, hbehind⟩ := hrule.number_inv
    refine ⟨hstarts, ?_⟩
    intro b hb
    refine hbehind b ?_
    rw [List.getElem?_drop]
    exact hb
  case docWord =>
    intro hc
    rw [hc] at hrule
    rw [hbytes]
    exact hrule.docWord_inv
  case style => exact hrule.style_eq

/-- The number ends inside a run of name bytes, whose rest is a name of its own; the keyword is all
of the name behind the blank. -/
theorem tokenize_classified_keyword :
    let text : Text := ascii "1" ++ [0xC3, 0xA9] ++ ascii " if"
    let t : Token := ⟨4, 2, .keyword, .boldOnly⟩
    t ∈ tokenize text ∧ Classified text t ∧ WholeName text 4 6 ∧ t.bytes text = ascii "if" := by
  intro text t
  have ht : t ∈ tokenize text := by decide +kernel
  have hclass := tokenize_classified text t ht
  exact ⟨ht, hclass, (hclass.word (by decide)).1, by decide⟩

end Source

end CodePane

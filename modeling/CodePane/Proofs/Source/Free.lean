import CodePane.Proofs.Coverage.Runs
import CodePane.Proofs.Source.Directives

/-!
# What the lexer leaves without a class

An offset is free if no token covers it and it is not on the line of a directive. The lexer passes
over free offsets without a word: blanks, line breaks, stray bytes and names that no word list has.
Nothing else is free.

1. `Free`, `FreeWord`: free offsets, and the longest runs of name bytes at them.
2. `ReadsUnlisted`, `Free.stray_or_unlisted`: the lexemes that a free offset can be in.
3. `FreeWord.exists_reads`: a free word is exactly one name.
4. `tokenize_complete`: nothing that has a class is free.
-/

namespace CodePane.Source

open Text

variable {text rest : Text} {b : UInt8} {i k start stop : Nat} {s : Station}

/-! ## Free offsets -/

/-- An offset from another one on, before the end of its line. -/
def OnLineFrom (text : Text) (start i : Nat) : Prop :=
  start ≤ i ∧ i < start + lineLength (text.drop start)

/-- An offset that no token covers, and that is not on the line of a directive behind its hash
sign. -/
structure Free (text : Text) (i : Nat) : Prop where
  inside : i < text.length
  uncovered : ∀ t ∈ tokenize text, ¬ t.Covers i
  undirected : ∀ t ∈ tokenize text, t.tokenClass = .directive → ¬ OnLineFrom text t.start i

theorem free_iff : Free text i ↔ i < text.length ∧ (∀ t ∈ tokenize text, ¬ t.Covers i) ∧
    ∀ t ∈ tokenize text, t.tokenClass = .directive → ¬ OnLineFrom text t.start i :=
  ⟨fun h => ⟨h.inside, h.uncovered, h.undirected⟩, fun h => ⟨h.1, h.2.1, h.2.2⟩⟩

/-- A free offset that holds a byte of a name. -/
def FreeName (text : Text) (i : Nat) : Prop :=
  Free text i ∧ text[i]?.any Byte.continuesName = true

/-- A longest run of name bytes at free offsets. -/
def FreeWord (text : Text) (start stop : Nat) : Prop :=
  Coverage.IsRun (fun i (_ : Unit) => FreeName text i) () start stop

/-! ## Lexemes -/

theorem Reads.onLineFrom_iff (h : Reads text s '#'.toUInt8 rest) :
    OnLineFrom text s.pos (s.pos + k) ↔ k < 1 + lineLength rest := by
  unfold OnLineFrom
  rw [h.head, lineLength_cons (by decide)]
  omega

/-- The lexer stands before a name that no word list has, and skips it. -/
structure ReadsUnlisted (text : Text) (s : Station) (b : UInt8) (rest : Text) : Prop
    extends Reads text s b rest where
  skips : lexeme s.freshLine b rest = .skip (countWhile Byte.continuesName (b :: rest))
  starts : Byte.startsName b = true
  unlisted : classify ((b :: rest).takeWhile Byte.continuesName) = .default

theorem Free.stray_or_unlisted (h : Free text (s.pos + k)) (hreads : Reads text s b rest)
    (hk : k < (lexeme s.freshLine b rest).length) :
    (k = 0 ∧ opensToken b = false ∧ Byte.endsName b = true) ∨ ReadsUnlisted text s b rest := by
  have huncovered : ∀ u ∈ (lexeme s.freshLine b rest).tokens, ¬ u.Covers k := by
    intro u hu hcovers
    obtain ⟨ht, hcovers⟩ := (hreads.covers_iff hk).mpr ⟨u, hu, hcovers, rfl⟩
    exact h.uncovered _ ht hcovers
  have hkind := lexeme_kind s.freshLine b rest
  generalize hl : lexeme s.freshLine b rest = l at hk huncovered hkind
  cases hkind with
  | solid hsolid =>
    obtain ⟨u, hu, hcovers⟩ := hsolid.covers k hk
    exact absurd hcovers (huncovered u hu)
  | directive hhash hfresh =>
    subst hhash
    obtain ⟨head, body, hparts⟩ := directive_parts rest
    -- beyond its line the directive has no gaps
    have hline : k < 1 + lineLength rest := by
      apply Nat.lt_of_not_le
      intro hbehind
      obtain ⟨u, hu, hcover⟩ := hparts.covers k hbehind hk
      exact huncovered u (by rw [hparts.tokens]; exact List.mem_cons_of_mem _ hu) hcover
    obtain ⟨t, ht, hclass, hstart⟩ := hreads.exists_directive hfresh
    have hoff := h.undirected t ht hclass
    rw [hstart] at hoff
    exact absurd (hreads.onLineFrom_iff.mpr hline) hoff
  | name hstarts hunlisted => exact .inr ⟨hreads, hl, hstarts, hunlisted⟩
  | stray hopens hends => exact .inl ⟨Nat.lt_one_iff.mp hk, hopens, hends⟩

namespace ReadsUnlisted

/-- Every offset of such a name is free: no token of another lexeme comes there, and a directive
reaches to the end of its line, so that the name would be in it. -/
theorem free (h : ReadsUnlisted text s b rest)
    (hk : k < countWhile Byte.continuesName (b :: rest)) : Free text (s.pos + k) := by
  have hin : k < (lexeme s.freshLine b rest).length := by rwa [h.skips]
  constructor
  case inside =>
    have hle := (lexeme_fits s.freshLine b rest).le
    rw [length_of_drop h.head]
    omega
  case uncovered =>
    intro t ht hcovers
    obtain ⟨u, hu, -⟩ := (h.covers_iff hin).mp ⟨ht, hcovers⟩
    rw [h.skips] at hu
    exact absurd hu List.not_mem_nil
  case undirected =>
    intro t ht hclass hon
    obtain ⟨s', rest', hreads', hfresh, hstart⟩ := directive_of_mem_tokenize ht hclass
    rw [hstart] at hon
    obtain ⟨k', hsame⟩ := Nat.exists_eq_add_of_le hon.1
    rw [hsame, hreads'.onLineFrom_iff] at hon
    obtain ⟨head, body, hparts⟩ := directive_parts rest'
    have hin' : k' < (lexeme s'.freshLine '#'.toUInt8 rest').length := by
      rw [hfresh]
      exact Nat.lt_of_lt_of_le hon hparts.reaches
    obtain ⟨-, rfl, -⟩ := h.unique hreads' hin hin' hsame
    exact absurd h.starts (by decide)

theorem freeName (h : ReadsUnlisted text s b rest)
    (hk : k < countWhile Byte.continuesName (b :: rest)) : FreeName text (s.pos + k) := by
  obtain ⟨c, hc, hname⟩ := countWhile_of_lt hk
  refine ⟨h.free hk, ?_⟩
  rw [h.getElem?, hc]
  exact hname

theorem not_freeName_behind (h : ReadsUnlisted text s b rest) :
    ¬ FreeName text (s.pos + countWhile Byte.continuesName (b :: rest)) := by
  rintro ⟨-, hbehind⟩
  rw [h.getElem?] at hbehind
  obtain ⟨c, hc, hname⟩ := (Option.any_eq_true _ _).mp hbehind
  exact countWhile_stops hc hname

theorem between_eq (h : ReadsUnlisted text s b rest) :
    between text s.pos (s.pos + countWhile Byte.continuesName (b :: rest)) =
      (b :: rest).takeWhile Byte.continuesName := by
  rw [between_add, h.head]
  exact take_countWhile _ _

end ReadsUnlisted

theorem FreeName.exists_reads (h : FreeName text i) : ∃ s b rest k, ReadsUnlisted text s b rest ∧
    k < countWhile Byte.continuesName (b :: rest) ∧ i = s.pos + k := by
  obtain ⟨hfree, hbyte⟩ := h
  obtain ⟨s, b, rest, k, hreads, hk, rfl⟩ := Source.exists_reads hfree.inside
  rcases hfree.stray_or_unlisted hreads hk with ⟨rfl, -, hends⟩ | hunlisted
  · rw [hreads.getElem?] at hbyte
    have hcontinues : Byte.continuesName b = true := hbyte
    rw [Byte.continuesName_eq_false hends] at hcontinues
    cases hcontinues
  · rw [hunlisted.skips] at hk
    exact ⟨s, b, rest, k, hunlisted, hk, rfl⟩

/-- A free word is exactly one name: it begins with the name, or the byte before it were part of
it, and it ends with the name for the same reason. -/
theorem FreeWord.exists_reads (h : FreeWord text start stop) : ∃ s b rest,
    ReadsUnlisted text s b rest ∧ start = s.pos ∧
      stop = start + countWhile Byte.continuesName (b :: rest) := by
  obtain ⟨s, b, rest, k, hreads, hk, rfl⟩ := (h.inside start (Nat.le_refl _) h.lt).exists_reads
  obtain rfl : k = 0 := by
    by_contra hpos
    exact h.left (s.pos + (k - 1)) (by omega) (hreads.freeName (by omega))
  rw [Nat.add_zero] at h
  refine ⟨s, b, rest, hreads, rfl, ?_⟩
  have hlt := h.lt
  rcases Nat.lt_trichotomy stop (s.pos + countWhile Byte.continuesName (b :: rest)) with
    hless | hsame | hmore
  · have hright := hreads.freeName (k := stop - s.pos) (by omega)
    rw [Nat.add_sub_cancel' (Nat.le_of_lt hlt)] at hright
    exact absurd hright h.right
  · exact hsame
  · exact absurd (h.inside _ (Nat.le_add_right _ _) hmore) hreads.not_freeName_behind

/-! ## Completeness -/

theorem not_listed_of_classify {word : Text} (h : classify word = .default) :
    ∀ list ∈ wordLists, list.2 word = false := by
  have hnone := listedClass?_eq word
  rw [if_pos h, listedClass?, Option.map_eq_none_iff, List.find?_eq_none] at hnone
  exact fun list hlist => Bool.eq_false_iff.mpr (hnone list hlist)

theorem opensToken_eq_false (h : Byte.continuesName b = true) : opensToken b = false := by
  rw [← Bool.not_eq_true]
  intro hopens
  rw [Byte.continuesName_eq_false (endsName_of_opensToken hopens)] at h
  cases h

/-- **Nothing that has a class is left out.** No free offset holds a byte that opens a token, and no
free word is in a word list or begins with a digit. -/
theorem tokenize_complete (text : Text) :
    (∀ i b, Free text i → text[i]? = some b → opensToken b = false) ∧
      ∀ start stop, FreeWord text start stop →
        (∀ list ∈ wordLists, list.2 (between text start stop) = false) ∧
          ∀ b, text[start]? = some b → Byte.isDigit b = false := by
  constructor
  · intro i c hfree hc
    obtain ⟨s, b, rest, k, hreads, hk, rfl⟩ := exists_reads hfree.inside
    rw [hreads.getElem?] at hc
    rcases hfree.stray_or_unlisted hreads hk with ⟨rfl, hopens, -⟩ | hunlisted
    · obtain rfl := Option.some.inj hc
      exact hopens
    · rw [hunlisted.skips] at hk
      obtain ⟨d, hd, hname⟩ := countWhile_of_lt hk
      rw [hc] at hd
      obtain rfl := Option.some.inj hd
      exact opensToken_eq_false hname
  · intro start stop hword
    obtain ⟨s, b, rest, hreads, rfl, rfl⟩ := hword.exists_reads
    rw [hreads.between_eq]
    refine ⟨not_listed_of_classify hreads.unlisted, ?_⟩
    intro c hc
    have hhead : text[s.pos]? = some b := hreads.getElem? 0
    rw [hhead] at hc
    obtain rfl := Option.some.inj hc
    exact Byte.isDigit_eq_false_of_startsName hreads.starts

/-- A comment takes a directive beyond its line. The blank on that line is not free, the one behind
the comment is, and the word there is in no list although a keyword begins it. -/
theorem tokenize_complete_behind_directive :
    let text := ascii "#d /*\n*/ ints"
    ¬ Free text 2 ∧ Free text 8 ∧ opensToken ' '.toUInt8 = false ∧ FreeWord text 9 13 ∧
      between text 9 13 = ascii "ints" ∧
      (∀ list ∈ wordLists, list.2 (between text 9 13) = false) ∧
      Byte.isDigit 'i'.toUInt8 = false := by
  intro text
  have htokens : tokenize text =
      [⟨0, 2, .directive, .boldOnly⟩, ⟨3, 5, .comment, .italicOnly⟩] := by decide +kernel
  have hline : lineLength text = 5 := by decide
  have hlength : text.length = 13 := by decide
  have hfree (i : Nat) : Free text i ↔ 8 ≤ i ∧ i < 13 := by
    rw [free_iff, htokens, hlength]
    simp only [List.mem_cons, List.not_mem_nil, or_false, forall_eq_or_imp, forall_eq, Token.Covers,
      Token.stop, OnLineFrom, List.drop_zero, hline, reduceCtorEq, IsEmpty.forall_iff, and_true,
      forall_const]
    omega
  have hword : FreeWord text 9 13 := by
    have hname : ∀ i, 9 ≤ i → i < 13 → text[i]?.any Byte.continuesName = true := by decide
    constructor
    case lt => decide
    case inside => exact fun i hle hlt => ⟨(hfree i).mpr (by omega), hname i hle hlt⟩
    case left =>
      rintro pos hpos ⟨-, hblank⟩
      obtain rfl : pos = 8 := Nat.succ.inj hpos
      exact absurd hblank (by decide)
    case right => exact fun hright => absurd ((hfree 13).mp hright.1).2 (by decide)
  have hblank : Free text 8 := (hfree 8).mpr (by decide)
  obtain ⟨hopens, hwords⟩ := tokenize_complete text
  obtain ⟨hlists, hdigit⟩ := hwords 9 13 hword
  refine ⟨fun hdirected => ?_, hblank, hopens 8 _ hblank rfl, hword, rfl, hlists, hdigit _ rfl⟩
  exact absurd ((hfree 2).mp hdirected).1 (by decide)

end CodePane.Source

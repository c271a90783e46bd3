import CodePane.Proofs.Source.Classes
import CodePane.Proofs.Source.Gaps

/-!
# Directives are recognised exactly

A hash sign begins a directive just where it opens its line and belongs to nothing else. The lexer
keeps a flag for the first. Lexemes that cross lines do not spoil it, since behind each lexeme the
line has something on it, or it ends.

1. `OpensLine`: offsets before which their line is blank.
2. `Ending.inked`, `Visits.flagged`: what the flag says at each station of the lexer.
3. `directive_of_mem_tokenize`, `tokenize_directive_iff`: the hash signs that begin a directive.
-/

namespace CodePane.Source

open Text

variable {text rest : Text} {b : UInt8} {i k n : Nat} {s : Station} {t : Token}

/-! ## Fresh lines -/

/-- Only blanks stand between an offset and the line break before it, or the start of the text. -/
def OpensLine (text : Text) (i : Nat) : Prop :=
  ∃ start ≤ i,
    (∀ j, start ≤ j → j < i → ∃ b, text[j]? = some b ∧ Byte.isSpaceOrTab b = true) ∧
    ∀ j, start = j + 1 → ∃ b, text[j]? = some b ∧ Byte.endsLine b = true

theorem opensLine_zero (text : Text) : OpensLine text 0 :=
  ⟨0, Nat.le_refl 0, fun j _ hj => absurd hj (Nat.not_lt_zero j), fun j hj => by cases hj⟩

theorem opensLine_succ : OpensLine text (i + 1) ↔ ∃ b, text[i]? = some b ∧
    (Byte.endsLine b = true ∨ (Byte.isSpaceOrTab b = true ∧ OpensLine text i)) := by
  constructor
  · rintro ⟨start, hle, hblank, hbreak⟩
    rcases Nat.eq_or_lt_of_le hle with rfl | hlt
    · obtain ⟨b, hb, hends⟩ := hbreak i rfl
      exact ⟨b, hb, .inl hends⟩
    · have hstart : start ≤ i := Nat.le_of_lt_succ hlt
      obtain ⟨b, hb, hspace⟩ := hblank i hstart (Nat.lt_succ_self i)
      have hbefore := fun j hj hji => hblank j hj (Nat.lt_succ_of_lt hji)
      exact ⟨b, hb, .inr ⟨hspace, start, hstart, hbefore, hbreak⟩⟩
  · rintro ⟨b, hb, hends | ⟨hspace, start, hstart, hblank, hbreak⟩⟩
    · refine ⟨i + 1, Nat.le_refl _, fun j hj hji => absurd hji (Nat.not_lt_of_le hj), ?_⟩
      intro j hj
      obtain rfl := Nat.succ.inj hj
      exact ⟨b, hb, hends⟩
    · refine ⟨start, Nat.le_succ_of_le hstart, ?_, hbreak⟩
      intro j hj hji
      rcases Nat.eq_or_lt_of_le (Nat.le_of_lt_succ hji) with rfl | hlt
      · exact ⟨b, hb, hspace⟩
      · exact hblank j hj hlt

theorem not_opensLine_succ (h : text[i]? = some b) (hb : Byte.isInk b = true) :
    ¬ OpensLine text (i + 1) := by
  simp only [Byte.isInk, Bool.and_eq_true, Bool.not_eq_true'] at hb
  rw [opensLine_succ]
  rintro ⟨c, hc, hfresh⟩
  rw [h] at hc
  obtain rfl := Option.some.inj hc
  rw [hb.1, hb.2] at hfresh
  simp at hfresh

theorem lineLength_lt_of_opensLine (hdrop : text.drop i = b :: rest) (hb : Byte.isInk b = true)
    (h : OpensLine text (i + 1 + k)) : lineLength rest < k := by
  have hget (j : Nat) : text[i + j]? = (b :: rest)[j]? := by rw [← hdrop, List.getElem?_drop]
  induction k with
  | zero => exact absurd h (not_opensLine_succ (hget 0) hb)
  | succ k ih =>
    rw [← Nat.add_assoc] at h
    obtain ⟨c, hc, hends | ⟨-, hfresh⟩⟩ := opensLine_succ.mp h
    · rw [Nat.add_assoc, Nat.add_comm 1 k, hget, List.getElem?_cons_succ] at hc
      exact Nat.lt_succ_of_le (lineLength_le hc hends)
    · exact Nat.lt_succ_of_lt (ih hfresh)

/-! ## The flag of the lexer -/

/-- A lexeme that begins with a byte that shows ends behind such a byte, or where its line ends. -/
theorem Ending.inked (h : Ending b rest n) (hb : Byte.isInk b = true) :
    Seam Byte.endsLine Byte.isInk (b :: rest) n := by
  cases h with
  | closed hend => exact Closed.ink hend
  | number hstarts =>
    exact (seam_numberLength hstarts).imp (fun _ => id) fun _ => Byte.isInk_of_holds (by decide)
  | name hstarts =>
    refine MadeOf.seam (MadeOf.countWhile fun _ => Byte.isInk_of_holds (by decide)) ?_
    rw [countWhile_cons_of_pos (continuesName_of_startsName hstarts)]
    exact Nat.succ_pos _
  | byte => exact Seam.behind rfl hb

theorem lexeme_of_blank (h : Byte.isInk b = false) (freshLine : Bool) (rest : Text) :
    lexeme freshLine b rest = .skip 1 := by
  unfold lexeme
  rw [if_pos]
  rwa [Byte.isInk_eq_not, Bool.not_eq_false'] at h

/-- The flag of a station says whether its line is fresh, unless the line ends there. -/
structure Flagged (text : Text) (s : Station) : Prop where
  sound : s.freshLine = true → OpensLine text s.pos
  complete : OpensLine text s.pos →
    s.freshLine = true ∨ ∀ b, text[s.pos]? = some b → Byte.endsLine b = true

theorem Flagged.behind_blank (h : Flagged text s) (hreads : Reads text s b rest) :
    Flagged text ⟨freshLineAfter s.freshLine b, s.pos + 1⟩ := by
  have hb : text[s.pos]? = some b := hreads.getElem? 0
  constructor
  case sound =>
    intro hfresh
    refine opensLine_succ.mpr ⟨b, hb, ?_⟩
    rcases Bool.or_eq_true_iff.mp hfresh with hends | hspace
    · exact .inl hends
    · rw [Bool.and_eq_true] at hspace
      exact .inr ⟨hspace.1, h.sound hspace.2⟩
  case complete =>
    intro hopens
    refine .inl (Bool.or_eq_true_iff.mpr ?_)
    obtain ⟨c, hc, hends | ⟨hspace, hopens⟩⟩ := opensLine_succ.mp hopens
    · rw [hb] at hc
      obtain rfl := Option.some.inj hc
      exact .inl hends
    · rw [hb] at hc
      obtain rfl := Option.some.inj hc
      rcases h.complete hopens with hfresh | hends
      · exact .inr (Bool.and_eq_true_iff.mpr ⟨hspace, hfresh⟩)
      · exact .inl (hends b hb)

/-- The flag is down behind a lexeme that shows, and so it should be. -/
theorem Flagged.behind_ink (hreads : Reads text s b rest) (hb : Byte.isInk b = true) :
    Flagged text ⟨freshLineAfter s.freshLine b, s.pos + (lexeme s.freshLine b rest).length⟩ := by
  have hdown : freshLineAfter s.freshLine b = false := by
    simp only [Byte.isInk, Bool.and_eq_true, Bool.not_eq_true'] at hb
    rw [freshLineAfter, hb.1, hb.2]
    rfl
  constructor
  case sound =>
    intro hfresh
    rw [hdown] at hfresh
    cases hfresh
  case complete =>
    intro hopens
    obtain ⟨-, hends | ⟨m, c, hm, hc, hink⟩⟩ := (lexeme_ending s.freshLine b rest).inked hb
    · refine .inr ?_
      intro c hc
      rw [hreads.getElem?] at hc
      exact hends c hc
    · simp only [hm, ← Nat.add_assoc] at hopens
      rw [← hreads.getElem?] at hc
      exact absurd hopens (not_opensLine_succ hc hink)

/-- **The flag is right wherever the lexer stands.** -/
theorem Visits.flagged (h : Visits text s) : Flagged text s := by
  refine h.induct (P := Flagged text) ⟨fun _ => opensLine_zero text, fun _ => .inl rfl⟩ ?_
  intro s b rest hreads ih
  by_cases hb : Byte.isInk b = true
  · exact Flagged.behind_ink hreads hb
  · rw [lexeme_of_blank (Bool.eq_false_iff.mpr hb)]
    exact ih.behind_blank hreads

/-! ## Directives -/

/-- A directive's token stands where the lexer reads a hash sign on a fresh line. -/
theorem directive_of_mem_tokenize (ht : t ∈ tokenize text) (hclass : t.tokenClass = .directive) :
    ∃ s rest, Reads text s '#'.toUInt8 rest ∧ s.freshLine = true ∧ t.start = s.pos := by
  obtain ⟨s, b, rest, u, hreads, hu, rfl⟩ := mem_tokenize_iff.mp ht
  have hkind := lexeme_kind s.freshLine b rest
  generalize lexeme s.freshLine b rest = l at hu hkind
  cases hkind with
  | solid hsolid => exact absurd hclass (hsolid.classed u hu)
  | directive hhash hfresh =>
    subst hhash
    obtain ⟨head, body, hparts⟩ := directive_parts rest
    rw [hparts.tokens] at hu
    rcases List.mem_cons.mp hu with rfl | hu
    · refine ⟨s, rest, hreads, hfresh, ?_⟩
      rw [Token.shift, hparts.headStart]
      rfl
    · exact absurd hclass (hparts.bodyClass u hu)
  | name => exact absurd hu List.not_mem_nil
  | stray => exact absurd hu List.not_mem_nil

/-- Where the lexer reads a hash sign on a fresh line, a directive's token stands. -/
theorem Reads.exists_directive (h : Reads text s '#'.toUInt8 rest) (hfresh : s.freshLine = true) :
    ∃ t ∈ tokenize text, t.tokenClass = .directive ∧ t.start = s.pos := by
  obtain ⟨head, body, hparts⟩ := directive_parts rest
  have hlexeme : lexeme s.freshLine '#'.toUInt8 rest = directive rest := by
    rw [hfresh]
    rfl
  have hhead : head ∈ (lexeme s.freshLine '#'.toUInt8 rest).tokens := by
    rw [hlexeme, hparts.tokens]
    exact List.mem_cons_self
  have ht := mem_tokenize_iff.mpr ⟨s, _, rest, head, h, hhead, rfl⟩
  refine ⟨head.shift s.pos, ht, hparts.headClass, ?_⟩
  rw [Token.shift, hparts.headStart]
  rfl

/-- A hash sign inside a lexeme that opens a line belongs to a token that is no directive. -/
theorem lexeme_covers_hash (hreads : Reads text s b rest)
    (hk : k + 1 < (lexeme s.freshLine b rest).length)
    (hhash : (b :: rest)[k + 1]? = some '#'.toUInt8) (hopens : OpensLine text (s.pos + (k + 1))) :
    ∃ u ∈ (lexeme s.freshLine b rest).tokens, u.Covers (k + 1) ∧ u.tokenClass ≠ .directive := by
  have hkind := lexeme_kind s.freshLine b rest
  generalize lexeme s.freshLine b rest = l at hk hkind ⊢
  cases hkind with
  | solid hsolid =>
    obtain ⟨u, hu, hcovers⟩ := hsolid.covers (k + 1) hk
    exact ⟨u, hu, hcovers, hsolid.classed u hu⟩
  | directive hb =>
    obtain ⟨head, body, hparts⟩ := directive_parts rest
    have hbehind : lineLength rest < k := by
      refine lineLength_lt_of_opensLine hreads.head (by rw [hb]; decide) ?_
      rwa [Nat.add_assoc, Nat.add_comm 1 k]
    obtain ⟨u, hu, hcover⟩ := hparts.covers (k + 1) (by omega) hk
    refine ⟨u, ?_, hcover, hparts.bodyClass u hu⟩
    rw [hparts.tokens]
    exact List.mem_cons_of_mem _ hu
  | name =>
    have hname := countWhile_le_of_getElem? (p := Byte.continuesName) hhash (by decide)
    exact absurd hk (Nat.not_lt_of_le hname)
  | stray => exact absurd hk (Nat.not_lt_of_le (Nat.le_add_left 1 k))

/-- **Directives are recognised exactly.** A directive begins at a hash sign if and only if the sign
opens its line and no token of another class covers it. -/
theorem tokenize_directive_iff (h : text[i]? = some '#'.toUInt8) :
    (∃ t ∈ tokenize text, t.tokenClass = .directive ∧ t.start = i) ↔
      OpensLine text i ∧ ∀ t ∈ tokenize text, t.Covers i → t.tokenClass = .directive := by
  constructor
  · rintro ⟨t, ht, hclass, rfl⟩
    obtain ⟨s, rest, hreads, hfresh, hstart⟩ := directive_of_mem_tokenize ht hclass
    refine ⟨hstart ▸ hreads.visited.flagged.sound hfresh, ?_⟩
    intro u hu hcovers
    have hself : t.Covers t.start :=
      ⟨Nat.le_refl _, Nat.lt_add_of_pos_right ((tokenize_tidy text).filled t ht)⟩
    rw [(tokenize_tidy text).eq_of_covers hu ht hcovers hself]
    exact hclass
  · rintro ⟨hopens, hfree⟩
    obtain ⟨s, b, rest, k, hreads, hk, rfl⟩ := exists_reads (List.getElem?_eq_some_iff.mp h).1
    rw [hreads.getElem?] at h
    cases k with
    | zero =>
      obtain rfl := Option.some.inj h
      refine hreads.exists_directive ?_
      refine (hreads.visited.flagged.complete hopens).resolve_right ?_
      intro hends
      exact absurd (hends _ (hreads.getElem? 0)) (by decide)
    | succ k =>
      obtain ⟨u, hu, hcovers, hclass⟩ := lexeme_covers_hash hreads hk h hopens
      obtain ⟨ht, hcovers⟩ := (hreads.covers_iff hk).mpr ⟨u, hu, hcovers, rfl⟩
      exact absurd (hfree _ ht hcovers) hclass

/-- A literal takes the break before the first hash sign, which is part of it although it opens a
line; the second one is behind a break and a tab. -/
theorem tokenize_directive_iff_escaped :
    let text := ascii "\"\\\n#\n\t#if"
    (text[3]? = some '#'.toUInt8 ∧ OpensLine text 3 ∧
        ¬ ∃ t ∈ tokenize text, t.tokenClass = .directive ∧ t.start = 3) ∧
      text[6]? = some '#'.toUInt8 ∧ OpensLine text 6 ∧
        ∃ t ∈ tokenize text, t.tokenClass = .directive ∧ t.start = 6 := by
  intro text
  have hliteral : ⟨0, 4, .string, .plain⟩ ∈ tokenize text := by decide +kernel
  have hfirst : OpensLine text 3 := opensLine_succ.mpr ⟨Byte.lineFeed, rfl, .inl rfl⟩
  have hbreak : OpensLine text 5 := opensLine_succ.mpr ⟨Byte.lineFeed, rfl, .inl rfl⟩
  have hsecond : OpensLine text 6 := opensLine_succ.mpr ⟨'\t'.toUInt8, rfl, .inr ⟨rfl, hbreak⟩⟩
  refine ⟨⟨rfl, hfirst, ?_⟩, rfl, hsecond, ?_⟩
  · intro hdirective
    have hclass := ((tokenize_directive_iff rfl).mp hdirective).2 _ hliteral (by decide)
    cases hclass
  · exact (tokenize_directive_iff rfl).mpr ⟨hsecond, by decide +kernel⟩

end CodePane.Source

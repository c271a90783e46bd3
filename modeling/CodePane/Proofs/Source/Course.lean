import CodePane.Proofs.Source.Order
import Mathlib.Logic.Relation

/-!
# The course of the source lexer

The lexer takes a text lexeme by lexeme. Its course is a chain of stations, so what holds wherever
the lexer stands is proved along the chain, and what is said of an offset comes down to the one
lexeme that has it.

1. `Station`, `next?`, `Visits`: where the lexer stands, and how it goes on.
2. `Reads`, `exists_reads`, `Reads.unique`: each offset of a text is in one lexeme of the course.
3. `mem_tokenize_iff`, `Reads.covers_iff`: the tokens of a text, and those that cover an offset.
-/

namespace CodePane.Source

open Text Relation

variable {text suffix rest rest' : Text} {b b' : UInt8} {i k k' : Nat} {t : Token}

/-! ## Stations -/

/-- Where the lexer stands, and whether only blanks stand before it on its line. -/
structure Station where
  freshLine : Bool
  pos : Nat

variable {s s' : Station}

/-- The station behind the lexeme at a station, none at the end of the text. -/
def next? (text : Text) (s : Station) : Option Station :=
  match text.drop s.pos with
  | [] => none
  | b :: rest => some ⟨freshLineAfter s.freshLine b, s.pos + (lexeme s.freshLine b rest).length⟩

/-- The lexer comes from one station to another. -/
def Leads (text : Text) : Station → Station → Prop :=
  ReflTransGen fun s s' => s' ∈ next? text s

/-- The lexer comes to a station. -/
def Visits (text : Text) (s : Station) : Prop := Leads text ⟨true, 0⟩ s

/-- The lexer stands at a station, before a byte and what follows it. -/
structure Reads (text : Text) (s : Station) (b : UInt8) (rest : Text) : Prop where
  visited : Visits text s
  head : text.drop s.pos = b :: rest

theorem exists_head_of_mem_next? (h : s' ∈ next? text s) :
    ∃ b rest, text.drop s.pos = b :: rest ∧
      s' = ⟨freshLineAfter s.freshLine b, s.pos + (lexeme s.freshLine b rest).length⟩ := by
  unfold next? at h
  split at h
  · cases h
  · next b rest hhead => exact ⟨b, rest, hhead, (Option.some.inj h).symm⟩

theorem next?_of_head (h : text.drop s.pos = b :: rest) : next? text s =
    some ⟨freshLineAfter s.freshLine b, s.pos + (lexeme s.freshLine b rest).length⟩ := by
  unfold next?
  rw [h]

theorem Leads.pos_le (h : Leads text s s') : s.pos ≤ s'.pos := by
  induction h with
  | refl => exact Nat.le_refl _
  | tail _ hstep ih =>
    obtain ⟨b, rest, -, rfl⟩ := exists_head_of_mem_next? hstep
    exact Nat.le_trans ih (Nat.le_add_right _ _)

theorem Visits.total (h : Visits text s) (h' : Visits text s') :
    Leads text s s' ∨ Leads text s' s :=
  ReflTransGen.total_of_right_unique (fun _ _ _ => Option.mem_unique) h h'

theorem Reads.next (h : Reads text s b rest) :
    Visits text ⟨freshLineAfter s.freshLine b, s.pos + (lexeme s.freshLine b rest).length⟩ :=
  h.visited.tail (next?_of_head h.head)

theorem Reads.getElem? (h : Reads text s b rest) (k : Nat) :
    text[s.pos + k]? = (b :: rest)[k]? := by
  rw [← h.head, List.getElem?_drop]

/-- What holds at the start of a text, and behind each lexeme if before it, holds wherever the lexer
stands. -/
theorem Visits.induct {P : Station → Prop} (start : P ⟨true, 0⟩)
    (step : ∀ s b rest, Reads text s b rest → P s →
      P ⟨freshLineAfter s.freshLine b, s.pos + (lexeme s.freshLine b rest).length⟩)
    (h : Visits text s) : P s := by
  induction h with
  | refl => exact start
  | tail hvisits hstep ih =>
    obtain ⟨b, rest, hhead, rfl⟩ := exists_head_of_mem_next? hstep
    exact step _ b rest ⟨hvisits, hhead⟩ ih

/-! ## Offsets -/

theorem Visits.exists_head (h : Visits text s) (hlt : s.pos < text.length) :
    ∃ b rest, Reads text s b rest := by
  have hfilled : 0 < (text.drop s.pos).length := by
    rw [List.length_drop]
    omega
  obtain ⟨b, rest, hhead⟩ := List.exists_cons_of_length_pos hfilled
  exact ⟨b, rest, h, hhead⟩

/-- Every offset of a text is in a lexeme. The induction is on the offset: behind the last byte of
one lexeme, the next one begins. -/
theorem exists_reads (h : i < text.length) : ∃ s b rest k, Reads text s b rest ∧
    k < (lexeme s.freshLine b rest).length ∧ i = s.pos + k := by
  induction i with
  | zero =>
    obtain ⟨b, rest, hreads⟩ := Visits.exists_head (s := ⟨true, 0⟩) .refl h
    exact ⟨_, b, rest, 0, hreads, (lexeme_fits true b rest).pos, rfl⟩
  | succ i ih =>
    obtain ⟨s, b, rest, k, hreads, hk, rfl⟩ := ih (Nat.lt_of_succ_lt h)
    by_cases hmore : k + 1 < (lexeme s.freshLine b rest).length
    · exact ⟨s, b, rest, k + 1, hreads, hmore, rfl⟩
    · have hlast : (lexeme s.freshLine b rest).length = k + 1 := by omega
      obtain ⟨c, behind, hnext⟩ := hreads.next.exists_head (by simp only [hlast]; omega)
      refine ⟨_, c, behind, 0, hnext, (lexeme_fits _ c behind).pos, ?_⟩
      simp only [hlast]
      omega

/-- No offset is in two lexemes: of two stations one leads to the other, and if it is another one,
then the lexeme between them ends before it. -/
theorem Reads.unique (h : Reads text s b rest) (h' : Reads text s' b' rest')
    (hk : k < (lexeme s.freshLine b rest).length) (hk' : k' < (lexeme s'.freshLine b' rest').length)
    (hsame : s.pos + k = s'.pos + k') : s = s' ∧ b = b' ∧ rest = rest' := by
  suffices hstation : s = s' by
    subst hstation
    have hhead := h.head.symm.trans h'.head
    exact ⟨rfl, List.cons.inj hhead⟩
  -- a station that another one leads to is behind the other's lexeme
  have hbehind {s s' : Station} {b : UInt8} {rest : Text} (h : text.drop s.pos = b :: rest)
      (hleads : Leads text s s') :
      s = s' ∨ s.pos + (lexeme s.freshLine b rest).length ≤ s'.pos := by
    rcases hleads.cases_head with rfl | ⟨s₁, hstep, hmore⟩
    · exact .inl rfl
    · rw [next?_of_head h] at hstep
      obtain rfl := Option.some.inj hstep
      exact .inr (Leads.pos_le hmore)
  rcases h.visited.total h'.visited with hleads | hleads
  · exact (hbehind h.head hleads).resolve_right (by omega)
  · exact ((hbehind h'.head hleads).resolve_right (by omega)).symm

/-! ## Tokens -/

theorem exists_reads_of_mem_scan {freshLine : Bool} {pos : Nat}
    (hvisits : Visits text ⟨freshLine, pos⟩) (hsuffix : text.drop pos = suffix)
    (ht : t ∈ scan freshLine pos suffix) :
    ∃ s b rest u, Reads text s b rest ∧ u ∈ (lexeme s.freshLine b rest).tokens ∧
      t = u.shift s.pos := by
  fun_induction scan freshLine pos suffix with
  | case1 => exact absurd ht List.not_mem_nil
  | case2 freshLine pos b rest l ih =>
    have hreads : Reads text ⟨freshLine, pos⟩ b rest := ⟨hvisits, hsuffix⟩
    rcases List.mem_append.mp ht with ht | ht
    · obtain ⟨u, hu, rfl⟩ := List.mem_map.mp ht
      exact ⟨_, b, rest, u, hreads, hu, rfl⟩
    · exact ih hreads.next (drop_behind hsuffix (lexeme_fits freshLine b rest).pos) ht

/-- The tokens from a station on are among those from any station that leads there. -/
theorem Leads.mem_scan (h : Leads text s s')
    (ht : t ∈ scan s'.freshLine s'.pos (text.drop s'.pos)) :
    t ∈ scan s.freshLine s.pos (text.drop s.pos) := by
  induction h using ReflTransGen.head_induction_on with
  | refl => exact ht
  | head hstep _ ih =>
    obtain ⟨b, rest, hhead, rfl⟩ := exists_head_of_mem_next? hstep
    rw [hhead, scan]
    rw [drop_behind hhead (lexeme_fits _ b rest).pos] at ih
    exact List.mem_append_right _ ih

/-- **The tokens of a text are those of the lexemes that the lexer reads.** -/
theorem mem_tokenize_iff : t ∈ tokenize text ↔ ∃ s b rest u, Reads text s b rest ∧
    u ∈ (lexeme s.freshLine b rest).tokens ∧ t = u.shift s.pos := by
  constructor
  · exact exists_reads_of_mem_scan .refl rfl
  · rintro ⟨s, b, rest, u, hreads, hu, rfl⟩
    refine hreads.visited.mem_scan ?_
    rw [hreads.head, scan]
    exact List.mem_append_left _ (List.mem_map_of_mem hu)

/-- **What covers an offset is a token of the lexeme that the offset is in.** -/
theorem Reads.covers_iff (h : Reads text s b rest) (hk : k < (lexeme s.freshLine b rest).length) :
    (t ∈ tokenize text ∧ t.Covers (s.pos + k)) ↔
      ∃ u ∈ (lexeme s.freshLine b rest).tokens, u.Covers k ∧ t = u.shift s.pos := by
  constructor
  · rintro ⟨ht, hcovers⟩
    obtain ⟨s', b', rest', u, h', hu, rfl⟩ := mem_tokenize_iff.mp ht
    have hwithin := (lexeme_fits s'.freshLine b' rest').tidy.within u hu
    obtain ⟨k', hk'⟩ : ∃ k', s.pos + k = s'.pos + k' :=
      Nat.exists_eq_add_of_le (Nat.le_trans (Nat.le_add_right _ _) hcovers.1)
    rw [hk', Token.covers_shift] at hcovers
    obtain ⟨rfl, rfl, rfl⟩ := h.unique h' hk (Nat.lt_of_lt_of_le hcovers.2 hwithin.2) hk'
    obtain rfl := Nat.add_left_cancel hk'
    exact ⟨u, hu, hcovers, rfl⟩
  · rintro ⟨u, hu, hcovers, rfl⟩
    exact ⟨mem_tokenize_iff.mpr ⟨s, b, rest, u, h, hu, rfl⟩, Token.covers_shift.mpr hcovers⟩

end CodePane.Source

import CodePane.Lexeme
import Mathlib.Data.List.Pairwise

/-!
# Tidy tokens

What both lexers promise of the tokens they give out.

1. `Tidy`: the tokens lie in a span of the text in order; none is empty, none has the default
   class.
2. `Tidy.append`, `Tidy.shift`, `Tidy.filter_middle`, `Tidy.eq_of_covers`: tidy tokens of adjacent
   spans, of a lexeme further on, those of one span, and those at one offset.
3. `Lexeme.Fits`: a lexeme takes at least one byte, no more than there are, and its tokens are
   tidy inside it.
-/

namespace CodePane

theorem Token.map_shift_zero (tokens : List Token) : tokens.map (Token.shift 0) = tokens := by
  refine (List.map_congr_left fun t _ => ?_).trans (List.map_id tokens)
  rw [Token.shift, Nat.zero_add]
  rfl

theorem Token.shift_injective (n : Nat) : Function.Injective (Token.shift n) := by
  rintro ⟨start, length, c, s⟩ ⟨start', length', c', s'⟩ h
  simpa only [Token.shift, Token.mk.injEq, Nat.add_left_cancel_iff] using h

/-! ## Tidy tokens -/

/-- The tokens lie in `[first, last)` in order, and none is empty or of the default class. -/
structure Tidy (first last : Nat) (tokens : List Token) : Prop where
  ordered : tokens.Pairwise fun a b => a.stop ≤ b.start
  within : ∀ t ∈ tokens, first ≤ t.start ∧ t.stop ≤ last
  filled : ∀ t ∈ tokens, 0 < t.length
  classed : ∀ t ∈ tokens, t.tokenClass ≠ .default

namespace Tidy

variable {first middle last : Nat} {xs ys : List Token}

theorem nil (first last : Nat) : Tidy first last [] where
  ordered := List.Pairwise.nil
  within _ ht := absurd ht List.not_mem_nil
  filled _ ht := absurd ht List.not_mem_nil
  classed _ ht := absurd ht List.not_mem_nil

theorem singleton {t : Token} (hs : first ≤ t.start) (he : t.stop ≤ last) (hl : 0 < t.length)
    (hc : t.tokenClass ≠ .default) : Tidy first last [t] where
  ordered := List.pairwise_singleton _ t
  within u hu := by rw [List.mem_singleton.mp hu]; exact ⟨hs, he⟩
  filled u hu := by rw [List.mem_singleton.mp hu]; exact hl
  classed u hu := by rw [List.mem_singleton.mp hu]; exact hc

theorem ofSpan {c : TokenClass} (hc : c ≠ .default) (s : Style) (h : first < last) :
    Tidy first last [.ofSpan first last c s] := by
  refine singleton (Nat.le_refl _) ?_ ?_ hc
  · simp only [Token.ofSpan, Token.stop]
    omega
  · simp only [Token.ofSpan]
    omega

theorem mono (h : Tidy first middle xs) {start stop : Nat} (hs : start ≤ first)
    (he : middle ≤ stop) : Tidy start stop xs where
  ordered := h.ordered
  within t ht := by have := h.within t ht; omega
  filled := h.filled
  classed := h.classed

/-- Tidy tokens of two adjacent spans are tidy together. -/
theorem append (hx : Tidy first middle xs) (hy : Tidy middle last ys) (h₁ : first ≤ middle)
    (h₂ : middle ≤ last) : Tidy first last (xs ++ ys) where
  ordered := by
    refine List.pairwise_append.mpr ⟨hx.ordered, hy.ordered, fun a ha b hb => ?_⟩
    exact Nat.le_trans (hx.within a ha).2 (hy.within b hb).1
  within t ht := by
    rcases List.mem_append.mp ht with ht | ht
    · have := hx.within t ht; omega
    · have := hy.within t ht; omega
  filled t ht := (List.mem_append.mp ht).elim (hx.filled t) (hy.filled t)
  classed t ht := (List.mem_append.mp ht).elim (hx.classed t) (hy.classed t)

theorem shift (h : Tidy first last xs) (n : Nat) :
    Tidy (n + first) (n + last) (xs.map (Token.shift n)) where
  ordered := by
    refine List.pairwise_map.mpr (h.ordered.imp fun {a b} hab => ?_)
    unfold Token.stop at hab
    simp only [Token.shift, Token.stop]
    omega
  within t ht := by
    obtain ⟨u, hu, rfl⟩ := List.mem_map.mp ht
    have := h.within u hu
    unfold Token.stop at this
    simp only [Token.shift, Token.stop]
    omega
  filled t ht := by
    obtain ⟨u, hu, rfl⟩ := List.mem_map.mp ht
    exact h.filled u hu
  classed t ht := by
    obtain ⟨u, hu, rfl⟩ := List.mem_map.mp ht
    exact h.classed u hu

theorem filter_middle {start stop : Nat} {zs : List Token} (hx : Tidy first start xs)
    (hy : Tidy start stop ys) (hz : Tidy stop last zs) :
    (xs ++ (ys ++ zs)).filter (fun t => start ≤ t.start && t.start < stop) = ys := by
  have hinside : ∀ t ∈ ys, (decide (start ≤ t.start) && decide (t.start < stop)) = true := by
    intro t ht
    have hwithin := hy.within t ht
    have hfilled := hy.filled t ht
    unfold Token.stop at hwithin
    simp only [Bool.and_eq_true, decide_eq_true_eq]
    omega
  rw [List.filter_append, List.filter_append, List.filter_eq_nil_iff.mpr ?before,
    List.filter_eq_self.mpr hinside, List.filter_eq_nil_iff.mpr ?behind, List.nil_append,
    List.append_nil]
  case before =>
    intro t ht
    have hstop := (hx.within t ht).2
    have hfilled := hx.filled t ht
    unfold Token.stop at hstop
    simp only [Bool.and_eq_true, decide_eq_true_eq]
    omega
  case behind =>
    intro t ht
    have hstart := (hz.within t ht).1
    simp only [Bool.and_eq_true, decide_eq_true_eq]
    omega

theorem eq_of_covers (h : Tidy first last xs) {t u : Token} {pos : Nat} (ht : t ∈ xs) (hu : u ∈ xs)
    (hcovers : t.Covers pos) (hcovers' : u.Covers pos) : t = u := by
  have hapart : xs.Pairwise fun t u => t.Covers pos → u.Covers pos → t = u := by
    refine h.ordered.imp fun {t u} hlt hcovers hcovers' => ?_
    exact absurd (Nat.le_trans hlt hcovers'.1) (Nat.not_le_of_lt hcovers.2)
  have hsymm : Std.Symm fun t u : Token => t.Covers pos → u.Covers pos → t = u :=
    ⟨fun t u hsame hcovers hcovers' => (hsame hcovers' hcovers).symm⟩
  exact hapart.forall_of_forall (fun t _ _ _ => rfl) ht hu hcovers hcovers'

end Tidy

/-! ## Lexemes -/

/-- A lexeme at the head of a text of `available` bytes takes at least one of them and no more
than there are, and its tokens are tidy inside it. -/
structure Lexeme.Fits (l : Lexeme) (available : Nat) : Prop where
  pos : 0 < l.length
  le : l.length ≤ available
  tidy : Tidy 0 l.length l.tokens

namespace Lexeme

variable {l : Lexeme} {n available : Nat}

theorem fits_skip (hn : 0 < n) (h : n ≤ available) : (skip n).Fits available :=
  ⟨hn, h, Tidy.nil 0 n⟩

theorem fits_single {c : TokenClass} {s : Style} (hc : c ≠ .default) (hn : 0 < n)
    (h : n ≤ available) : (single n c s).Fits available :=
  ⟨hn, h, Tidy.singleton (Nat.zero_le _) (by simp [Token.stop, single]) hn hc⟩

theorem Fits.tidy_tokensAt (h : l.Fits available) (pos : Nat) :
    Tidy pos (pos + l.length) (l.tokensAt pos) :=
  h.tidy.shift pos

end Lexeme

end CodePane

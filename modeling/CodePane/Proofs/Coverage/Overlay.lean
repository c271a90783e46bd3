import CodePane.Coverage
import CodePane.Proofs.Halving
import Mathlib.Tactic.SplitIfs

/-!
# Laying a token over a whole coverage

Laying tokens over a coverage looks only at the tokens that are not settled yet. `overlay` looks at
all of them, and is the simpler form that proofs work with.

1. `overlay`: what one token leaves of a coverage, with the token between.
2. `ordered_overlay`: it is a coverage again.
3. `laySorted_eq_foldl`: laying tokens in increasing order is overlaying one after the other.
-/

namespace CodePane.Coverage

/-! ## One token -/

/-- What a token leaves of a coverage on its left and on its right, with the token between. -/
def overlay (tokens : List Token) (t : Token) : List Token :=
  tokens.filterMap (before t.start) ++ t :: tokens.filterMap (after t.stop)

theorem before_eq_some {pos : Nat} {t u : Token} (h : before pos t = some u) :
    t.start < pos ∧ u = { t with length := min t.stop pos - t.start } := by
  unfold before at h
  split_ifs at h with hlt
  exact ⟨hlt, (Option.some.inj h).symm⟩

theorem after_eq_some {pos : Nat} {t u : Token} (h : after pos t = some u) :
    pos < t.stop ∧
      u = { t with start := max t.start pos, length := t.stop - max t.start pos } := by
  unfold after at h
  split_ifs at h with hlt
  exact ⟨hlt, (Option.some.inj h).symm⟩

theorem before_of_stop_le {pos : Nat} {t : Token} (hl : 0 < t.length) (h : t.stop ≤ pos) :
    before pos t = some t := by
  unfold before Token.stop at *
  rw [if_pos (by omega), show min (t.start + t.length) pos - t.start = t.length by omega]

theorem before_of_le_start {pos : Nat} {t : Token} (h : pos ≤ t.start) : before pos t = none := by
  unfold before
  rw [if_neg (by omega)]

theorem after_of_le_start {pos : Nat} {t : Token} (hl : 0 < t.length) (h : pos ≤ t.start) :
    after pos t = some t := by
  unfold after Token.stop at *
  rw [if_pos (by omega), show max t.start pos = t.start by omega, Nat.add_sub_cancel_left]

theorem after_of_stop_le {pos : Nat} {t : Token} (h : t.stop ≤ pos) : after pos t = none := by
  unfold after
  rw [if_neg (by omega)]

theorem mem_overlay {tokens : List Token} {t u : Token} :
    u ∈ overlay tokens t ↔
      u = t ∨ ∃ w ∈ tokens, before t.start w = some u ∨ after t.stop w = some u := by
  unfold overlay
  simp only [List.mem_append, List.mem_cons, List.mem_filterMap]
  constructor
  · rintro (⟨w, hw, h⟩ | rfl | ⟨w, hw, h⟩)
    · exact Or.inr ⟨w, hw, Or.inl h⟩
    · exact Or.inl rfl
    · exact Or.inr ⟨w, hw, Or.inr h⟩
  · rintro (rfl | ⟨w, hw, h | h⟩)
    · exact Or.inr (Or.inl rfl)
    · exact Or.inl ⟨w, hw, h⟩
    · exact Or.inr (Or.inr ⟨w, hw, h⟩)

theorem ordered_overlay {tokens : List Token} {t : Token} (h : Ordered tokens)
    (ht : 0 < t.length) : Ordered (overlay tokens t) := by
  constructor
  · have hleft : ∀ a ∈ tokens.filterMap (before t.start), a.stop ≤ t.start := by
      intro a ha
      obtain ⟨w, -, hw⟩ := List.mem_filterMap.mp ha
      obtain ⟨hlt, rfl⟩ := before_eq_some hw
      simp only [Token.stop]
      omega
    have hright : ∀ b ∈ tokens.filterMap (after t.stop), t.stop ≤ b.start := by
      intro b hb
      obtain ⟨w, -, hw⟩ := List.mem_filterMap.mp hb
      obtain ⟨-, rfl⟩ := after_eq_some hw
      exact Nat.le_max_right _ _
    refine List.pairwise_append.mpr ⟨?_, List.pairwise_cons.mpr ⟨hright, ?_⟩, ?_⟩
    · refine h.1.filterMap _ fun a b hab a' ha' b' hb' => ?_
      obtain ⟨-, rfl⟩ := before_eq_some ha'
      obtain ⟨-, rfl⟩ := before_eq_some hb'
      simp only [Token.stop] at hab ⊢
      omega
    · refine h.1.filterMap _ fun a b hab a' ha' b' hb' => ?_
      obtain ⟨hlt, rfl⟩ := after_eq_some ha'
      obtain ⟨-, rfl⟩ := after_eq_some hb'
      simp only [Token.stop] at hab hlt ⊢
      omega
    · intro a ha b hb
      have hat := hleft a ha
      rcases List.mem_cons.mp hb with rfl | hb
      · exact hat
      · have htb := hright b hb
        unfold Token.stop at htb
        omega
  · intro u hu
    rcases mem_overlay.mp hu with rfl | ⟨w, hw, hu | hu⟩
    · exact ht
    · have hl := h.2 w hw
      obtain ⟨hlt, rfl⟩ := before_eq_some hu
      simp only [Token.stop]
      omega
    · have hl := h.2 w hw
      obtain ⟨hlt, rfl⟩ := after_eq_some hu
      simp only [Token.stop] at hlt ⊢
      omega

/-! ## The window of a token -/

theorem filterMap_eq_self {f : Token → Option Token} {tokens : List Token}
    (h : ∀ u ∈ tokens, f u = some u) : tokens.filterMap f = tokens :=
  (List.filterMap_congr h).trans List.filterMap_some

/-- Tokens that end by the start of `t` are not touched, and only those that begin before its end
have to be looked at. -/
theorem overlay_append {settled tokens : List Token} {t : Token} (h : Ordered (settled ++ tokens))
    (ht : 0 < t.length) (hs : ∀ u ∈ settled, u.stop ≤ t.start) :
    overlay (settled ++ tokens) t = settled ++ layOne t tokens := by
  obtain ⟨hpair, hfilled⟩ := h
  have hsettled : settled.filterMap (before t.start) = settled :=
    filterMap_eq_self fun u hu =>
      before_of_stop_le (hfilled u (List.mem_append_left _ hu)) (hs u hu)
  have hnone : settled.filterMap (after t.stop) = [] := by
    refine List.filterMap_eq_nil_iff.mpr fun u hu => after_of_stop_le ?_
    have := hs u hu
    unfold Token.stop at *
    omega
  have hbeyond : ∀ u ∈ tokens.dropWhile (·.start < t.stop), t.stop ≤ u.start := by
    have hp : tokens.Pairwise fun a b => decide (b.start < t.stop) = true →
        decide (a.start < t.stop) = true := by
      refine (List.pairwise_append.mp hpair).2.1.imp fun {a b} hab hb => ?_
      simp only [decide_eq_true_eq] at hb ⊢
      unfold Token.stop at *
      omega
    intro u hu
    have := not_of_mem_dropWhile hp u hu
    simp only [decide_eq_true_eq] at this
    omega
  have hleft : (tokens.dropWhile (·.start < t.stop)).filterMap (before t.start) = [] := by
    refine List.filterMap_eq_nil_iff.mpr fun u hu => before_of_le_start ?_
    have := hbeyond u hu
    unfold Token.stop at this
    omega
  have hright : (tokens.dropWhile (·.start < t.stop)).filterMap (after t.stop) =
      tokens.dropWhile (·.start < t.stop) :=
    filterMap_eq_self fun u hu => after_of_le_start
      (hfilled u (List.mem_append_right _ ((List.dropWhile_suffix _).subset hu))) (hbeyond u hu)
  have hsplit : settled ++ tokens = settled ++
      (tokens.takeWhile (·.start < t.stop) ++ tokens.dropWhile (·.start < t.stop)) := by
    rw [List.takeWhile_append_dropWhile]
  unfold overlay layOne
  rw [hsplit]
  simp only [List.filterMap_append, hsettled, hnone, hleft, hright, List.append_nil,
    List.nil_append, List.append_assoc]

/-! ## Several tokens -/

/-- Tokens laid in increasing order leave alone what ends before the first of them. -/
theorem foldl_overlay_append {settled tokens incoming : List Token}
    (h : Ordered (settled ++ tokens)) (hs : ∀ u ∈ settled, ∀ t ∈ incoming, u.stop ≤ t.start)
    (hsort : incoming.Pairwise fun a b => a.start ≤ b.start) (hf : ∀ t ∈ incoming, 0 < t.length) :
    incoming.foldl overlay (settled ++ tokens) = settled ++ laySorted tokens incoming := by
  induction incoming generalizing settled tokens with
  | nil => rfl
  | cons t incoming ih =>
    obtain ⟨hfirst, hsort⟩ := List.pairwise_cons.mp hsort
    have ht := hf t List.mem_cons_self
    have hsplit : settled ++ tokens = settled ++ tokens.takeWhile (·.stop ≤ t.start) ++
        tokens.dropWhile (·.stop ≤ t.start) := by
      rw [List.append_assoc, List.takeWhile_append_dropWhile]
    have hended : ∀ u ∈ settled ++ tokens.takeWhile (·.stop ≤ t.start), u.stop ≤ t.start := by
      intro u hu
      rcases List.mem_append.mp hu with hu | hu
      · exact hs u hu t List.mem_cons_self
      · simpa using List.mem_takeWhile_imp hu
    have hstep := overlay_append (hsplit ▸ h) ht hended
    rw [List.foldl_cons, hsplit, hstep, ih (hstep ▸ ordered_overlay (hsplit ▸ h) ht)
      (fun u hu s hs => Nat.le_trans (hended u hu) (hfirst s hs)) hsort
      (fun s hs => hf s (List.mem_cons_of_mem _ hs)), laySorted, List.append_assoc]

/-- **Overlaying.** Laying tokens in increasing order of their starts over a coverage is overlaying
them one after the other. -/
theorem laySorted_eq_foldl {tokens incoming : List Token} (h : Ordered tokens)
    (hsort : incoming.Pairwise fun a b => a.start ≤ b.start) (hf : ∀ t ∈ incoming, 0 < t.length) :
    laySorted tokens incoming = incoming.foldl overlay tokens := by
  have hall := foldl_overlay_append (show Ordered ([] ++ tokens) from h) (by simp) hsort hf
  rw [List.nil_append, List.nil_append] at hall
  exact hall.symm

end CodePane.Coverage

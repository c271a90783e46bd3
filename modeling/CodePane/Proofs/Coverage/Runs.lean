import CodePane.Proofs.Coverage.Overlay

/-!
# Runs of offsets with one owner

A coverage draws a picture of which offset belongs to what: every token is a longest run of offsets
that have one owner. This file says what overlaying a token does to the picture.

1. `IsRun`: the longest runs of an ownership.
2. `Renders`: a coverage whose tokens are exactly the runs (`Renders.mem_iff`).
3. `Renders.overlaid`: laying a token over a coverage gives its offsets a new owner.
4. `Renders.overlaidAll`: several tokens, one after the other.
-/

namespace CodePane.Coverage

variable {ι : Type} {owns : Nat → ι → Prop} {o new : ι} {t : Token}

/-! ## Runs -/

/-- `[start, stop)` is a longest run of offsets that belong to `o`. -/
structure IsRun (owns : Nat → ι → Prop) (o : ι) (start stop : Nat) : Prop where
  lt : start < stop
  inside : ∀ pos, start ≤ pos → pos < stop → owns pos o
  left : ∀ pos, pos + 1 = start → ¬ owns pos o
  right : ¬ owns stop o

theorem IsRun.unique {a b c d pos : Nat} (h : IsRun owns o a b) (h' : IsRun owns o c d)
    (hp : a ≤ pos ∧ pos < b) (hp' : c ≤ pos ∧ pos < d) : a = c ∧ b = d := by
  constructor
  · by_contra hne
    rcases Nat.lt_or_gt_of_ne hne with hlt | hlt
    · exact h'.left (c - 1) (by omega) (h.inside (c - 1) (by omega) (by omega))
    · exact h.left (a - 1) (by omega) (h'.inside (a - 1) (by omega) (by omega))
  · by_contra hne
    rcases Nat.lt_or_gt_of_ne hne with hlt | hlt
    · exact h.right (h'.inside b (by omega) (by omega))
    · exact h'.right (h.inside d (by omega) (by omega))

/-! ## Ownership under a new token -/

/-- The ownership after token `t` with owner `new` has been laid over it. -/
def laidOver (t : Token) (new : ι) (owns : Nat → ι → Prop) (pos : Nat) (o : ι) : Prop :=
  if t.Covers pos then o = new else owns pos o

theorem laidOver_of_covers {pos : Nat} (h : t.Covers pos) :
    laidOver t new owns pos o ↔ o = new := by
  unfold laidOver
  rw [if_pos h]

theorem laidOver_of_not_covers {pos : Nat} (h : ¬ t.Covers pos) :
    laidOver t new owns pos o ↔ owns pos o := by
  unfold laidOver
  rw [if_neg h]

theorem isRun_laidOver (ht : 0 < t.length) (hnew : ∀ pos, ¬ owns pos new) :
    IsRun (laidOver t new owns) new t.start t.stop where
  lt := by unfold Token.stop; omega
  inside pos h₁ h₂ := (laidOver_of_covers ⟨h₁, h₂⟩).mpr rfl
  left pos hpos h := by
    have hout : ¬ t.Covers pos := fun hc => by have := hc.1; omega
    exact hnew pos ((laidOver_of_not_covers hout).mp h)
  right h := by
    have hout : ¬ t.Covers t.stop := fun hc => Nat.lt_irrefl _ hc.2
    exact hnew t.stop ((laidOver_of_not_covers hout).mp h)

theorem IsRun.before {a b : Nat} (h : IsRun owns o a b) (ho : o ≠ new) (ht : 0 < t.length)
    (hlt : a < t.start) : IsRun (laidOver t new owns) o a (min b t.start) := by
  have hout : ∀ pos, pos < t.start → ¬ t.Covers pos := fun pos hpos hc => by
    have := hc.1
    omega
  refine ⟨?_, fun pos h₁ h₂ => ?_, fun pos hpos hown => ?_, fun hown => ?_⟩
  · have := h.lt
    omega
  · exact (laidOver_of_not_covers (hout pos (by omega))).mpr (h.inside pos h₁ (by omega))
  · exact h.left pos hpos ((laidOver_of_not_covers (hout pos (by omega))).mp hown)
  · by_cases hb : b < t.start
    · rw [show min b t.start = b by omega] at hown
      exact h.right ((laidOver_of_not_covers (hout b hb)).mp hown)
    · rw [show min b t.start = t.start by omega] at hown
      have hcover : t.Covers t.start := ⟨Nat.le_refl _, by unfold Token.stop; omega⟩
      exact ho ((laidOver_of_covers hcover).mp hown)

theorem IsRun.after {a b : Nat} (h : IsRun owns o a b) (ho : o ≠ new) (ht : 0 < t.length)
    (hlt : t.stop < b) : IsRun (laidOver t new owns) o (max a t.stop) b := by
  have hout : ∀ pos, t.stop ≤ pos → ¬ t.Covers pos := fun pos hpos hc => by
    have := hc.2
    omega
  refine ⟨?_, fun pos h₁ h₂ => ?_, fun pos hpos hown => ?_, fun hown => ?_⟩
  · have := h.lt
    omega
  · exact (laidOver_of_not_covers (hout pos (by omega))).mpr (h.inside pos (by omega) h₂)
  · by_cases ha : t.stop < a
    · have hleft := h.left pos (by omega)
      exact hleft ((laidOver_of_not_covers (hout pos (by omega))).mp hown)
    · have hcover : t.Covers pos := by
        unfold Token.Covers
        unfold Token.stop at *
        omega
      exact ho ((laidOver_of_covers hcover).mp hown)
  · exact h.right ((laidOver_of_not_covers (hout b (by omega))).mp hown)

/-! ## Rendering -/

/-- How a token looks, apart from where it is. -/
def look (t : Token) : TokenClass × Style := (t.tokenClass, t.style)

/-- The tokens are the runs of an ownership, each with the looks of its owner. -/
structure Renders (owns : Nat → ι → Prop) (looks : ι → Option (TokenClass × Style))
    (tokens : List Token) : Prop where
  unique : ∀ pos a b, owns pos a → owns pos b → a = b
  ordered : Ordered tokens
  runs : ∀ t ∈ tokens, ∃ o, IsRun owns o t.start t.stop ∧ looks o = some (look t)
  covered : ∀ pos o, owns pos o → ∃ t ∈ tokens, t.Covers pos

namespace Renders

variable {looks : ι → Option (TokenClass × Style)} {tokens : List Token}

theorem mem_iff (h : Renders owns looks tokens) (t : Token) :
    t ∈ tokens ↔ ∃ o, IsRun owns o t.start t.stop ∧ looks o = some (look t) := by
  constructor
  · exact h.runs t
  · rintro ⟨o, hrun, hlook⟩
    have hstart := hrun.inside t.start (Nat.le_refl _) hrun.lt
    obtain ⟨u, hu, hcover⟩ := h.covered t.start o hstart
    obtain ⟨o', hrun', hlook'⟩ := h.runs u hu
    obtain rfl := h.unique _ _ _ hstart (hrun'.inside _ hcover.1 hcover.2)
    obtain ⟨hs, he⟩ := hrun.unique hrun' ⟨Nat.le_refl _, hrun.lt⟩ hcover
    have hl : look t = look u := Option.some.inj (hlook.symm.trans hlook')
    have heq : t = u := by
      cases t
      cases u
      simp only [look, Token.stop, Prod.mk.injEq] at hl hs he
      obtain ⟨rfl, rfl⟩ := hl
      subst hs
      congr 1
      omega
    exact heq ▸ hu

/-- **One token.** A token laid over a coverage takes its offsets from their owners and leaves all
other offsets to them. -/
theorem overlaid (h : Renders owns looks tokens) (ht : 0 < t.length)
    (hnew : ∀ pos, ¬ owns pos new) (hlook : looks new = some (look t)) :
    Renders (laidOver t new owns) looks (overlay tokens t) where
  unique pos a b ha hb := by
    by_cases hcover : t.Covers pos
    · rw [laidOver_of_covers hcover] at ha hb
      rw [ha, hb]
    · rw [laidOver_of_not_covers hcover] at ha hb
      exact h.unique pos a b ha hb
  ordered := ordered_overlay h.ordered ht
  runs u hu := by
    rcases mem_overlay.mp hu with rfl | ⟨w, hw, hu⟩
    · exact ⟨new, isRun_laidOver ht hnew, hlook⟩
    · obtain ⟨o, hrun, hlook⟩ := h.runs w hw
      have hwl := h.ordered.2 w hw
      have ho : o ≠ new := by
        rintro rfl
        exact hnew w.start (hrun.inside _ (Nat.le_refl _) hrun.lt)
      rcases hu with hu | hu
      · obtain ⟨hlt, rfl⟩ := before_eq_some hu
        have hpart := hrun.before ho ht hlt
        rw [show min w.stop t.start = w.start + (min w.stop t.start - w.start) by
          unfold Token.stop; omega] at hpart
        exact ⟨o, hpart, hlook⟩
      · obtain ⟨hlt, rfl⟩ := after_eq_some hu
        have hpart := hrun.after ho ht hlt
        refine ⟨o, ?_, hlook⟩
        have hstop : max w.start t.stop + (w.stop - max w.start t.stop) = w.stop := by
          unfold Token.stop at *
          omega
        unfold Token.stop at *
        rw [hstop]
        exact hpart
  covered pos o hown := by
    by_cases hcover : t.Covers pos
    · exact ⟨t, mem_overlay.mpr (Or.inl rfl), hcover⟩
    · obtain ⟨w, hw, hwcover⟩ := h.covered pos o ((laidOver_of_not_covers hcover).mp hown)
      obtain ⟨hws, hwe⟩ := hwcover
      by_cases hpos : pos < t.start
      · refine ⟨_, mem_overlay.mpr (Or.inr ⟨w, hw, Or.inl (if_pos ?_)⟩), hws, ?_⟩
        · omega
        · simp only [Token.stop] at *
          omega
      · have hstop : t.stop ≤ pos := by
          by_contra hlt
          exact hcover ⟨by omega, by omega⟩
        refine ⟨_, mem_overlay.mpr (Or.inr ⟨w, hw, Or.inr (if_pos ?_)⟩), ?_, ?_⟩
        · omega
        · simp only
          omega
        · simp only [Token.stop] at *
          omega

end Renders

/-! ## Several tokens -/

/-- The ownership after tokens with their owners have been laid over it, one after the other. -/
def laidOverAll (batch : List (Token × ι)) (owns : Nat → ι → Prop) : Nat → ι → Prop :=
  batch.foldl (fun owns x => laidOver x.1 x.2 owns) owns

/-- The last token that covers an offset owns it, and where there is none all stays as it was. -/
theorem laidOverAll_iff (batch : List (Token × ι)) (owns : Nat → ι → Prop) (pos : Nat) (o : ι) :
    laidOverAll batch owns pos o ↔
      match (batch.filter fun x => x.1.Covers pos).getLast? with
      | some x => o = x.2
      | none => owns pos o := by
  induction batch generalizing owns with
  | nil => rfl
  | cons x rest ih =>
    have hstep : laidOverAll (x :: rest) owns = laidOverAll rest (laidOver x.1 x.2 owns) := rfl
    rw [hstep, ih]
    by_cases hcover : x.1.Covers pos
    · rw [List.filter_cons_of_pos (by simpa using hcover), List.getLast?_cons]
      cases (rest.filter fun x => x.1.Covers pos).getLast? with
      | none => exact laidOver_of_covers hcover
      | some y => rfl
    · rw [List.filter_cons_of_neg (by simpa using hcover)]
      cases (rest.filter fun x => x.1.Covers pos).getLast? with
      | none => exact laidOver_of_not_covers hcover
      | some y => rfl

/-- **Several tokens.** Tokens of different new owners, laid one after the other, take their offsets
from the owners before them. -/
theorem Renders.overlaidAll {looks : ι → Option (TokenClass × Style)} {tokens : List Token}
    (h : Renders owns looks tokens) {batch : List (Token × ι)}
    (hfilled : ∀ x ∈ batch, 0 < x.1.length) (hnew : ∀ x ∈ batch, ∀ pos, ¬ owns pos x.2)
    (hdistinct : batch.Pairwise fun a b => a.2 ≠ b.2)
    (hlook : ∀ x ∈ batch, looks x.2 = some (look x.1)) :
    Renders (laidOverAll batch owns) looks ((batch.map Prod.fst).foldl overlay tokens) := by
  induction batch generalizing owns tokens with
  | nil => exact h
  | cons x rest ih =>
    obtain ⟨hfirst, hdistinct⟩ := List.pairwise_cons.mp hdistinct
    have hstep := h.overlaid (hfilled x List.mem_cons_self) (hnew x List.mem_cons_self)
      (hlook x List.mem_cons_self)
    refine ih hstep (fun y hy => hfilled y (List.mem_cons_of_mem _ hy)) (fun y hy pos hown => ?_)
      hdistinct (fun y hy => hlook y (List.mem_cons_of_mem _ hy))
    -- the owners to come are still new
    by_cases hcover : x.1.Covers pos
    · exact hfirst y hy ((laidOver_of_covers hcover).mp hown).symm
    · exact hnew y (List.mem_cons_of_mem _ hy) pos ((laidOver_of_not_covers hcover).mp hown)

end CodePane.Coverage

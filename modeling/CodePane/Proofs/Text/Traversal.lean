import CodePane.Proofs.Text.Columns
import Mathlib.Algebra.Order.SuccPred
import Mathlib.Data.Nat.SuccPred
import Mathlib.Data.Set.Function
import Mathlib.Order.Bounds.Basic
import Mathlib.Order.SuccPred.Archimedean

/-!
# Boundaries in order

The moves between boundaries are the order of the boundaries: to the nearest one on either side of
an offset, and from each one to its neighbours. The backward moves look at four bytes only, while a
boundary is what decoding from the start of the text reaches; `Boundary.codepoint_le` joins the two,
since it leaves no boundary between the ends of a codepoint.

1. `isGreatest_floorBoundary`, `isLeast_ceilBoundary`: the nearest boundaries.
2. `Boundary.isLeast_stepForward`, `Boundary.isGreatest_stepBack`: the neighbours of a boundary.
3. `bijOn_iterate_stepForward`, `bijOn_iterate_stepBack`: walks over all boundaries.
4. `moves_follow_order`: all of it together.
-/

namespace CodePane.Text

variable {text : Text} {pos b : Nat}

/-! ## The nearest boundaries -/

theorem isGreatest_floorBoundary (text : Text) (pos : Nat) :
    IsGreatest {b | Boundary text b ∧ b ≤ min pos text.length} (floorBoundary text pos) := by
  rcases Nat.lt_or_ge pos text.length with hlt | hge
  · obtain ⟨b, c, hb, hc, hle, hin⟩ := exists_boundary_le hlt
    rw [floorBoundary_eq hb hc hle hin, Nat.min_eq_left (Nat.le_of_lt hlt)]
    refine ⟨⟨hb, hle⟩, ?_⟩
    rintro b' ⟨hb', hle'⟩
    apply Nat.le_of_not_lt
    intro hbehind
    have := hb'.codepoint_le hb hc hbehind
    omega
  · rw [floorBoundary_of_length_le hge, Nat.min_eq_right hge]
    refine ⟨⟨boundary_length text, Nat.le_refl _⟩, ?_⟩
    rintro b' ⟨-, hle'⟩
    exact hle'

theorem Boundary.isLeast_stepForward (h : Boundary text pos) (hlt : pos < text.length) :
    IsLeast {b | Boundary text b ∧ pos < b} (Text.stepForward text pos) := by
  obtain ⟨c, hc⟩ := codepointAt_of_lt hlt
  have hsize := codepointAt_size_pos hc
  rw [stepForward_eq hc]
  refine ⟨⟨.step h hc, by omega⟩, ?_⟩
  rintro b ⟨hb, hbehind⟩
  exact hb.codepoint_le h hc hbehind

theorem isLeast_ceilBoundary (text : Text) (pos : Nat) :
    IsLeast {b | Boundary text b ∧ min pos text.length ≤ b} (ceilBoundary text pos) := by
  obtain ⟨⟨hfloor, hle⟩, hgreatest⟩ := isGreatest_floorBoundary text pos
  unfold ceilBoundary
  simp only
  by_cases haligned : floorBoundary text pos = min pos text.length
  · rw [if_pos haligned]
    refine ⟨⟨hfloor, Nat.le_of_eq haligned.symm⟩, ?_⟩
    rintro b ⟨-, hb⟩
    rw [haligned]
    exact hb
  -- else the offset is inside a codepoint, and every later boundary comes after all of it
  · rw [if_neg haligned]
    have hnext := hfloor.isLeast_stepForward (by omega)
    refine ⟨⟨hnext.1.1, ?_⟩, ?_⟩
    · apply Nat.le_of_not_lt
      intro hbefore
      have := hgreatest ⟨hnext.1.1, Nat.le_of_lt hbefore⟩
      have := hnext.1.2
      omega
    · rintro b ⟨hb, hle'⟩
      exact hnext.2 ⟨hb, by omega⟩

/-! ## The neighbours of a boundary -/

theorem stepForward_length (text : Text) : stepForward text text.length = text.length := by
  unfold stepForward codepointAt
  rw [List.drop_length]
  rfl

theorem Boundary.stepBack_stepForward (h : Boundary text pos) (hlt : pos < text.length) :
    Text.stepBack text (Text.stepForward text pos) = pos := by
  obtain ⟨c, hc⟩ := codepointAt_of_lt hlt
  rw [stepForward_eq hc]
  exact stepBack_eq h hc

theorem Boundary.stepForward_stepBack (h : Boundary text pos) (hpos : 0 < pos) :
    Text.stepForward text (Text.stepBack text pos) = pos := by
  cases h with
  | zero => exact absurd hpos (Nat.lt_irrefl 0)
  | step hb hc =>
    rw [stepBack_eq hb hc]
    exact stepForward_eq hc

/-- A step back leads to the boundary before. -/
theorem Boundary.isGreatest_stepBack (h : Boundary text pos) (hpos : 0 < pos) :
    IsGreatest {b | Boundary text b ∧ b < pos} (Text.stepBack text pos) := by
  cases h with
  | zero => exact absurd hpos (Nat.lt_irrefl 0)
  | @step before c hb hc =>
    have hsize := codepointAt_size_pos hc
    rw [stepBack_eq hb hc]
    refine ⟨⟨hb, by omega⟩, ?_⟩
    rintro b' ⟨hb', hlt⟩
    apply Nat.le_of_not_lt
    intro hbehind
    have := hb'.codepoint_le hb hc hbehind
    omega

/-! ## Walks -/

theorem Boundary.iterate_stepForward (h : Boundary text pos) (k : Nat) :
    Boundary text ((Text.stepForward text)^[k] pos) := by
  induction k generalizing pos with
  | zero => exact h
  | succ k ih => exact ih h.stepForward

/-- Stepping forward from the start reaches the boundaries and nothing else. -/
theorem boundary_iff_iterate : Boundary text b ↔ ∃ k, (stepForward text)^[k] 0 = b := by
  constructor
  · intro h
    induction h with
    | zero => exact ⟨0, rfl⟩
    | @step pos c hpos hc ih =>
      obtain ⟨k, rfl⟩ := ih
      refine ⟨k + 1, ?_⟩
      rw [Function.iterate_succ_apply']
      exact stepForward_eq hc
  · rintro ⟨k, rfl⟩
    exact Boundary.zero.iterate_stepForward k

def numCodepoints (text : Text) : Nat := (codepoints text 0 text.length).length

theorem length_codepoints_of_lt (h : pos < text.length) :
    (codepoints text pos text.length).length =
      (codepoints text (stepForward text pos) text.length).length + 1 := by
  obtain ⟨c, hc⟩ := codepointAt_of_lt h
  rw [codepoints_of_lt hc h, stepForward_eq hc, List.length_cons]

/-- Each codepoint from an offset on is one step, and the last step leads to the end of the text.
The induction is on how much of the text remains. -/
theorem iterate_length_codepoints (h : pos ≤ text.length) :
    (stepForward text)^[(codepoints text pos text.length).length] pos = text.length ∧
      ∀ k < (codepoints text pos text.length).length,
        (stepForward text)^[k] pos < text.length := by
  induction hn : text.length - pos using Nat.strongRecOn generalizing pos with
  | ind n ih =>
    rcases Nat.eq_or_lt_of_le h with rfl | hlt
    · rw [codepoints_of_le text (Nat.le_refl _)]
      refine ⟨rfl, ?_⟩
      intro k hk
      exact absurd hk (Nat.not_lt_zero k)
    · obtain ⟨c, hc⟩ := codepointAt_of_lt hlt
      have hsize := codepointAt_size_pos hc
      have hnext := stepForward_eq hc
      obtain ⟨hend, hbefore⟩ := ih (text.length - stepForward text pos) (by omega)
        (hnext ▸ codepointAt_le_length hc) rfl
      rw [length_codepoints_of_lt hlt]
      refine ⟨hend, ?_⟩
      intro k hk
      cases k with
      | zero => exact hlt
      | succ k => exact hbefore k (Nat.lt_of_succ_lt_succ hk)

theorem iterate_numCodepoints (text : Text) :
    (stepForward text)^[numCodepoints text] 0 = text.length :=
  (iterate_length_codepoints (Nat.zero_le _)).1

theorem iterate_lt_length {k : Nat} (h : k < numCodepoints text) :
    (stepForward text)^[k] 0 < text.length :=
  (iterate_length_codepoints (Nat.zero_le _)).2 k h

theorem strictMonoOn_iterate_stepForward (text : Text) :
    StrictMonoOn (fun k => (stepForward text)^[k] 0) (Set.Iic (numCodepoints text)) := by
  apply strictMonoOn_of_lt_add_one Set.ordConnected_Iic
  intro k _ _ hk
  have hlt := iterate_lt_length (Nat.lt_of_succ_le hk)
  have hnext := (Boundary.zero.iterate_stepForward k).isLeast_stepForward hlt
  show (stepForward text)^[k] 0 < (stepForward text)^[k + 1] 0
  rw [Function.iterate_succ_apply']
  exact hnext.1.2

/-- Stepping forward from the start visits every boundary exactly once. -/
theorem bijOn_iterate_stepForward (text : Text) :
    Set.BijOn (fun k => (stepForward text)^[k] 0) (Set.Iic (numCodepoints text))
      {b | Boundary text b} := by
  refine ⟨?_, (strictMonoOn_iterate_stepForward text).injOn, ?_⟩
  · intro k _
    exact Boundary.zero.iterate_stepForward k
  · intro b hb
    obtain ⟨k, rfl⟩ := boundary_iff_iterate.mp hb
    rcases Nat.le_total k (numCodepoints text) with hle | hle
    · exact ⟨k, hle, rfl⟩
    -- behind the end every further step stays there
    · refine ⟨numCodepoints text, Nat.le_refl _, ?_⟩
      obtain ⟨j, rfl⟩ := Nat.exists_eq_add_of_le' hle
      simp only [Function.iterate_add_apply, iterate_numCodepoints]
      exact (Function.iterate_fixed (stepForward_length text) j).symm

/-- A walk back from the end is the walk from the start reversed. -/
theorem iterate_stepBack {k : Nat} (h : k ≤ numCodepoints text) :
    (stepBack text)^[k] text.length = (stepForward text)^[numCodepoints text - k] 0 := by
  induction k with
  | zero => exact (iterate_numCodepoints text).symm
  | succ k ih =>
    have hprevious : numCodepoints text - k = numCodepoints text - (k + 1) + 1 := by omega
    have hlt : (stepForward text)^[numCodepoints text - (k + 1)] 0 < text.length :=
      iterate_lt_length (by omega)
    rw [Function.iterate_succ_apply', ih (by omega), hprevious, Function.iterate_succ_apply']
    exact (Boundary.zero.iterate_stepForward _).stepBack_stepForward hlt

theorem bijOn_iterate_stepBack (text : Text) :
    Set.BijOn (fun k => (stepBack text)^[k] text.length) (Set.Iic (numCodepoints text))
      {b | Boundary text b} := by
  have hreverse : Set.BijOn (fun k => numCodepoints text - k) (Set.Iic (numCodepoints text))
      (Set.Iic (numCodepoints text)) := by
    refine ⟨fun k _ => Nat.sub_le _ k, ?_, ?_⟩
    · intro i hi j hj hij
      rw [Set.mem_Iic] at hi hj
      simp only at hij
      omega
    · intro k hk
      exact ⟨numCodepoints text - k, Nat.sub_le _ k, Nat.sub_sub_self hk⟩
  refine ((bijOn_iterate_stepForward text).comp hreverse).congr ?_
  intro k hk
  exact (iterate_stepBack hk).symm

/-! ## All of it together -/

/-- The moves between the boundaries of a text, as their order says: to the nearest ones of an
offset, to the neighbours of a boundary, there and back, and over all of them. -/
structure InOrder (text : Text) : Prop where
  floor pos : IsGreatest {b | Boundary text b ∧ b ≤ min pos text.length} (floorBoundary text pos)
  ceil pos : IsLeast {b | Boundary text b ∧ min pos text.length ≤ b} (ceilBoundary text pos)
  forward pos : Boundary text pos → pos < text.length →
    IsLeast {b | Boundary text b ∧ pos < b} (stepForward text pos)
  forward_length : stepForward text text.length = text.length
  back pos : Boundary text pos → 0 < pos →
    IsGreatest {b | Boundary text b ∧ b < pos} (stepBack text pos)
  back_zero : stepBack text 0 = 0
  back_forward pos : Boundary text pos → pos < text.length →
    stepBack text (stepForward text pos) = pos
  forward_back pos : Boundary text pos → 0 < pos → stepForward text (stepBack text pos) = pos
  visits_forward : Set.BijOn (fun k => (stepForward text)^[k] 0) (Set.Iic (numCodepoints text))
    {b | Boundary text b}
  visits_back : Set.BijOn (fun k => (stepBack text)^[k] text.length) (Set.Iic (numCodepoints text))
    {b | Boundary text b}

/-- **The moves between boundaries follow their order**, whatever bytes the text holds. -/
theorem moves_follow_order (text : Text) : InOrder text where
  floor := isGreatest_floorBoundary text
  ceil := isLeast_ceilBoundary text
  forward _ h hlt := h.isLeast_stepForward hlt
  forward_length := stepForward_length text
  back _ h hpos := h.isGreatest_stepBack hpos
  back_zero := stepBack_zero text
  back_forward _ h hlt := h.stepBack_stepForward hlt
  forward_back _ h hpos := h.stepForward_stepBack hpos
  visits_forward := bijOn_iterate_stepForward text
  visits_back := bijOn_iterate_stepBack text

end CodePane.Text

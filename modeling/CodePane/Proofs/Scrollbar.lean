import CodePane.Scrollbar
import Mathlib.Algebra.Group.Nat.Defs

/-!
# Scrollbars and top lines

In both modes a scrollbar maps the top lines `0, ..., S` to the units `0, ..., R` that its slider
can travel, in proportion and rounded half up, and maps units back to lines in the same way: in
direct mode `R` is `S`. So all that holds of the two maps follows from one fact: scaling to a finer
range and back gives what one began with.

1. `scaled`: scaling with rounding, and `scaled_scaled`, the fact, with `scaled_stable`.
2. `ScrollScale.travel`: the units that the slider can travel.
3. `ScrollScale.vertical_value`, `Scrollbar.askedTopLine_eq`: the maps are scalings.
4. `ScrollScale.vertical_value_of_direct`, `ScrollScale.horizontal_value`: values that count lines
   and pixels.
5. `ScrollScale.vertical_roundTrips`: what holds of the maps.
-/

namespace CodePane

/-! ## Rounding -/

theorem roundedQuotient_eq_iff {num den q : Nat} (hden : 0 < den) :
    roundedQuotient num den = q ↔
      2 * (q * den) ≤ 2 * num + den ∧ 2 * num < 2 * (q * den) + den := by
  unfold roundedQuotient
  rw [Nat.div_eq_iff (by omega), Nat.mul_left_comm q 2 den]
  omega

theorem roundedQuotient_mul (q : Nat) {den : Nat} (hden : 0 < den) :
    roundedQuotient (q * den) den = q := by
  rw [roundedQuotient_eq_iff hden]
  omega

theorem roundedQuotient_mono {num num' : Nat} (h : num ≤ num') (den : Nat) :
    roundedQuotient num den ≤ roundedQuotient num' den := by
  unfold roundedQuotient
  apply Nat.div_le_div_right
  omega

/-! ## Scaling -/

/-- A number up to `source` scaled to a number up to `target`; greater ones count as `source`. -/
def scaled (source target a : Nat) : Nat := roundedQuotient (min a source * target) source

variable {source target a a' : Nat}

theorem scaled_mono (h : a ≤ a') : scaled source target a ≤ scaled source target a' := by
  apply roundedQuotient_mono
  apply Nat.mul_le_mul_right
  omega

theorem scaled_zero : scaled source target 0 = 0 := by
  unfold scaled
  rw [Nat.zero_min, Nat.zero_mul]
  rcases Nat.eq_zero_or_pos source with rfl | hsource
  · rfl
  · rw [roundedQuotient_eq_iff hsource]
    omega

theorem scaled_self : scaled source source a = min a source := by
  rcases Nat.eq_zero_or_pos source with rfl | hsource
  · rw [Nat.min_zero, ← Nat.le_zero]
    exact Nat.le_of_eq (Nat.div_zero _)
  · exact roundedQuotient_mul _ hsource

theorem scaled_source (hsource : 0 < source) : scaled source target source = target := by
  unfold scaled
  rw [Nat.min_self, Nat.mul_comm, roundedQuotient_mul _ hsource]

theorem scaled_min : scaled source target (min a source) = scaled source target a := by
  unfold scaled
  rw [Nat.min_assoc, Nat.min_self]

theorem scaled_le : scaled source target a ≤ target := by
  rcases Nat.eq_zero_or_pos source with rfl | hsource
  · rw [← scaled_min, Nat.min_zero, scaled_zero]
    exact Nat.zero_le _
  · calc scaled source target a
        = scaled source target (min a source) := scaled_min.symm
      _ ≤ scaled source target source := scaled_mono (Nat.min_le_right _ _)
      _ = target := scaled_source hsource

/-- **Scaling to a range at least as fine and back is the identity.** The first rounding is off by
at most half a unit of the finer range, which the second one takes back. -/
theorem scaled_scaled (hfine : source ≤ target) (ha : a ≤ source) :
    scaled target source (scaled source target a) = a := by
  rcases Nat.lt_or_eq_of_le hfine with hlt | rfl
  · rcases Nat.eq_zero_or_pos source with rfl | hsource
    · have hzero : scaled target 0 (scaled 0 target a) ≤ 0 := scaled_le
      omega
    · have hle : scaled source target a ≤ target := scaled_le
      have hfirst := (roundedQuotient_eq_iff (q := scaled source target a) hsource).mp rfl
      rw [Nat.min_eq_left ha] at hfirst
      show roundedQuotient (min (scaled source target a) target * source) target = a
      rw [Nat.min_eq_left hle, roundedQuotient_eq_iff (by omega)]
      omega
  · rw [scaled_self, scaled_self]
    omega

/-- What scaling made is kept by scaling back and again: one of the two ranges is the finer one. -/
theorem scaled_stable :
    scaled source target (scaled target source (scaled source target a)) =
      scaled source target a := by
  rcases Nat.le_total source target with hfine | hcoarse
  · rw [← scaled_min (a := a), scaled_scaled hfine (Nat.min_le_right a source)]
  · exact scaled_scaled hcoarse scaled_le

/-! ## The two maps are scalings -/

namespace ScrollScale

variable {s : ScrollScale} {top total visible : Nat}

theorem unitSlider_pos (s : ScrollScale) : 0 < s.unitSlider := by
  unfold unitSlider
  simp only
  omega

theorem unitSlider_lt (s : ScrollScale) : s.unitSlider < s.maxUnits := by
  have := s.two_le_maxUnits
  unfold unitSlider
  simp only
  omega

theorem unitTravel_eq (s : ScrollScale) : s.unitTravel = s.maxUnits - s.unitSlider := by
  have := s.unitSlider_lt
  unfold unitTravel
  omega

/-- How many units the slider can travel: none, one for each line, or those of the fixed range. -/
def travel (s : ScrollScale) (total visible : Nat) : Nat :=
  match s.mode total visible with
  | .hidden => 0
  | .direct => total - visible
  | .compressed => s.unitTravel

theorem mode_hidden_iff (hvisible : 1 ≤ visible) :
    s.mode total visible = .hidden ↔ total - visible = 0 := by
  unfold mode
  simp only
  by_cases hfits : max total 1 ≤ max visible 1
  · rw [if_pos hfits]
    exact iff_of_true rfl (by omega)
  · rw [if_neg hfits]
    refine iff_of_false ?_ (by omega)
    split
    · exact Scrollbar.Mode.noConfusion
    · exact Scrollbar.Mode.noConfusion

theorem mode_max : s.mode (max total 1) (max visible 1) = s.mode total visible := by
  simp [mode]

theorem vertical_of_hidden (h : s.mode total visible = .hidden) :
    s.vertical top total visible = .ofFitting 1 (max visible 1).toUInt32.toNat := by
  unfold vertical
  simp only [mode_max, h]

theorem vertical_of_direct (h : s.mode total visible = .direct) (htotal : total < 2 ^ 32)
    (hvisible : 1 ≤ visible) :
    s.vertical top total visible =
      ⟨0, total, visible, min top (total - visible), 1, visible, .direct⟩ := by
  have hscrollable : total - visible ≠ 0 := by
    intro hzero
    rw [(mode_hidden_iff hvisible).mpr hzero] at h
    contradiction
  have hword {n : Nat} (hn : n ≤ total) : n.toUInt32.toNat = n :=
    Nat.mod_eq_of_lt (Nat.lt_of_le_of_lt hn htotal)
  unfold vertical
  simp only [mode_max, h]
  rw [Nat.max_eq_left (by omega : 1 ≤ total), Nat.max_eq_left hvisible, hword (Nat.le_refl total),
    hword (by omega : visible ≤ total), hword (by omega : min top (total - visible) ≤ total)]

theorem vertical_of_compressed (h : s.mode total visible = .compressed) (hvisible : 1 ≤ visible) :
    s.vertical top total visible =
      ⟨0, s.maxUnits, s.unitSlider, scaled (total - visible) s.unitTravel top, 1,
        visible.toUInt32.toNat, .compressed⟩ := by
  have hscrollable : max total 1 - max visible 1 = total - visible := by omega
  have hinside : scaled (total - visible) s.unitTravel top ≤ s.unitTravel := scaled_le
  unfold vertical
  simp only [mode_max, h, hscrollable]
  rw [Nat.max_eq_left hvisible]
  congr 1
  exact Nat.min_eq_left hinside

theorem vertical_minimum : (s.vertical top total visible).minimum = 0 := by
  unfold vertical
  simp only
  split <;> rfl

theorem vertical_greatestValue (htotal : total < 2 ^ 32) (hvisible : 1 ≤ visible) :
    (s.vertical top total visible).greatestValue = s.travel total visible := by
  unfold travel Scrollbar.greatestValue
  cases hmode : s.mode total visible with
  | hidden =>
    rw [vertical_of_hidden hmode]
    rfl
  | direct =>
    rw [vertical_of_direct hmode htotal hvisible]
    exact Nat.max_zero _
  | compressed =>
    rw [vertical_of_compressed hmode hvisible]
    simp only [unitTravel_eq]
    exact Nat.max_zero _

theorem vertical_value (htotal : total < 2 ^ 32) (hvisible : 1 ≤ visible) :
    (s.vertical top total visible).value =
      scaled (total - visible) (s.travel total visible) top := by
  unfold travel
  cases hmode : s.mode total visible with
  | hidden =>
    rw [vertical_of_hidden hmode, (mode_hidden_iff hvisible).mp hmode]
    simp only
    rw [scaled_self]
    exact (Nat.min_zero top).symm
  | direct =>
    rw [vertical_of_direct hmode htotal hvisible]
    exact scaled_self.symm
  | compressed => rw [vertical_of_compressed hmode hvisible]

theorem mode_of_vertical (h : (s.vertical top total visible).mode = .direct) :
    s.mode total visible = .direct := by
  unfold vertical at h
  simp only [mode_max] at h
  cases hmode : s.mode total visible with
  | direct => rfl
  | hidden =>
    rw [hmode] at h
    cases h
  | compressed =>
    rw [hmode] at h
    cases h

theorem vertical_value_of_direct (h : (s.vertical top total visible).mode = .direct)
    (htotal : total < 2 ^ 32) (hvisible : 1 ≤ visible) (htop : top ≤ total - visible) :
    (s.vertical top total visible).value = top := by
  rw [vertical_of_direct (mode_of_vertical h) htotal hvisible]
  exact Nat.min_eq_left htop

theorem horizontal_value {offset window content : Int} (hwindow : 1 ≤ window)
    (hoffset : 0 ≤ offset) (hlimit : offset ≤ max (content - window) 0) :
    ((s.horizontal offset window content).value : Int) = offset := by
  unfold horizontal
  simp only
  split
  · show ((0 : Nat) : Int) = offset
    omega
  · show ((max 0 (min offset.toNat (max (content.toNat - (max window 1).toNat) 0)) : Nat) : Int) =
      offset
    omega

end ScrollScale

/-- A scrollbar that counts lines is treated apart, but its slider travels as many units as there
are lines to scroll by, so the scaling is the identity there. -/
theorem Scrollbar.askedTopLine_eq {bar : Scrollbar} {total visible : Nat}
    (hminimum : bar.minimum = 0) (hslider : 0 < bar.slider) (hmaximum : bar.slider < bar.maximum)
    (hvisible : 1 ≤ visible) :
    bar.askedTopLine total visible =
      scaled (bar.maximum - bar.slider) (total - visible) bar.value := by
  have hscrollable : max total 1 - max visible 1 = total - visible := by omega
  have hinside : scaled (bar.maximum - bar.slider) (total - visible) bar.value ≤ total - visible :=
    scaled_le
  unfold Scrollbar.askedTopLine
  simp only [hscrollable]
  by_cases hfits : total - visible = 0
  · rw [if_pos (by omega)]
    omega
  · rw [if_neg (by omega)]
    by_cases hlines : bar.maximum = max total 1 ∧ bar.slider = max visible 1
    · rw [if_pos hlines, ← scaled_self]
      congr 1
      omega
    · rw [if_neg hlines, if_neg (by omega)]
      exact Nat.min_eq_left hinside

theorem Scrollbar.askedTopLine_mono (bar : Scrollbar) (total visible : Nat) {v v' : Nat}
    (h : v ≤ v') :
    askedTopLine { bar with value := v } total visible ≤
      askedTopLine { bar with value := v' } total visible := by
  have hmin (n : Nat) : min v n ≤ min v' n := by omega
  unfold askedTopLine
  simp only
  split
  · exact Nat.le_refl 0
  · split
    · exact hmin _
    · split
      · exact Nat.le_refl 0
      · have hscaled := roundedQuotient_mono
          (Nat.mul_le_mul_right (max total 1 - max visible 1) (hmin (bar.maximum - bar.slider)))
          (bar.maximum - bar.slider)
        omega

namespace ScrollScale

variable {s : ScrollScale} {top total visible v : Nat}

theorem askedTopLine_vertical (htotal : total < 2 ^ 32) (hvisible : 1 ≤ visible) :
    Scrollbar.askedTopLine { s.vertical top total visible with value := v } total visible =
      scaled (s.travel total visible) (total - visible) v := by
  unfold travel
  cases hmode : s.mode total visible with
  | hidden =>
    have hscrollable := (mode_hidden_iff hvisible).mp hmode
    rw [vertical_of_hidden hmode, hscrollable, scaled_self, Nat.min_zero]
    unfold Scrollbar.askedTopLine
    rw [if_pos (by simp only; omega)]
  | direct =>
    have hscrollable : total - visible ≠ 0 := by
      rw [Ne, ← mode_hidden_iff (s := s) hvisible, hmode]
      exact Scrollbar.Mode.noConfusion
    rw [vertical_of_direct hmode htotal hvisible]
    exact Scrollbar.askedTopLine_eq rfl hvisible (by simp only; omega) hvisible
  | compressed =>
    rw [vertical_of_compressed hmode hvisible]
    simp only [unitTravel_eq]
    exact Scrollbar.askedTopLine_eq rfl s.unitSlider_pos s.unitSlider_lt hvisible

theorem askedTopLine_movedTo (htotal : total < 2 ^ 32) (hvisible : 1 ≤ visible) :
    ((s.vertical top total visible).movedTo v).askedTopLine total visible =
      scaled (s.travel total visible) (total - visible) v := by
  unfold Scrollbar.movedTo
  rw [askedTopLine_vertical htotal hvisible, vertical_minimum,
    vertical_greatestValue htotal hvisible, Nat.zero_max, scaled_min]

theorem askedTopLine_scaled (htotal : total < 2 ^ 32) (hvisible : 1 ≤ visible) :
    (s.vertical top total visible).askedTopLine total visible =
      scaled (s.travel total visible) (total - visible)
        (scaled (total - visible) (s.travel total visible) top) := by
  rw [← vertical_value htotal hvisible]
  exact askedTopLine_vertical htotal hvisible

theorem travel_pos (hvisible : 1 ≤ visible) (h : 0 < total - visible) :
    0 < s.travel total visible := by
  unfold travel
  cases hmode : s.mode total visible with
  | hidden =>
    have := (mode_hidden_iff hvisible).mp hmode
    omega
  | direct => exact h
  | compressed =>
    have := s.unitSlider_lt
    simp only [unitTravel_eq]
    omega

/-! ## Round trips -/

/-- What one may expect of a scrollbar and the top lines it asks for, when `total` lines can be
scrolled by `total - visible`. -/
structure RoundTrips (s : ScrollScale) (total visible : Nat) : Prop where
  /-- The value lies in the range of the slider. -/
  value_in_range (top : Nat) :
    (s.vertical top total visible).minimum ≤ (s.vertical top total visible).value ∧
      (s.vertical top total visible).value ≤ (s.vertical top total visible).greatestValue
  /-- A later top line never has a smaller value. -/
  value_mono {top top' : Nat} : top ≤ top' →
    (s.vertical top total visible).value ≤ (s.vertical top' total visible).value
  /-- A greater value never asks for an earlier line. -/
  topLine_mono (bar : Scrollbar) {v v' : Nat} : v ≤ v' →
    Scrollbar.askedTopLine { bar with value := v } total visible ≤
      Scrollbar.askedTopLine { bar with value := v' } total visible
  /-- The first line stands at the least value. -/
  first_value : (s.vertical 0 total visible).value = (s.vertical 0 total visible).minimum
  first_topLine : (s.vertical 0 total visible).askedTopLine total visible = 0
  /-- The last top line stands at the greatest value. -/
  last_value : (s.vertical (total - visible) total visible).value =
    (s.vertical (total - visible) total visible).greatestValue
  last_topLine :
    (s.vertical (total - visible) total visible).askedTopLine total visible = total - visible
  /-- Where the units are no coarser than the lines, every top line comes back. -/
  topLine_exact {top : Nat} :
    s.mode total visible ≠ .compressed ∨ total - visible ≤ s.unitTravel → top ≤ total - visible →
      (s.vertical top total visible).askedTopLine total visible = top
  /-- Where they are no finer, every value comes back. -/
  value_exact (top : Nat) {v : Nat} :
    s.mode total visible = .compressed → s.unitTravel ≤ total - visible → v ≤ s.unitTravel →
      (s.vertical (((s.vertical top total visible).movedTo v).askedTopLine total visible)
        total visible).value = v
  /-- Scrolling to where the scrollbar already stands does not move it. -/
  value_stable (top : Nat) :
    (s.vertical ((s.vertical top total visible).askedTopLine total visible) total visible).value =
      (s.vertical top total visible).value

theorem travel_eq_or (s : ScrollScale) (total : Nat) (hvisible : 1 ≤ visible) :
    s.mode total visible ≠ .compressed ∧ s.travel total visible = total - visible ∨
      s.mode total visible = .compressed ∧ s.travel total visible = s.unitTravel := by
  unfold travel
  cases hmode : s.mode total visible with
  | hidden => exact .inl ⟨Scrollbar.Mode.noConfusion, ((mode_hidden_iff hvisible).mp hmode).symm⟩
  | direct => exact .inl ⟨Scrollbar.Mode.noConfusion, rfl⟩
  | compressed => exact .inr ⟨rfl, rfl⟩

/-- **Scrollbars and top lines agree, whichever mode is chosen**, as long as the counts of lines are
32-bit words. -/
theorem vertical_roundTrips (s : ScrollScale) (htotal : total < 2 ^ 32) (hvisible : 1 ≤ visible) :
    s.RoundTrips total visible where
  value_in_range top := by
    rw [vertical_minimum, vertical_greatestValue htotal hvisible, vertical_value htotal hvisible]
    exact ⟨Nat.zero_le _, scaled_le⟩
  value_mono h := by
    rw [vertical_value htotal hvisible, vertical_value htotal hvisible]
    exact scaled_mono h
  topLine_mono bar _ _ h := bar.askedTopLine_mono total visible h
  first_value := by
    rw [vertical_minimum, vertical_value htotal hvisible, scaled_zero]
  first_topLine := by
    rw [askedTopLine_scaled htotal hvisible, scaled_zero, scaled_zero]
  last_value := by
    rw [vertical_greatestValue htotal hvisible, vertical_value htotal hvisible]
    rcases Nat.eq_zero_or_pos (total - visible) with hfits | hscrolls
    · have hmode := (mode_hidden_iff (s := s) hvisible).mpr hfits
      unfold travel
      rw [hfits, hmode]
      exact scaled_zero
    · exact scaled_source hscrolls
  last_topLine := by
    rw [askedTopLine_scaled htotal hvisible]
    rcases Nat.eq_zero_or_pos (total - visible) with hfits | hscrolls
    · rw [hfits]
      exact Nat.le_zero.mp scaled_le
    · rw [scaled_source hscrolls, scaled_source (travel_pos hvisible hscrolls)]
  topLine_exact hfine htop := by
    have hle : total - visible ≤ s.travel total visible := by
      rcases s.travel_eq_or total hvisible with ⟨-, h⟩ | ⟨hmode, h⟩
      · omega
      · rcases hfine with hother | hfine
        · exact absurd hmode hother
        · omega
    rw [askedTopLine_scaled htotal hvisible]
    exact scaled_scaled hle htop
  value_exact top v hmode hcoarse hv := by
    have htravel : s.travel total visible = s.unitTravel := by
      unfold travel
      rw [hmode]
    rw [vertical_value htotal hvisible, askedTopLine_movedTo htotal hvisible, htravel]
    exact scaled_scaled hcoarse hv
  value_stable top := by
    rw [vertical_value htotal hvisible, vertical_value htotal hvisible,
      askedTopLine_scaled htotal hvisible]
    rcases Nat.le_total (total - visible) (s.travel total visible) with hle | hle
    · rw [← scaled_min (a := top), scaled_scaled hle (Nat.min_le_right _ _)]
    · exact scaled_scaled hle scaled_le

/-- A million lines, forty of them visible. -/
theorem vertical_roundTrips_million :
    (10 ^ 6 < 2 ^ 32 ∧ 1 ≤ 40) ∧ RoundTrips ⟨0.05, 2000, 10, by decide⟩ (10 ^ 6) 40 :=
  ⟨by decide, vertical_roundTrips _ (by decide) (by decide)⟩

end ScrollScale

end CodePane

import CodePane.Halving
import Mathlib.Data.List.Basic
import Mathlib.Data.List.TakeWhile

/-!
# The place that halving finds

1. `Initial`, `SplitsAt`: tests that hold of a first part of a list only, and where that part ends.
2. `Initial.splitsAt`: there is such a place, and what stands before and behind it.
3. `partitionPoint?_eq`: a search by halving finds it.
-/

namespace CodePane

variable {α : Type} {p : α → Bool} {test : α → Option Bool} {xs : List α} {i j : Nat}

/-! ## First parts of a list -/

/-- What stands before an element that passes the test passes it too. -/
def Initial (p : α → Bool) (xs : List α) : Prop :=
  xs.Pairwise fun a b => p b = true → p a = true

theorem Initial.sublist {part : List α} (h : Initial p xs) (hpart : part.Sublist xs) :
    Initial p part :=
  List.Pairwise.sublist hpart h

/-- The first `i` elements pass the test and all others fail it. -/
structure SplitsAt (p : α → Bool) (xs : List α) (i : Nat) : Prop where
  le : i ≤ xs.length
  passed : ∀ x ∈ xs.take i, p x = true
  failed : ∀ x ∈ xs.drop i, ¬ p x = true

theorem not_of_mem_dropWhile (h : Initial p xs) : ∀ x ∈ xs.dropWhile p, ¬ p x = true := by
  unfold Initial at h
  induction xs with
  | nil => simp
  | cons x rest ih =>
    obtain ⟨hhead, hrest⟩ := List.pairwise_cons.mp h
    by_cases hx : p x = true
    · rw [List.dropWhile_cons_of_pos hx]
      exact ih hrest
    · rw [List.dropWhile_cons_of_neg hx]
      intro y hy
      rcases List.mem_cons.mp hy with rfl | hy
      · exact hx
      · exact fun hpy => hx (hhead y hy hpy)

namespace SplitsAt

theorem take_eq (h : SplitsAt p xs i) : xs.take i = xs.filter p := by
  conv_rhs => rw [← List.take_append_drop i xs]
  rw [List.filter_append, List.filter_eq_self.mpr h.passed, List.filter_eq_nil_iff.mpr h.failed,
    List.append_nil]

theorem drop_eq (h : SplitsAt p xs i) : xs.drop i = xs.filter fun x => !p x := by
  have hpassed : ∀ x ∈ xs.take i, ¬ (!p x) = true := fun x hx => by simp [h.passed x hx]
  have hfailed : ∀ x ∈ xs.drop i, (!p x) = true := fun x hx => by simp [h.failed x hx]
  conv_rhs => rw [← List.take_append_drop i xs]
  rw [List.filter_append, List.filter_eq_nil_iff.mpr hpassed, List.filter_eq_self.mpr hfailed,
    List.nil_append]

theorem eq_countP (h : SplitsAt p xs i) : i = xs.countP p := by
  rw [List.countP_eq_length_filter, ← h.take_eq, List.length_take, Nat.min_eq_left h.le]

theorem drop (h : SplitsAt p xs i) (n : Nat) : SplitsAt p (xs.drop n) (i - n) where
  le := by
    rw [List.length_drop]
    exact Nat.sub_le_sub_right h.le n
  passed x hx := by
    rw [← List.drop_take] at hx
    exact h.passed x (List.mem_of_mem_drop hx)
  failed x hx := by
    rw [List.drop_drop, show n + (i - n) = i + (n - i) by omega, ← List.drop_drop] at hx
    exact h.failed x (List.mem_of_mem_drop hx)

theorem passed_iff (h : SplitsAt p xs i) {x : α} (hx : xs[j]? = some x) :
    p x = true ↔ j < i := by
  constructor
  · intro hpassed
    by_contra hle
    refine h.failed x (List.mem_of_getElem? (i := j - i) ?_) hpassed
    rw [List.getElem?_drop, show i + (j - i) = j by omega, hx]
  · intro hlt
    refine h.passed x (List.mem_of_getElem? (i := j) ?_)
    rw [List.getElem?_take_of_lt hlt, hx]

end SplitsAt

namespace Initial

theorem take_length (p : α → Bool) (xs : List α) :
    xs.take (xs.takeWhile p).length = xs.takeWhile p :=
  (List.prefix_iff_eq_take.mp (List.takeWhile_prefix p)).symm

theorem drop_length (p : α → Bool) (xs : List α) :
    xs.drop (xs.takeWhile p).length = xs.dropWhile p := by
  have hsplit := List.take_append_drop (xs.takeWhile p).length xs
  rw [take_length] at hsplit
  exact List.append_cancel_left (hsplit.trans List.takeWhile_append_dropWhile.symm)

theorem splitsAt (h : Initial p xs) : SplitsAt p xs (xs.takeWhile p).length where
  le := (List.takeWhile_prefix p).length_le
  passed x hx := by
    rw [take_length] at hx
    exact List.mem_takeWhile_imp hx
  failed x hx := by
    rw [drop_length] at hx
    exact not_of_mem_dropWhile h x hx

theorem takeWhile_eq (h : Initial p xs) : xs.takeWhile p = xs.filter p := by
  rw [← take_length, h.splitsAt.take_eq]

theorem dropWhile_eq (h : Initial p xs) : xs.dropWhile p = xs.filter fun x => !p x := by
  rw [← drop_length, h.splitsAt.drop_eq]

end Initial

/-! ## Halving -/

/-- The loop ends right before the place, or at the start of a list that fails from its start on.
It keeps to places that begin at one of the two and end behind the place. -/
theorem exists_halve?_eq (h : SplitsAt p xs i) (htest : ∀ x ∈ xs, test x = some (p x))
    {base size : Nat} (hsize : 1 ≤ size) (hin : base + size ≤ xs.length) (hi : i ≤ base + size)
    (hbase : base = 0 ∨ base < i) :
    ∃ last, halve? test xs base size = some last ∧ last < xs.length ∧ i ≤ last + 1 ∧
      (last = 0 ∨ last < i) := by
  induction size using Nat.strongRecOn generalizing base with
  | ind size ih =>
    rw [halve?]
    by_cases hone : size ≤ 1
    · rw [if_pos hone]
      exact ⟨base, rfl, by omega, by omega, hbase⟩
    · rw [if_neg hone]
      have hmiddle : base + size / 2 < xs.length := by omega
      have hanswer : xs[base + size / 2]?.bind test = some (p xs[base + size / 2]) := by
        rw [List.getElem?_eq_getElem hmiddle, Option.bind_some]
        exact htest _ (List.getElem_mem hmiddle)
      have hpassed := h.passed_iff (List.getElem?_eq_getElem hmiddle)
      simp only [hanswer, Option.bind_eq_bind, Option.bind_some]
      cases hp : p xs[base + size / 2] with
      | true =>
        have hlt := hpassed.mp hp
        exact ih (size - size / 2) (by omega) (by omega) (by simp only [if_true]; omega)
          (by simp only [if_true]; omega) (.inr hlt)
      | false =>
        have hge : i ≤ base + size / 2 := by
          by_contra hlt
          exact absurd (hpassed.mpr (by omega)) (by simp [hp])
        exact ih (size - size / 2) (by omega) (by omega)
          (by simp only [Bool.false_eq_true, if_false]; omega)
          (by simp only [Bool.false_eq_true, if_false]; omega) hbase

/-- **Halving finds the place.** -/
theorem partitionPoint?_eq (h : SplitsAt p xs i) (htest : ∀ x ∈ xs, test x = some (p x)) :
    partitionPoint? test xs = some i := by
  unfold partitionPoint?
  by_cases hempty : xs = []
  · subst hempty
    have hi : i = 0 := Nat.le_zero.mp h.le
    rw [List.isEmpty_nil, if_pos rfl, hi]
  · have hlength := List.length_pos_iff.mpr hempty
    obtain ⟨last, hlast, hin, hle, hbase⟩ :=
      exists_halve?_eq h htest hlength (by omega) (by have := h.le; omega) (.inl rfl)
    have hanswer : xs[last]?.bind test = some (p xs[last]) := by
      rw [List.getElem?_eq_getElem hin, Option.bind_some]
      exact htest _ (List.getElem_mem hin)
    have hpassed := h.passed_iff (List.getElem?_eq_getElem hin)
    rw [if_neg (by simpa using hempty)]
    simp only [hlast, hanswer, Option.bind_eq_bind, Option.bind_some, Option.pure_def]
    cases hp : p xs[last] with
    | true =>
      have hlt := hpassed.mp hp
      exact congrArg some (show last + 1 = i by omega)
    | false =>
      have hge : ¬ last < i := fun hlt => absurd (hpassed.mpr hlt) (by simp [hp])
      exact congrArg some (show last = i by omega)

end CodePane

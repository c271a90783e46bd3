import CodePane.Text.Byte
import Mathlib.Data.List.TakeWhile
import Mathlib.Order.Bounds.Defs

/-!
# Runs and occurrences in a text

1. `offsetOf_add_length_le`, `isLeast_of_offsetOf`, `offsetOf_of_isLeast`, `offsetOf_append`: an
   occurrence of a word lies inside the text, and is the first one whatever follows the text.
2. `countWhile_append`, `countWhile_add`, `countWhile_of_lt`, `countWhile_stops`,
   `countWhile_eq_iff`, `countWhile_mono`, `countWhile_drop`: what a run of bytes is made of, what
   ends it, and how its length compares.
3. `takeWhile_append_of_mem`, `takeWhile_append_cons_of_neg`: a run that ends inside the text.
4. `getElem?_of_drop_cons`, `length_of_drop`, `drop_behind`: the text from an offset on, byte by
   byte.
-/

namespace CodePane.Text

variable {p : UInt8 → Bool} {b : UInt8} {text rest : Text} {i pos n : Nat}

theorem offsetOf_add_length_le {word text : Text} {k : Nat} (h : offsetOf word text = some k) :
    k + word.length ≤ text.length := by
  induction text generalizing k with
  | nil =>
    unfold offsetOf at h
    split at h
    · next hw =>
      obtain rfl := Option.some.inj h
      simp [List.isEmpty_iff.mp hw]
    · simp at h
  | cons b rest ih =>
    unfold offsetOf at h
    split at h
    · next hw =>
      obtain rfl := Option.some.inj h
      have := (List.isPrefixOf_iff_prefix.mp hw).length_le
      omega
    · obtain ⟨j, hj, rfl⟩ := Option.map_eq_some_iff.mp h
      have := ih hj
      rw [List.length_cons]
      omega

theorem prefix_of_offsetOf {word text : Text} {k : Nat} (h : offsetOf word text = some k) :
    word <+: text.drop k := by
  induction text generalizing k with
  | nil =>
    unfold offsetOf at h
    split at h
    · next hw =>
      rw [List.isEmpty_iff.mp hw]
      exact List.nil_prefix
    · simp at h
  | cons b rest ih =>
    unfold offsetOf at h
    split at h
    · next hw =>
      obtain rfl := Option.some.inj h
      exact List.isPrefixOf_iff_prefix.mp hw
    · obtain ⟨j, hj, rfl⟩ := Option.map_eq_some_iff.mp h
      exact ih hj

theorem not_prefix_of_lt_offsetOf {word text : Text} {k j : Nat} (h : offsetOf word text = some k)
    (hj : j < k) : ¬ word <+: text.drop j := by
  induction text generalizing k j with
  | nil =>
    unfold offsetOf at h
    split at h
    · obtain rfl := Option.some.inj h
      exact absurd hj (Nat.not_lt_zero j)
    · cases h
  | cons b rest ih =>
    unfold offsetOf at h
    split at h
    · obtain rfl := Option.some.inj h
      exact absurd hj (Nat.not_lt_zero j)
    · next hhead =>
      obtain ⟨i, hi, rfl⟩ := Option.map_eq_some_iff.mp h
      cases j with
      | zero => exact fun hprefix => hhead (List.isPrefixOf_iff_prefix.mpr hprefix)
      | succ j => exact ih hi (Nat.lt_of_succ_lt_succ hj)

theorem not_prefix_of_offsetOf_eq_none {word text : Text} (h : offsetOf word text = none)
    (k : Nat) : ¬ word <+: text.drop k := by
  induction text generalizing k with
  | nil =>
    unfold offsetOf at h
    split at h
    · cases h
    · next hword =>
      rw [List.drop_nil, List.prefix_nil, ← List.isEmpty_iff]
      exact hword
  | cons b rest ih =>
    unfold offsetOf at h
    split at h
    · cases h
    · next hhead =>
      cases k with
      | zero => exact fun hprefix => hhead (List.isPrefixOf_iff_prefix.mpr hprefix)
      | succ k => exact ih (Option.map_eq_none_iff.mp h) k

theorem isLeast_of_offsetOf {word text : Text} {k : Nat} (h : offsetOf word text = some k) :
    IsLeast {k | word <+: text.drop k} k :=
  ⟨prefix_of_offsetOf h, fun _ hprefix =>
    Nat.le_of_not_lt fun hlt => not_prefix_of_lt_offsetOf h hlt hprefix⟩

theorem offsetOf_of_isLeast {word text : Text} {k : Nat}
    (h : IsLeast {k | word <+: text.drop k} k) : offsetOf word text = some k := by
  cases hfound : offsetOf word text with
  | none => exact absurd h.1 (not_prefix_of_offsetOf_eq_none hfound k)
  | some i =>
    have hfirst := isLeast_of_offsetOf hfound
    rw [Nat.le_antisymm (hfirst.2 h.1) (h.2 hfirst.1)]

/-- An occurrence that lies inside a text is the first one whatever follows the text. -/
theorem offsetOf_append {word : Text} {k : Nat} (h : offsetOf word text = some k) (hw : word ≠ [])
    (tail : Text) : offsetOf word (text ++ tail) = some k := by
  induction text generalizing k with
  | nil =>
    rw [offsetOf, if_neg (by rw [List.isEmpty_iff]; exact hw)] at h
    cases h
  | cons b rest ih =>
    rw [offsetOf] at h
    rw [List.cons_append, offsetOf]
    by_cases hb : word.isPrefixOf (b :: rest) = true
    · rw [if_pos hb] at h
      have hlonger : word.isPrefixOf (b :: (rest ++ tail)) = true :=
        List.isPrefixOf_iff_prefix.mpr
          ((List.isPrefixOf_iff_prefix.mp hb).trans (List.prefix_append (b :: rest) tail))
      rw [if_pos hlonger]
      exact h
    · rw [if_neg hb] at h
      obtain ⟨j, hj, rfl⟩ := Option.map_eq_some_iff.mp h
      have hfits := offsetOf_add_length_le hj
      -- the word would end inside `b :: rest` if it began at `b`
      have hlonger : ¬ word.isPrefixOf (b :: (rest ++ tail)) = true := fun hlonger =>
        hb (List.isPrefixOf_iff_prefix.mpr
          (List.prefix_of_prefix_length_le (List.isPrefixOf_iff_prefix.mp hlonger)
            (List.prefix_append (b :: rest) tail) (by rw [List.length_cons]; omega)))
      rw [if_neg hlonger, ih hj]
      rfl

theorem countWhile_cons_of_pos (h : p b = true) (rest : Text) :
    countWhile p (b :: rest) = countWhile p rest + 1 := by
  unfold countWhile
  rw [List.takeWhile_cons_of_pos h, List.length_cons]

theorem countWhile_cons_of_neg (h : ¬ p b = true) (rest : Text) :
    countWhile p (b :: rest) = 0 := by
  unfold countWhile
  rw [List.takeWhile_cons_of_neg h, List.length_nil]

theorem take_countWhile (p : UInt8 → Bool) (text : Text) :
    text.take (countWhile p text) = text.takeWhile p :=
  (List.prefix_iff_eq_take.mp (List.takeWhile_prefix p)).symm

theorem countWhile_append (p : UInt8 → Bool) (x y : Text) : countWhile p (x ++ y) =
    if countWhile p x = x.length then x.length + countWhile p y else countWhile p x := by
  unfold countWhile
  rw [List.takeWhile_append]
  split
  · rw [List.length_append]
  · rfl

theorem countWhile_append_cons_of_neg (hb : p b = false) (x rest : Text) :
    countWhile p (x ++ b :: rest) = countWhile p x := by
  rw [countWhile_append]
  split
  · next hall => rw [countWhile_cons_of_neg (Bool.eq_false_iff.mp hb), Nat.add_zero, hall]
  · rfl

theorem takeWhile_append_cons_of_neg (hb : p b = false) (x rest : Text) :
    (x ++ b :: rest).takeWhile p = x.takeWhile p := by
  rw [← take_countWhile, countWhile_append_cons_of_neg hb,
    List.take_append_of_le_length (countWhile_le_length p x), take_countWhile]

theorem countWhile_add (hn : n ≤ text.length) (h : ∀ b ∈ text.take n, p b = true) :
    countWhile p text = n + countWhile p (text.drop n) := by
  have hsplit : (text.take n ++ text.drop n).takeWhile p =
      text.take n ++ (text.drop n).takeWhile p := List.takeWhile_append_of_pos h
  rw [List.take_append_drop] at hsplit
  rw [countWhile, hsplit, List.length_append, List.length_take, Nat.min_eq_left hn, countWhile]

theorem countWhile_of_lt (h : i < countWhile p text) : ∃ b, text[i]? = some b ∧ p b = true := by
  induction text generalizing i with
  | nil => exact absurd h (Nat.not_lt_zero _)
  | cons b rest ih =>
    by_cases hb : p b = true
    · rw [countWhile_cons_of_pos hb] at h
      cases i with
      | zero => exact ⟨b, rfl, hb⟩
      | succ i =>
        rw [List.getElem?_cons_succ]
        exact ih (by omega)
    · rw [countWhile_cons_of_neg hb] at h
      exact absurd h (Nat.not_lt_zero _)

theorem countWhile_stops (h : text[countWhile p text]? = some b) : ¬ p b = true := by
  induction text with
  | nil => simp at h
  | cons c rest ih =>
    by_cases hc : p c = true
    · rw [countWhile_cons_of_pos hc, List.getElem?_cons_succ] at h
      exact ih h
    · rw [countWhile_cons_of_neg hc, List.getElem?_cons_zero] at h
      obtain rfl := Option.some.inj h
      exact hc

theorem countWhile_le_of_getElem? (h : text[i]? = some b) (hb : p b = false) :
    countWhile p text ≤ i := by
  apply Nat.le_of_not_lt
  intro hlt
  obtain ⟨c, hc, hp⟩ := countWhile_of_lt hlt
  rw [h] at hc
  obtain rfl := Option.some.inj hc
  rw [hb] at hp
  cases hp

theorem countWhile_eq_iff : countWhile p text = n ↔ n ≤ text.length ∧
    (∀ i < n, ∃ b, text[i]? = some b ∧ p b = true) ∧
    ∀ b, text[n]? = some b → p b = false := by
  constructor
  · rintro rfl
    exact ⟨countWhile_le_length p text, fun i hi => countWhile_of_lt hi, fun b hb =>
      (Bool.not_eq_true _).mp (countWhile_stops hb)⟩
  · rintro ⟨hle, hrun, hstop⟩
    apply Nat.le_antisymm
    · apply Nat.le_of_not_lt
      intro hlt
      obtain ⟨b, hb, hp⟩ := countWhile_of_lt hlt
      rw [hstop b hb] at hp
      cases hp
    · apply Nat.le_of_not_lt
      intro hlt
      obtain ⟨b, hb, hp⟩ := hrun _ hlt
      exact countWhile_stops hb hp

theorem countWhile_mono {q : UInt8 → Bool} (h : ∀ b, p b = true → q b = true) (text : Text) :
    countWhile p text ≤ countWhile q text := by
  apply Nat.le_of_not_lt
  intro hlt
  obtain ⟨b, hb, hp⟩ := countWhile_of_lt hlt
  exact countWhile_stops hb (h b hp)

theorem countWhile_drop (h : n ≤ countWhile p text) :
    countWhile p text = n + countWhile p (text.drop n) := by
  induction n generalizing text with
  | zero => rw [List.drop_zero, Nat.zero_add]
  | succ n ih =>
    cases text with
    | nil => exact absurd h (Nat.not_succ_le_zero n)
    | cons b rest =>
      by_cases hb : p b = true
      · rw [countWhile_cons_of_pos hb] at h ⊢
        rw [List.drop_succ_cons, ih (Nat.le_of_succ_le_succ h)]
        omega
      · rw [countWhile_cons_of_neg hb] at h
        exact absurd h (Nat.not_succ_le_zero n)

/-- A run that ends inside a text ends there whatever follows the text. -/
theorem takeWhile_append_of_mem (hb : b ∈ text) (hp : p b = false) (tail : Text) :
    (text ++ tail).takeWhile p = text.takeWhile p := by
  induction text with
  | nil => exact absurd hb List.not_mem_nil
  | cons c rest ih =>
    rw [List.cons_append, List.takeWhile_cons, List.takeWhile_cons]
    by_cases hc : p c = true
    · have hrest : b ∈ rest := by
        rcases List.mem_cons.mp hb with rfl | hrest
        · exact absurd hc (by rw [hp]; decide)
        · exact hrest
      rw [if_pos hc, if_pos hc, ih hrest]
    · rw [if_neg hc, if_neg hc]

theorem takeWhile_length_lt_of_mem (hb : b ∈ text) (hp : p b = false) :
    (text.takeWhile p).length < text.length := by
  apply Nat.lt_of_le_of_ne (List.takeWhile_prefix p).length_le
  intro hall
  have hsame : text.takeWhile p = text := (List.takeWhile_prefix p).eq_of_length hall
  rw [← hsame] at hb
  exact absurd (List.mem_takeWhile_imp hb) (by rw [hp]; decide)

theorem getElem?_of_drop_cons (h : text.drop pos = b :: rest) : text[pos]? = some b := by
  rw [← List.head?_drop, h]
  rfl

theorem length_of_drop (h : text.drop pos = b :: rest) :
    text.length = pos + (rest.length + 1) := by
  have hlength := congrArg List.length h
  rw [List.length_drop, List.length_cons] at hlength
  omega

theorem drop_behind (h : text.drop pos = b :: rest) (hn : 0 < n) :
    text.drop (pos + n) = rest.drop (n - 1) := by
  obtain ⟨m, rfl⟩ := Nat.exists_eq_add_one.mpr hn
  rw [← List.drop_drop, h]
  rfl

end CodePane.Text

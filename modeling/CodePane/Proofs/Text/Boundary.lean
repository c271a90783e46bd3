import CodePane.Text.Codepoint
import CodePane.Text.Line
import CodePane.Proofs.Text.Search

/-!
# Codepoint boundaries

Every byte of a text belongs to exactly one codepoint that starts at a boundary, malformed bytes
included. The backward moves see four bytes only; they find the same codepoint, because all its
bytes but the first are continuation bytes and the first is none.

1. `codepointAt_trailing`: what the bytes of a codepoint look like.
2. `Boundary.codepoint_le`, `exists_boundary_le`: the codepoints partition the text.
3. `floorBoundary_eq`, `stepBack_eq`: the backward moves find the codepoint of an offset.
4. `boundary_of_ascii`, `boundary_after_ascii`: an ASCII byte stands alone.
5. `boundary_startOfLine`, `boundary_endOfLine`: lines begin and end at boundaries.
-/

namespace CodePane.Text

variable {text : Text} {pos b n limit stop : Nat} {c d : Codepoint}

/-! ## The bytes of a codepoint -/

/-- A continuation byte stands at the offset. -/
def TrailingAt (text : Text) (i : Nat) : Prop :=
  ∃ b, text[i]? = some b ∧ Byte.isTrailing b = true

theorem announced_range {lead : UInt8} {a : Announced} (h : announced lead = some a) :
    0x80 ≤ a.low ∧ a.high ≤ 0xBF ∧ a.owed ≤ 3 := by
  unfold announced at h
  repeat' split at h
  all_goals cases h
  all_goals refine ⟨?_, ?_, ?_⟩ <;> simp only <;> decide

theorem announced_trailing {lead : UInt8} (h : Byte.isTrailing lead = true) :
    announced lead = none := by
  unfold Byte.isTrailing at h
  rw [Bool.and_eq_true, decide_eq_true_eq, decide_eq_true_eq] at h
  have hlow : ¬ lead < 0x80 := UInt8.not_lt.mpr h.1
  have hhigh : lead < 0xC2 := UInt8.lt_of_le_of_lt h.2 (by decide)
  unfold announced
  rw [if_neg hlow, if_pos hhigh]

theorem matched_trailing {low high : UInt8} {owed : Nat} {rest : Text} (hlow : 0x80 ≤ low)
    (hhigh : high ≤ 0xBF) (h : matched low high owed rest = owed) {i : Nat} (hi : i < owed) :
    TrailingAt rest i := by
  induction owed generalizing low high rest i with
  | zero => omega
  | succ owed ih =>
    cases rest with
    | nil => simp [matched] at h
    | cons b rest =>
      unfold matched at h
      split at h
      · next hb =>
        cases i with
        | zero =>
          refine ⟨b, rfl, ?_⟩
          unfold Byte.isTrailing
          rw [Bool.and_eq_true, decide_eq_true_eq, decide_eq_true_eq]
          exact ⟨UInt8.le_trans hlow hb.1, UInt8.le_trans hb.2 hhigh⟩
        | succ i =>
          have hrest : matched 0x80 0xBF owed rest = owed := Nat.succ.inj h
          exact ih (UInt8.le_refl _) (UInt8.le_refl _) hrest (Nat.lt_of_succ_lt_succ hi)
      · omega

theorem drop_of_codepointAt (h : codepointAt text pos = some c) :
    ∃ lead rest, text.drop pos = lead :: rest ∧ c = decodeLead lead rest := by
  unfold codepointAt at h
  cases hdrop : text.drop pos with
  | nil => simp [hdrop, decode] at h
  | cons lead rest =>
    rw [hdrop] at h
    exact ⟨lead, rest, rfl, (Option.some.inj h).symm⟩

theorem codepointAt_of_lt (h : pos < text.length) : ∃ c, codepointAt text pos = some c := by
  unfold codepointAt
  rw [List.drop_eq_getElem_cons h]
  exact ⟨_, rfl⟩

theorem codepointAt_size_pos (h : codepointAt text pos = some c) : 0 < c.size := by
  obtain ⟨lead, rest, -, rfl⟩ := drop_of_codepointAt h
  exact decodeLead_size_pos lead rest

theorem codepointAt_le_length (h : codepointAt text pos = some c) :
    pos + c.size ≤ text.length := by
  obtain ⟨lead, rest, hdrop, rfl⟩ := drop_of_codepointAt h
  have hlength := congrArg List.length hdrop
  rw [List.length_drop, List.length_cons] at hlength
  have := decodeLead_size_le lead rest
  omega

theorem decodeLead_size_le_four (lead : UInt8) (rest : Text) : (decodeLead lead rest).size ≤ 4 := by
  unfold decodeLead
  split
  · simp
  · next a ha =>
    have := (announced_range ha).2.2
    split <;> simp only <;> omega

theorem getElem?_of_drop {suffix : Text} (h : text.drop pos = suffix) (i : Nat) :
    text[pos + i]? = suffix[i]? := by
  rw [← h, List.getElem?_drop]

/-- A codepoint of several bytes begins with a byte that is no continuation byte, and all others
are. -/
theorem codepointAt_trailing (h : codepointAt text pos = some c) (hsize : 1 < c.size) :
    ¬ TrailingAt text pos ∧ ∀ i, pos < i → i < pos + c.size → TrailingAt text i := by
  obtain ⟨lead, rest, hdrop, rfl⟩ := drop_of_codepointAt h
  unfold decodeLead at hsize ⊢
  split at hsize
  · simp at hsize
  · next a ha =>
    split at hsize
    · next hmatched =>
      refine ⟨?_, fun i hlow hhigh => ?_⟩
      · rintro ⟨b, hb, htrailing⟩
        have hlead := getElem?_of_drop hdrop 0
        rw [Nat.add_zero, hb, List.getElem?_cons_zero] at hlead
        obtain rfl := Option.some.inj hlead
        rw [announced_trailing htrailing] at ha
        contradiction
      · obtain ⟨j, rfl⟩ := Nat.exists_eq_add_of_lt hlow
        simp only [hmatched, ↓reduceIte] at hhigh
        have hrange := announced_range ha
        obtain ⟨b, hb, htrailing⟩ :=
          matched_trailing (i := j) hrange.1 hrange.2.1 hmatched (by omega)
        refine ⟨b, ?_, htrailing⟩
        rw [Nat.add_assoc, getElem?_of_drop hdrop, List.getElem?_cons_succ]
        exact hb
    · simp at hsize

/-! ## The codepoints partition the text -/

theorem Boundary.le_length (h : Boundary text b) : b ≤ text.length := by
  cases h with
  | zero => exact Nat.zero_le _
  | step _ hc => exact codepointAt_le_length hc

/-- No boundary lies inside a codepoint that starts at one. -/
theorem Boundary.codepoint_le (hpos : Boundary text pos) (hb : Boundary text b)
    (hc : codepointAt text b = some c) (hlt : b < pos) : b + c.size ≤ pos := by
  induction pos using Nat.strongRecOn generalizing b c with
  | ind pos ih =>
    cases hpos with
    | zero => omega
    | @step before d hbefore hd =>
      have := codepointAt_size_pos hd
      rcases Nat.lt_trichotomy b before with h | rfl | h
      · have := ih before (by omega) hbefore hb hc h
        omega
      · rw [hc] at hd
        obtain rfl := Option.some.inj hd
        exact Nat.le_refl _
      -- here `b` would lie inside the last codepoint before `pos`
      · have := ih b hlt hb hbefore hd h
        omega

/-- Every offset inside the text lies in a codepoint that starts at a boundary. -/
theorem exists_boundary_le (h : pos < text.length) :
    ∃ b c, Boundary text b ∧ codepointAt text b = some c ∧ b ≤ pos ∧ pos < b + c.size := by
  induction pos with
  | zero =>
    obtain ⟨c, hc⟩ := codepointAt_of_lt h
    have := codepointAt_size_pos hc
    exact ⟨0, c, .zero, hc, Nat.le_refl 0, by omega⟩
  | succ pos ih =>
    obtain ⟨b, c, hb, hc, hle, hlt⟩ := ih (by omega)
    by_cases hin : pos + 1 < b + c.size
    · exact ⟨b, c, hb, hc, by omega, hin⟩
    · have hnext : b + c.size = pos + 1 := by omega
      obtain ⟨d, hd⟩ := codepointAt_of_lt h
      have := codepointAt_size_pos hd
      exact ⟨pos + 1, d, hnext ▸ .step hb hc, hd, Nat.le_refl _, by omega⟩

theorem boundary_length (text : Text) : Boundary text text.length := by
  by_cases hempty : text.length = 0
  · rw [hempty]
    exact .zero
  · have hlast : text.length - 1 < text.length := by omega
    obtain ⟨b, c, hb, hc, hle, hlt⟩ := exists_boundary_le hlast
    have := codepointAt_le_length hc
    have hstop : b + c.size = text.length := by omega
    exact hstop ▸ .step hb hc

theorem boundary_of_not_trailing (hlt : pos < text.length) (h : ¬ TrailingAt text pos) :
    Boundary text pos := by
  obtain ⟨b, c, hb, hc, hle, hin⟩ := exists_boundary_le hlt
  by_cases heq : b = pos
  · exact heq ▸ hb
  · exact absurd ((codepointAt_trailing hc (by omega)).2 pos (by omega) hin) h

theorem stepForward_eq (hc : codepointAt text pos = some c) :
    stepForward text pos = pos + c.size := by
  unfold stepForward
  rw [hc]

theorem Boundary.stepForward (h : Boundary text pos) : Boundary text (stepForward text pos) := by
  unfold Text.stepForward
  split
  · next c hc => exact .step h hc
  · exact boundary_length text

/-! ## Moving backwards -/

theorem getElem?_window (hlimit : limit ≤ stop) (hstop : stop ≤ text.length) {i : Nat}
    (hi : i < limit) :
    ((text.drop (stop - limit)).take limit).reverse[i]? = text[stop - 1 - i]? := by
  have hlength : ((text.drop (stop - limit)).take limit).length = limit := by
    rw [List.length_take, List.length_drop]
    omega
  rw [List.getElem?_reverse (by omega), hlength, List.getElem?_take_of_lt (by omega),
    List.getElem?_drop]
  congr 1
  omega

theorem trailingBefore_le (text : Text) (limit stop : Nat) :
    trailingBefore text limit stop ≤ limit := by
  unfold trailingBefore
  have := countWhile_le_length Byte.isTrailing ((text.drop (stop - limit)).take limit).reverse
  rw [List.length_reverse, List.length_take] at this
  omega

theorem trailingAt_of_trailingBefore (hlimit : limit ≤ stop) (hstop : stop ≤ text.length) {i : Nat}
    (hi : i < trailingBefore text limit stop) : TrailingAt text (stop - 1 - i) := by
  have := trailingBefore_le text limit stop
  obtain ⟨b, hb, htrailing⟩ := countWhile_of_lt hi
  rw [getElem?_window hlimit hstop (by omega)] at hb
  exact ⟨b, hb, htrailing⟩

/-- The run of continuation bytes is as long as the limit, or ends at a byte that is none. -/
theorem trailingBefore_eq (hlimit : limit ≤ stop) (hstop : stop ≤ text.length) (hn : n ≤ limit)
    (hrun : ∀ i, i < n → TrailingAt text (stop - 1 - i))
    (hend : n < limit → ¬ TrailingAt text (stop - 1 - n)) :
    trailingBefore text limit stop = n := by
  have hle := trailingBefore_le text limit stop
  rcases Nat.lt_trichotomy (trailingBefore text limit stop) n with h | h | h
  · obtain ⟨b, hb, htrailing⟩ := hrun _ h
    rw [← getElem?_window hlimit hstop (by omega)] at hb
    exact absurd htrailing (countWhile_stops hb)
  · exact h
  · exact absurd (trailingAt_of_trailingBefore hlimit hstop h) (hend (by omega))

/-- The offset where the backward moves look for the codepoint that holds the byte at `pos`. -/
def leadBefore (text : Text) (pos : Nat) : Nat :=
  pos - trailingBefore text (min 3 pos) (pos + 1)

/-- For a codepoint of several bytes the look back ends at its first byte. For one of a single byte
it ends there or at a codepoint that does not reach that far. -/
theorem leadBefore_eq_or (hb : Boundary text b) (hc : codepointAt text b = some c) (hle : b ≤ pos)
    (hlt : pos < b + c.size) :
    leadBefore text pos = b ∨
      b = pos ∧ c.size = 1 ∧
        ∀ d, codepointAt text (leadBefore text pos) = some d →
          leadBefore text pos + d.size ≤ pos := by
  have hlength := codepointAt_le_length hc
  have hlimit : min 3 pos ≤ pos + 1 := by omega
  have hstop : pos + 1 ≤ text.length := by omega
  by_cases hsize : 1 < c.size
  · left
    have hinside := codepointAt_trailing hc hsize
    have hfour : c.size ≤ 4 := by
      obtain ⟨lead, rest, -, rfl⟩ := drop_of_codepointAt hc
      exact decodeLead_size_le_four lead rest
    have hrun : trailingBefore text (min 3 pos) (pos + 1) = pos - b := by
      apply trailingBefore_eq hlimit hstop (by omega)
      · intro i hi
        exact hinside.2 _ (by omega) (by omega)
      · intro _
        have hlead : pos + 1 - 1 - (pos - b) = b := by omega
        rw [hlead]
        exact hinside.1
    unfold leadBefore
    omega
  · have := codepointAt_size_pos hc
    obtain rfl : b = pos := by omega
    by_cases hrun : trailingBefore text (min 3 b) (b + 1) = 0
    · left
      unfold leadBefore
      omega
    · refine .inr ⟨rfl, by omega, fun d hd => ?_⟩
      apply Nat.le_of_not_lt
      intro hreach
      have hbefore : leadBefore text b < b := by
        have := trailingBefore_le text (min 3 b) (b + 1)
        unfold leadBefore
        omega
      -- a codepoint of several bytes starts at a boundary, so `b` is not inside it
      have hlead := (codepointAt_trailing hd (by omega)).1
      have := hb.codepoint_le (boundary_of_not_trailing (by omega) hlead) hd hbefore
      omega

/-- **`floorBoundary` finds the start of the codepoint that holds an offset.** -/
theorem floorBoundary_eq (hb : Boundary text b) (hc : codepointAt text b = some c) (hle : b ≤ pos)
    (hlt : pos < b + c.size) : floorBoundary text pos = b := by
  have hlength := codepointAt_le_length hc
  have hpos : min pos text.length = pos := by omega
  unfold floorBoundary
  simp only [hpos]
  rw [if_neg (by omega), ← leadBefore]
  rcases leadBefore_eq_or hb hc hle hlt with hlead | ⟨rfl, -, hshort⟩
  · simp only [hlead, hc, if_pos hlt]
  · cases hd : codepointAt text (leadBefore text b) with
    | none => rfl
    | some d =>
      have := hshort d hd
      exact if_neg (by omega)

/-- **`stepBack` undoes a step over a codepoint.** -/
theorem stepBack_eq (hb : Boundary text b) (hc : codepointAt text b = some c) :
    stepBack text (b + c.size) = b := by
  have hlength := codepointAt_le_length hc
  have hsize := codepointAt_size_pos hc
  have hpos : min (b + c.size) text.length = b + c.size - 1 + 1 := by omega
  unfold stepBack
  simp only [hpos, Nat.add_sub_cancel]
  rw [← leadBefore]
  have hle : b ≤ b + c.size - 1 := by omega
  have hlt : b + c.size - 1 < b + c.size := by omega
  rcases leadBefore_eq_or hb hc hle hlt with hlead | ⟨-, hone, hshort⟩
  · simp only [hlead, hc]
    rw [if_pos (by omega)]
  · cases hd : codepointAt text (leadBefore text (b + c.size - 1)) with
    | none =>
      change b + c.size - 1 = b
      omega
    | some d =>
      have := hshort d hd
      simp only
      rw [if_neg (by omega)]
      omega

theorem stepBack_zero (text : Text) : stepBack text 0 = 0 := by
  unfold stepBack
  simp only [Nat.zero_min, Nat.zero_sub]
  split
  · split <;> rfl
  · rfl

theorem Boundary.stepBack (h : Boundary text pos) : Boundary text (stepBack text pos) := by
  cases h with
  | zero =>
    rw [stepBack_zero]
    exact .zero
  | step hb hc =>
    rw [stepBack_eq hb hc]
    exact hb

theorem floorBoundary_of_length_le (h : text.length ≤ pos) :
    floorBoundary text pos = text.length := by
  unfold floorBoundary
  rw [Nat.min_eq_right h]
  exact if_pos rfl

/-- A boundary counts where it is. -/
theorem Boundary.floorBoundary (h : Boundary text pos) : floorBoundary text pos = pos := by
  by_cases hlt : pos < text.length
  · obtain ⟨c, hc⟩ := codepointAt_of_lt hlt
    have := codepointAt_size_pos hc
    exact floorBoundary_eq h hc (Nat.le_refl pos) (by omega)
  · have := h.le_length
    rw [floorBoundary_of_length_le (by omega)]
    omega

theorem boundary_floorBoundary (text : Text) (pos : Nat) :
    Boundary text (floorBoundary text pos) := by
  by_cases h : pos < text.length
  · obtain ⟨b, c, hb, hc, hle, hlt⟩ := exists_boundary_le h
    rw [floorBoundary_eq hb hc hle hlt]
    exact hb
  · rw [floorBoundary_of_length_le (by omega)]
    exact boundary_length text

theorem boundary_ceilBoundary (text : Text) (pos : Nat) :
    Boundary text (ceilBoundary text pos) := by
  have h := boundary_floorBoundary text pos
  unfold ceilBoundary
  simp only
  split
  · exact h
  · exact h.stepForward

/-! ## Ranges and lines -/

theorem boundary_of_mem_codepointsFrom {suffix : Text} (hsuffix : text.drop pos = suffix)
    (hpos : Boundary text pos) {m : Nat × Codepoint} (hm : m ∈ codepointsFrom stop pos suffix) :
    Boundary text m.1 := by
  induction pos, suffix using codepointsFrom.induct stop with
  | case1 pos => simp [codepointsFrom] at hm
  | case2 pos lead rest hlt c ih =>
    rw [codepointsFrom, if_pos hlt] at hm
    have hc : codepointAt text pos = some c := by
      unfold codepointAt
      rw [hsuffix]
      rfl
    rcases List.mem_cons.mp hm with rfl | hm
    · exact hpos
    · refine ih ?_ (.step hpos hc) hm
      obtain ⟨k, hk⟩ : ∃ k, c.size = k + 1 :=
        ⟨c.size - 1, by have := codepointAt_size_pos hc; omega⟩
      rw [← List.drop_drop, hsuffix, hk, List.drop_succ_cons, Nat.add_sub_cancel]
  | case3 pos lead rest hge =>
    rw [codepointsFrom, if_neg hge] at hm
    simp at hm

theorem boundary_of_mem_codepoints {start : Nat} (h : Boundary text start) {m : Nat × Codepoint}
    (hm : m ∈ codepoints text start stop) : Boundary text m.1 :=
  boundary_of_mem_codepointsFrom rfl h hm

theorem boundary_of_ascii {b : UInt8} (h : text[pos]? = some b) (hb : b < 0x80) :
    Boundary text pos := by
  apply boundary_of_not_trailing (List.getElem?_eq_some_iff.mp h).1
  rintro ⟨b', hb', htrailing⟩
  rw [h] at hb'
  obtain rfl := Option.some.inj hb'
  unfold Byte.isTrailing at htrailing
  rw [Bool.and_eq_true, decide_eq_true_eq] at htrailing
  exact UInt8.not_lt.mpr htrailing.1 hb

theorem boundary_after_ascii {b : UInt8} (h : text[pos]? = some b) (hb : b < 0x80) :
    Boundary text (pos + 1) := by
  obtain ⟨hlt, hget⟩ := List.getElem?_eq_some_iff.mp h
  have hc : codepointAt text pos = some (decodeLead b (text.drop (pos + 1))) := by
    unfold codepointAt
    rw [List.drop_eq_getElem_cons hlt, hget]
    rfl
  have hsize : (decodeLead b (text.drop (pos + 1))).size = 1 := by
    simp [decodeLead, announced, hb, matched]
  have hnext := Boundary.step (boundary_of_ascii h hb) hc
  rwa [hsize] at hnext

theorem startOfLineFrom_eq_or (start pos line : Nat) (suffix : Text) :
    startOfLineFrom start pos line suffix = start ∨
      ∃ i, suffix[i]? = some Byte.lineFeed ∧
        startOfLineFrom start pos line suffix = pos + i + 1 := by
  induction suffix generalizing start pos line with
  | nil =>
    left
    unfold startOfLineFrom
    split
    · contradiction
    · rfl
  | cons b rest ih =>
    cases line with
    | zero => exact .inl rfl
    | succ line =>
      unfold startOfLineFrom
      by_cases hb : b = Byte.lineFeed
      · rw [if_pos hb]
        right
        rcases ih (pos + 1) (pos + 1) line with h | ⟨i, hi, h⟩
        · exact ⟨0, congrArg some hb, h⟩
        · exact ⟨i + 1, hi, by omega⟩
      · rw [if_neg hb]
        rcases ih start (pos + 1) (line + 1) with h | ⟨i, hi, h⟩
        · exact .inl h
        · exact .inr ⟨i + 1, hi, by omega⟩

theorem boundary_startOfLine (text : Text) (line : Nat) :
    Boundary text (startOfLine text line) := by
  unfold startOfLine
  rcases startOfLineFrom_eq_or 0 0 line text with h | ⟨i, hi, h⟩
  · rw [h]
    exact .zero
  · rw [h, Nat.zero_add]
    exact boundary_after_ascii hi (by decide)

theorem boundary_endOfLine (text : Text) (line : Nat) :
    Boundary text (endOfLine text line) := by
  have hstart := (boundary_startOfLine text line).le_length
  have hrun := countWhile_le_length (· != Byte.lineFeed) (text.drop (startOfLine text line))
  rw [List.length_drop] at hrun
  unfold endOfLine
  simp only
  cases hb : (text.drop (startOfLine text line))[countWhile (· != Byte.lineFeed)
      (text.drop (startOfLine text line))]? with
  | none =>
    rw [List.getElem?_drop, List.getElem?_eq_none_iff] at hb
    rw [Nat.le_antisymm (by omega) hb]
    exact boundary_length text
  | some b =>
    have hfeed : b = Byte.lineFeed := by simpa using countWhile_stops hb
    rw [List.getElem?_drop, hfeed] at hb
    exact boundary_of_ascii hb (by decide)

end CodePane.Text

import CodePane.Proofs.Text.Edge
import CodePane.Proofs.Text.Traversal
import CodePane.Text.Word

/-!
# Words

The word around an offset is the longest run of word bytes that touches the codepoint of the offset.
Word bytes are codepoints of their own, so the run ends at boundaries, and walks over codepoints end
where the bytes of the word do, whatever malformed bytes stand beside it.

1. `WordAt`: the word bytes, each of them one step.
2. `WordRun`, `WordRun.unique`, `wordRun_wordAround`: the longest runs, and the one that touches an
   offset.
3. `Walk`: steps as long as a condition holds.
4. `WordRun.walk_stepBack`, `WordRun.walk_stepForward`: walks to the ends of a run.
5. `wordAround_maximal`: all of it together.
-/

namespace CodePane

theorem Byte.isAscii_of_isWord {b : UInt8} (h : isWord b = true) : isAscii b = true := by
  unfold isWord at h
  simp only [Bool.or_eq_true, beq_iff_eq] at h
  rcases h with (rfl | hletter) | hdigit
  · decide
  · exact isAscii_of_isLetter hletter
  · exact isAscii_of_isDigit hdigit

namespace Text

variable {text : Text} {pos i p q start stop : Nat}

/-! ## Word bytes -/

/-- A word byte stands at the offset. -/
def WordAt (text : Text) (i : Nat) : Prop := ∃ b, text[i]? = some b ∧ Byte.isWord b = true

namespace WordAt

theorem lt_length (h : WordAt text i) : i < text.length := by
  obtain ⟨b, hb, -⟩ := h
  exact (List.getElem?_eq_some_iff.mp hb).1

theorem boundary (h : WordAt text i) : Boundary text i := by
  obtain ⟨b, hb, hword⟩ := h
  exact (Edge.before hb (Byte.isAscii_of_isWord hword)).boundary

theorem boundary_succ (h : WordAt text i) : Boundary text (i + 1) := by
  obtain ⟨b, hb, hword⟩ := h
  exact (Edge.behind hb (Byte.isAscii_of_isWord hword)).boundary

theorem stepForward (h : WordAt text i) : stepForward text i = i + 1 := by
  have hnext := h.boundary.isLeast_stepForward h.lt_length
  have hbehind := hnext.1.2
  have hle := hnext.2 ⟨h.boundary_succ, Nat.lt_succ_self i⟩
  omega

theorem stepBack (h : WordAt text i) : stepBack text (i + 1) = i := by
  have hprevious := h.boundary_succ.isGreatest_stepBack (Nat.succ_pos i)
  have hbefore := hprevious.1.2
  have hge := hprevious.2 ⟨h.boundary, Nat.lt_succ_self i⟩
  omega

end WordAt

/-! ## Runs -/

/-- The bytes of `[start, stop)` are word bytes, and no word byte adjoins them. -/
structure WordRun (text : Text) (start stop : Nat) : Prop where
  le_length : stop ≤ text.length
  word : ∀ i, start ≤ i → i < stop → WordAt text i
  left : start = 0 ∨ ¬ WordAt text (start - 1)
  right : stop = text.length ∨ ¬ WordAt text stop

namespace WordRun

variable {start' stop' : Nat}

theorem start_le (h : WordRun text start stop) (h' : WordRun text start' stop')
    (hp : start ≤ p ∧ p ≤ stop) (hp' : start' ≤ p ∧ p ≤ stop') : start ≤ start' := by
  apply Nat.le_of_not_lt
  intro hlt
  rcases h.left with hzero | hleft
  · omega
  · exact hleft (h'.word (start - 1) (by omega) (by omega))

theorem le_stop (h : WordRun text start stop) (h' : WordRun text start' stop')
    (hp : start ≤ p ∧ p ≤ stop) (hp' : start' ≤ p ∧ p ≤ stop') : stop' ≤ stop := by
  apply Nat.le_of_not_lt
  intro hlt
  rcases h.right with hend | hright
  · have := h'.le_length
    omega
  · exact hright (h'.word stop (by omega) hlt)

theorem unique (h : WordRun text start stop) (h' : WordRun text start' stop')
    (hp : start ≤ p ∧ p ≤ stop) (hp' : start' ≤ p ∧ p ≤ stop') :
    (start, stop) = (start', stop') := by
  have hstart := Nat.le_antisymm (h.start_le h' hp hp') (h'.start_le h hp' hp)
  have hstop := Nat.le_antisymm (h'.le_stop h hp' hp) (h.le_stop h' hp hp')
  rw [hstart, hstop]

theorem boundary (h : WordRun text start stop) (hne : start < stop) (hstart : start ≤ q)
    (hstop : q ≤ stop) : Boundary text q := by
  rcases Nat.lt_or_ge q stop with hlt | hge
  · exact (h.word q hstart hlt).boundary
  · obtain ⟨before, rfl⟩ := Nat.exists_eq_add_one.mpr (Nat.lt_of_le_of_lt (Nat.zero_le start) hne)
    obtain rfl : q = before + 1 := by omega
    exact (h.word before (by omega) (by omega)).boundary_succ

end WordRun

theorem wordAround_touches (text : Text) (pos : Nat) :
    (wordAround text pos).1 ≤ floorBoundary text pos ∧
      floorBoundary text pos ≤ (wordAround text pos).2 :=
  ⟨Nat.sub_le _ _, Nat.le_add_right _ _⟩

theorem getElem?_take_reverse (h : p ≤ text.length) (hi : i < p) :
    (text.take p).reverse[i]? = text[p - 1 - i]? := by
  have hlength : (text.take p).length = p := by
    rw [List.length_take]
    omega
  rw [List.getElem?_reverse (by omega), hlength, List.getElem?_take_of_lt (by omega)]

theorem wordRun_wordAround (text : Text) (pos : Nat) :
    WordRun text (wordAround text pos).1 (wordAround text pos).2 := by
  unfold wordAround
  have hp := (boundary_floorBoundary text pos).le_length
  generalize floorBoundary text pos = p at hp
  have hafter := countWhile_le_length Byte.isWord (text.drop p)
  have hbefore := countWhile_le_length Byte.isWord (text.take p).reverse
  rw [List.length_drop] at hafter
  rw [List.length_reverse, List.length_take, Nat.min_eq_left hp] at hbefore
  simp only
  refine ⟨by omega, ?_, ?_, ?_⟩
  · intro i hstart hstop
    rcases Nat.lt_or_ge i p with hlt | hge
    · obtain ⟨b, hb, hword⟩ := countWhile_of_lt
        (show p - 1 - i < countWhile Byte.isWord (text.take p).reverse by omega)
      rw [getElem?_take_reverse hp (by omega), show p - 1 - (p - 1 - i) = i by omega] at hb
      exact ⟨b, hb, hword⟩
    · obtain ⟨b, hb, hword⟩ := countWhile_of_lt
        (show i - p < countWhile Byte.isWord (text.drop p) by omega)
      rw [List.getElem?_drop, Nat.add_sub_cancel' hge] at hb
      exact ⟨b, hb, hword⟩
  · by_cases hzero : p - countWhile Byte.isWord (text.take p).reverse = 0
    · exact .inl hzero
    · refine .inr ?_
      rintro ⟨b, hb, hword⟩
      rw [Nat.sub_right_comm, ← getElem?_take_reverse hp (by omega)] at hb
      exact countWhile_stops hb hword
  · refine .inr ?_
    rintro ⟨b, hb, hword⟩
    rw [← List.getElem?_drop] at hb
    exact countWhile_stops hb hword

/-! ## Walks -/

/-- From `pos` one goes on by `step` as long as `goes` holds, and stops at `stop`. -/
inductive Walk (step : Nat → Nat) (goes : Nat → Prop) : (pos stop : Nat) → Prop
  | stop {pos : Nat} : ¬ goes pos → Walk step goes pos pos
  | next {pos stop : Nat} : goes pos → Walk step goes (step pos) stop → Walk step goes pos stop

namespace WordRun

/-- A codepoint before the run is no word byte: one that were a word byte would adjoin the run. -/
theorem not_wordAt_stepBack (h : WordRun text start stop) (hstart : Boundary text start)
    (hpos : 0 < start) : ¬ WordAt text (stepBack text start) := by
  intro hword
  have hnext := hstart.stepForward_stepBack hpos
  rw [hword.stepForward] at hnext
  rcases h.left with hzero | hleft
  · omega
  · rw [← hnext, Nat.add_sub_cancel] at hleft
    exact hleft hword

theorem walk_stepBack (h : WordRun text start stop) (hp : Boundary text p) (hstart : start ≤ p)
    (hstop : p ≤ stop) :
    Walk (stepBack text) (fun q => 0 < q ∧ WordAt text (stepBack text q)) p start := by
  induction p with
  | zero =>
    obtain rfl := Nat.le_zero.mp hstart
    exact .stop fun hgoes => absurd hgoes.1 (Nat.lt_irrefl 0)
  | succ p ih =>
    rcases Nat.eq_or_lt_of_le hstart with rfl | hlt
    · exact .stop fun hgoes => h.not_wordAt_stepBack hp hgoes.1 hgoes.2
    · have hword := h.word p (by omega) hstop
      refine .next ⟨Nat.succ_pos p, ?_⟩ ?_
      · rwa [hword.stepBack]
      · rw [hword.stepBack]
        exact ih hword.boundary (by omega) (by omega)

theorem walk_stepForward (h : WordRun text start stop) (hstart : start ≤ p) (hstop : p ≤ stop) :
    Walk (stepForward text) (WordAt text) p stop := by
  induction hn : stop - p generalizing p with
  | zero =>
    obtain rfl : p = stop := by omega
    refine .stop fun hword => ?_
    rcases h.right with hend | hright
    · exact absurd hword.lt_length (by omega)
    · exact hright hword
  | succ n ih =>
    have hword := h.word p hstart (by omega)
    refine .next hword ?_
    rw [hword.stepForward]
    exact ih (by omega) (by omega) (by omega)

end WordRun

/-! ## All of it together -/

/-- **The word around an offset.** It touches the codepoint of the offset, is made of word bytes and
adjoins none; walks over codepoints from there, back and on as long as they pass word bytes, end
where it does. If it is not empty, every offset from its start to its end has the same word. -/
theorem wordAround_maximal (text : Text) (pos : Nat) :
    let p := floorBoundary text pos
    let start := (wordAround text pos).1
    let stop := (wordAround text pos).2
    start ≤ p ∧ p ≤ stop ∧ WordRun text start stop ∧
      Walk (stepBack text) (fun q => 0 < q ∧ WordAt text (stepBack text q)) p start ∧
      Walk (stepForward text) (WordAt text) p stop ∧
      (start < stop → ∀ q, start ≤ q → q ≤ stop → wordAround text q = wordAround text pos) := by
  intro p start stop
  have hrun : WordRun text start stop := wordRun_wordAround text pos
  obtain ⟨hstart, hstop⟩ : start ≤ p ∧ p ≤ stop := wordAround_touches text pos
  refine ⟨hstart, hstop, hrun, hrun.walk_stepBack (boundary_floorBoundary text pos) hstart hstop,
    hrun.walk_stepForward hstart hstop, ?_⟩
  intro hne q hq hq'
  have htouches := wordAround_touches text q
  rw [(hrun.boundary hne hq hq').floorBoundary] at htouches
  exact (wordRun_wordAround text q).unique hrun htouches ⟨hq, hq'⟩

/-- A truncated character before the word and a stray byte behind it end it on either side. -/
theorem wordAround_maximal_malformed :
    let text : Text := [0xE4, 0xB8, 0x61, 0x62, 0x80, 0x63]
    wordAround text 3 = (2, 4) ∧ ∀ q, 2 ≤ q → q ≤ 4 → wordAround text q = (2, 4) := by
  intro text
  have hword : wordAround text 3 = (2, 4) := by decide
  obtain ⟨-, -, -, -, -, hsame⟩ := wordAround_maximal text 3
  rw [hword] at hsame
  exact ⟨hword, hsame (by decide)⟩

end Text

end CodePane

import CodePane.Proofs.Text.Boundary
import CodePane.Token

/-!
# Edges

The lexers read bytes and stop where the kind of the bytes changes. An edge is such a place, seen
from its neighbours alone: a byte of some kind stands on one side of it, or the text ends there. At
a byte of ASCII that is enough for a boundary.

1. `Byte.isAscii`, `Byte.endsName`, `Byte.isInk`, `Byte.isMark`, `Byte.opensWord`: the kinds of
   bytes.
2. `Seam`, `Edge`: seams of two kinds and edges of one, and how they lie in a part of a text.
3. `Edge.boundary`: edges beside ASCII are boundaries.
4. `MadeOf`: lengths all of whose bytes are of a kind.
5. `Token.AtEdges`: tokens from edge to edge.
-/

namespace CodePane

namespace Byte

/-- A byte that is a character on its own. -/
def isAscii (b : UInt8) : Bool := b < 0x80

/-- A byte that no name goes on with. -/
def endsName (b : UInt8) : Bool := !continuesName b

/-- A byte that shows: neither a blank nor a line break. -/
def isInk (b : UInt8) : Bool := !isSpaceOrTab b && !endsLine b

/-- A byte that shows and is no part of a name. -/
def isMark (b : UInt8) : Bool := endsName b && isInk b

/-- A letter or an underscore, which can open a word of the vocabulary. -/
def opensWord (b : UInt8) : Bool := isLetter b || b == underscore

theorem holds_of_contains {p : UInt8 → Bool} {bytes : Text} {b : UInt8}
    (hall : bytes.all p = true) (h : bytes.contains b = true) : p b = true :=
  List.all_eq_true.mp hall b (List.contains_iff_mem.mp h)

theorem holds_of_eq_or_eq {p : UInt8 → Bool} {a b c : UInt8} (ha : p a = true) (hc : p c = true)
    (h : (b == a || b == c) = true) : p b = true := by
  rcases Bool.or_eq_true_iff.mp h with h | h
  · rwa [beq_iff_eq.mp h]
  · rwa [beq_iff_eq.mp h]

theorem continuesName_eq_false {b : UInt8} (h : endsName b = true) : continuesName b = false := by
  rwa [endsName, Bool.not_eq_true'] at h

theorem isInk_eq_not (b : UInt8) : isInk b = !(endsLine b || isSpaceOrTab b) := by
  rw [isInk, ← Bool.not_or, Bool.or_comm]

theorem isAscii_of_endsName {b : UInt8} (h : endsName b = true) : isAscii b = true := by
  unfold endsName continuesName startsName at h
  unfold isAscii
  rw [decide_eq_true_eq, ← UInt8.not_le]
  intro hle
  simp [hle] at h

theorem isAscii_of_le {low high b : UInt8} (hhigh : high < 0x80) (h : low ≤ b ∧ b ≤ high) :
    isAscii b = true :=
  decide_eq_true (UInt8.lt_of_le_of_lt h.2 hhigh)

theorem isAscii_of_isDigit {b : UInt8} (h : isDigit b = true) : isAscii b = true := by
  unfold isDigit at h
  rw [Bool.and_eq_true, decide_eq_true_eq, decide_eq_true_eq] at h
  exact isAscii_of_le (by decide) h

theorem isAscii_of_isLetter {b : UInt8} (h : isLetter b = true) : isAscii b = true := by
  unfold isLetter at h
  simp only [Bool.or_eq_true, Bool.and_eq_true, decide_eq_true_eq] at h
  rcases h with h | h
  · exact isAscii_of_le (by decide) h
  · exact isAscii_of_le (by decide) h

theorem isAscii_of_opensWord {b : UInt8} (h : opensWord b = true) : isAscii b = true := by
  rcases Bool.or_eq_true_iff.mp h with h | h
  · exact isAscii_of_isLetter h
  · rw [beq_iff_eq.mp h]
    decide

theorem isAscii_of_isHexDigit {b : UInt8} (h : isHexDigit b = true) : isAscii b = true := by
  unfold isHexDigit at h
  simp only [Bool.or_eq_true, Bool.and_eq_true, decide_eq_true_eq] at h
  rcases h with (h | h) | h
  · exact isAscii_of_isDigit h
  · exact isAscii_of_le (by decide) h
  · exact isAscii_of_le (by decide) h

theorem continuesName_of_opensWord {b : UInt8} (h : opensWord b = true) :
    continuesName b = true := by
  unfold opensWord at h
  unfold continuesName startsName
  rw [Bool.or_comm] at h
  rw [h, Bool.true_or, Bool.true_or]

theorem isDigit_eq_false_of_startsName {b : UInt8} (h : startsName b = true) :
    isDigit b = false := by
  rw [← Bool.not_eq_true]
  intro hdigit
  simp only [startsName, isLetter, isDigit, underscore, Bool.or_eq_true, Bool.and_eq_true,
    decide_eq_true_eq, beq_iff_eq, UInt8.le_iff_toNat_le] at h hdigit
  have hnine : '9'.toUInt8.toNat = 57 := by decide
  rcases h with (rfl | hletter) | houtside
  · exact absurd hdigit (by decide)
  · have hlower : 'a'.toUInt8.toNat = 97 := by decide
    have hupper : 'A'.toUInt8.toNat = 65 := by decide
    omega
  · have hascii : (0x80 : UInt8).toNat = 128 := by decide
    omega

theorem endsName_of_isMark {b : UInt8} (h : isMark b = true) : endsName b = true :=
  (Bool.and_eq_true_iff.mp h).1

theorem isAscii_of_isMark {b : UInt8} (h : isMark b = true) : isAscii b = true :=
  isAscii_of_endsName (endsName_of_isMark h)

theorem isInk_of_isMark {b : UInt8} (h : isMark b = true) : isInk b = true :=
  (Bool.and_eq_true_iff.mp h).2

theorem isInk_of_holds {p : UInt8 → Bool}
    (hp : [' '.toUInt8, '\t'.toUInt8, lineFeed, carriageReturn].any p = false) {b : UInt8}
    (h : p b = true) : isInk b = true := by
  have hnone := List.any_eq_false.mp hp
  unfold isInk isSpaceOrTab endsLine
  simp only [Bool.and_eq_true, Bool.not_eq_true', Bool.or_eq_false_iff, beq_eq_false_iff_ne]
  refine ⟨⟨?_, ?_⟩, ?_, ?_⟩
  all_goals
    rintro rfl
    exact hnone _ (by simp) h

theorem endsName_of_isSpaceOrTab {b : UInt8} (h : isSpaceOrTab b = true) : endsName b = true :=
  holds_of_eq_or_eq (by decide) (by decide) h

theorem endsName_of_endsLine {b : UInt8} (h : endsLine b = true) : endsName b = true :=
  holds_of_eq_or_eq (by decide) (by decide) h

end Byte

namespace Text

variable {p q : UInt8 → Bool} {text rest tail : Text} {b : UInt8} {k n : Nat}

/-! ## Seams -/

/-- An offset of the text that is behind a byte of kind `q`, or before nothing but a byte of kind
`p`. -/
def Seam (p q : UInt8 → Bool) (text : Text) (n : Nat) : Prop :=
  n ≤ text.length ∧
    ((∀ b, text[n]? = some b → p b = true) ∨ ∃ m b, n = m + 1 ∧ text[m]? = some b ∧ q b = true)

namespace Seam

variable {p' q' : UInt8 → Bool}

theorem le_length (h : Seam p q text n) : n ≤ text.length := h.1

theorem imp (h : Seam p q text n) (hp : ∀ b, p b = true → p' b = true)
    (hq : ∀ b, q b = true → q' b = true) : Seam p' q' text n := by
  obtain ⟨hle, hbefore | ⟨m, b, rfl, hm, hb⟩⟩ := h
  · exact ⟨hle, .inl fun b hb => hp b (hbefore b hb)⟩
  · exact ⟨hle, .inr ⟨m, b, rfl, hm, hq b hb⟩⟩

theorem before (h : text[n]? = some b) (hb : p b = true) : Seam p q text n := by
  refine ⟨Nat.le_of_lt (List.getElem?_eq_some_iff.mp h).1, .inl ?_⟩
  intro c hc
  rw [h] at hc
  obtain rfl := Option.some.inj hc
  exact hb

theorem head (hb : p b = true) : Seam p q (b :: rest) 0 := before rfl hb

theorem behind (h : text[n]? = some b) (hb : q b = true) : Seam p q text (n + 1) :=
  ⟨(List.getElem?_eq_some_iff.mp h).1, .inr ⟨n, b, rfl, h, hb⟩⟩

theorem length (p q : UInt8 → Bool) (text : Text) : Seam p q text text.length := by
  refine ⟨Nat.le_refl _, .inl ?_⟩
  intro b hb
  simp at hb

theorem cons (h : Seam p q rest n) (b : UInt8) : Seam p q (b :: rest) (n + 1) := by
  obtain ⟨hle, hbefore | ⟨m, c, rfl, hm, hc⟩⟩ := h
  · exact ⟨Nat.succ_le_succ hle, .inl hbefore⟩
  · exact ⟨Nat.succ_le_succ hle, .inr ⟨m + 1, c, rfl, hm, hc⟩⟩

theorem ofDrop (h : Seam p q (text.drop k) n) (hk : k ≤ text.length) :
    Seam p q text (k + n) := by
  obtain ⟨hle, hedge⟩ := h
  rw [List.length_drop] at hle
  refine ⟨by omega, ?_⟩
  rcases hedge with hbefore | ⟨m, b, rfl, hm, hb⟩
  · refine .inl fun b hb => hbefore b ?_
    rw [List.getElem?_drop]
    exact hb
  · rw [List.getElem?_drop] at hm
    exact .inr ⟨k + m, b, rfl, hm, hb⟩

theorem ofPrefix {word : Text} (h : word <+: text) (hne : word ≠ [])
    (hword : word.all q = true) : Seam p q text word.length := by
  obtain ⟨tail, rfl⟩ := h
  obtain ⟨m, hm⟩ := Nat.exists_eq_add_one.mpr (List.length_pos_iff.mpr hne)
  have hlast : m < word.length := by omega
  rw [hm]
  refine behind (b := word[m]) ?_ (List.all_eq_true.mp hword _ (List.getElem_mem hlast))
  rw [List.getElem?_append_left hlast, List.getElem?_eq_getElem hlast]

theorem countWhile {r : UInt8 → Bool} (h : ∀ b, r b = false → p b = true) (text : Text) :
    Seam p q text (countWhile r text) := by
  refine ⟨countWhile_le_length r text, .inl ?_⟩
  intro b hb
  exact h b (Bool.eq_false_iff.mpr (countWhile_stops hb))

end Seam

/-! ## Edges -/

/-- An offset of the text that is behind a byte of kind `p`, or before nothing but such a byte. -/
def Edge (p : UInt8 → Bool) (text : Text) (n : Nat) : Prop :=
  n ≤ text.length ∧
    ((∀ b, text[n]? = some b → p b = true) ∨ ∃ m b, n = m + 1 ∧ text[m]? = some b ∧ p b = true)

theorem Seam.edge {r : UInt8 → Bool} (h : Seam p q text n) (hp : ∀ b, p b = true → r b = true)
    (hq : ∀ b, q b = true → r b = true) : Edge r text n :=
  h.imp hp hq

namespace Edge

theorem seam (h : Edge p text n) : Seam p p text n := h

theorem le_length (h : Edge p text n) : n ≤ text.length := h.1

theorem imp (h : Edge p text n) (hpq : ∀ b, p b = true → q b = true) : Edge q text n :=
  h.seam.edge hpq hpq

theorem head (hb : p b = true) : Edge p (b :: rest) 0 := Seam.head hb

theorem length (p : UInt8 → Bool) (text : Text) : Edge p text text.length := Seam.length p p text

theorem before (h : text[n]? = some b) (hb : p b = true) : Edge p text n := Seam.before h hb

theorem behind (h : text[n]? = some b) (hb : p b = true) : Edge p text (n + 1) := Seam.behind h hb

theorem cons (h : Edge p rest n) (b : UInt8) : Edge p (b :: rest) (n + 1) := h.seam.cons b

theorem ofDrop (h : Edge p (text.drop k) n) (hk : k ≤ text.length) : Edge p text (k + n) :=
  h.seam.ofDrop hk

theorem drop (h : Edge p text n) (hk : k < n) : Edge p (text.drop k) (n - k) := by
  obtain ⟨hle, hedge⟩ := h
  refine ⟨by rw [List.length_drop]; omega, ?_⟩
  rcases hedge with hbefore | ⟨m, b, rfl, hm, hb⟩
  · left
    intro b hb
    rw [List.getElem?_drop, Nat.add_sub_cancel' (Nat.le_of_lt hk)] at hb
    exact hbefore b hb
  · right
    refine ⟨m - k, b, by omega, ?_, hb⟩
    rw [List.getElem?_drop, Nat.add_sub_cancel' (Nat.le_of_lt_succ hk)]
    exact hm

theorem append (h : Edge p text n) (htail : ∀ b, tail.head? = some b → p b = true) :
    Edge p (text ++ tail) n := by
  obtain ⟨hle, hedge⟩ := h
  refine ⟨by rw [List.length_append]; omega, ?_⟩
  rcases hedge with hbefore | ⟨m, b, rfl, hm, hb⟩
  · left
    intro b hb
    rcases Nat.eq_or_lt_of_le hle with rfl | hlt
    · rw [List.getElem?_append_right (Nat.le_refl _), Nat.sub_self, ← List.head?_eq_getElem?] at hb
      exact htail b hb
    · rw [List.getElem?_append_left hlt] at hb
      exact hbefore b hb
  · right
    exact ⟨m, b, rfl, by rw [List.getElem?_append_left (by omega)]; exact hm, hb⟩

theorem ofPrefix {word : Text} (h : word <+: text) (hne : word ≠ [])
    (hword : word.all p = true) : Edge p text word.length :=
  Seam.ofPrefix h hne hword

theorem countWhile (h : ∀ b, q b = false → p b = true) (text : Text) :
    Edge p text (countWhile q text) :=
  Seam.countWhile h text

theorem name (text : Text) : Edge Byte.endsName text (Text.countWhile Byte.continuesName text) :=
  countWhile (fun _ h => by simp [Byte.endsName, h]) text

/-- **Beside an ASCII byte, and at the end of the text, there is a boundary.** -/
theorem boundary (h : Edge Byte.isAscii text n) : Boundary text n := by
  obtain ⟨hle, hbefore | ⟨m, b, rfl, hm, hb⟩⟩ := h
  · rcases Nat.eq_or_lt_of_le hle with rfl | hlt
    · exact boundary_length text
    · have hget := List.getElem?_eq_getElem hlt
      exact boundary_of_ascii hget (decide_eq_true_eq.mp (hbefore _ hget))
  · exact boundary_after_ascii hm (decide_eq_true_eq.mp hb)

end Edge

/-! ## Lengths made of bytes of a kind -/

/-- A length all of whose bytes are of kind `p`. -/
def MadeOf (p : UInt8 → Bool) (f : Text → Nat) : Prop :=
  ∀ text i, i < f text → ∃ b, text[i]? = some b ∧ p b = true

namespace MadeOf

variable {f g : Text → Nat}

theorem countWhile (h : ∀ b, q b = true → p b = true) : MadeOf p (countWhile q) := by
  intro text i hi
  obtain ⟨b, hb, hq⟩ := countWhile_of_lt hi
  exact ⟨b, hb, h b hq⟩

/-- One length, and then another of what follows it. -/
theorem andThen (hf : MadeOf p f) (hg : MadeOf p g) :
    MadeOf p fun text => f text + g (text.drop (f text)) := by
  intro text i hi
  by_cases hfirst : i < f text
  · exact hf text i hfirst
  · simp only at hi
    obtain ⟨b, hb, hp⟩ := hg (text.drop (f text)) (i - f text) (by omega)
    rw [List.getElem?_drop, Nat.add_sub_cancel' (Nat.le_of_not_lt hfirst)] at hb
    exact ⟨b, hb, hp⟩

theorem cons (hf : MadeOf p f) (hb : p b = true) (rest : Text) {i : Nat} (hi : i < 1 + f rest) :
    ∃ c, (b :: rest)[i]? = some c ∧ p c = true := by
  cases i with
  | zero => exact ⟨b, rfl, hb⟩
  | succ i => exact hf rest i (by omega)

theorem headLength (h : ∀ b, q b = true → p b = true) :
    MadeOf p fun text => if text.head?.any q then 1 else 0 := by
  intro text i hi
  cases text with
  | nil => exact absurd hi (Nat.not_lt_zero i)
  | cons b rest =>
    have hlength : i < if q b = true then 1 else 0 := hi
    by_cases hb : q b = true
    · rw [if_pos hb] at hlength
      obtain rfl := Nat.lt_one_iff.mp hlength
      exact ⟨b, rfl, h b hb⟩
    · rw [if_neg hb] at hlength
      exact absurd hlength (Nat.not_lt_zero i)

theorem seam {r : UInt8 → Bool} (hf : MadeOf p f) (hpos : 0 < f text) :
    Seam r p text (f text) := by
  obtain ⟨m, hm⟩ := Nat.exists_eq_add_one.mpr hpos
  obtain ⟨b, hb, hp⟩ := hf text m (by omega)
  rw [hm]
  exact Seam.behind hb hp

theorem seam_cons {r : UInt8 → Bool} (hf : MadeOf p f) (hb : p b = true) (rest : Text) :
    Seam r p (b :: rest) (1 + f rest) := by
  obtain ⟨c, hc, hp⟩ := hf.cons hb rest (i := f rest) (Nat.lt_add_of_pos_left Nat.one_pos)
  rw [Nat.add_comm]
  exact Seam.behind hc hp

end MadeOf

end Text

/-! ## Tokens -/

namespace Token

open Text

variable {text tail : Text} {t : Token} {k : Nat}

/-- A token from one edge of ASCII to another. -/
def AtEdges (text : Text) (t : Token) : Prop :=
  Edge Byte.isAscii text t.start ∧ Edge Byte.isAscii text t.stop

namespace AtEdges

theorem shift (h : AtEdges (text.drop k) t) (hk : k ≤ text.length) : AtEdges text (t.shift k) := by
  refine ⟨h.1.ofDrop hk, ?_⟩
  have hstop := h.2.ofDrop hk
  rwa [stop, ← Nat.add_assoc] at hstop

theorem append (h : AtEdges text t) (htail : ∀ b, tail.head? = some b → Byte.isAscii b = true) :
    AtEdges (text ++ tail) t :=
  ⟨h.1.append htail, h.2.append htail⟩

theorem boundaries (h : AtEdges text t) : Boundary text t.start ∧ Boundary text t.stop :=
  ⟨h.1.boundary, h.2.boundary⟩

end AtEdges

end Token

end CodePane

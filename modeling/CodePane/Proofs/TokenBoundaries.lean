import CodePane.Proofs.Listing.Order
import CodePane.Proofs.Source.Order
import CodePane.Proofs.Source.Recognized
import CodePane.TextKind

/-!
# Tokens begin and end at boundaries

Both lexers read bytes and know nothing of codepoints, and a text need not be well-formed. But each
token goes from an edge of ASCII to an edge of ASCII, and these are boundaries.

1. `Source.Recognized.edges`, `Source.atEdges_of_mem_tokenize`: tokens of source texts.
2. `Listing.CutsAtEdges`, `Listing.code_atEdges`, `Listing.atEdges_of_mem_tokenize`: tokens of
   listings, before and behind the colon.
3. `TextKind.tokenize_boundaries`: tokens of any text.
-/

namespace CodePane

open Text

/-! ## Source texts -/

namespace Source

variable {x text : Text} {n : Nat} {c : TokenClass} {s : Style} {t : Token}

theorem docWords_ascii : ∀ word ∈ Vocabulary.docWords,
    word ≠ [] ∧ word.all Byte.isAscii = true := by decide

theorem isAscii_of_startsNumber {b : UInt8} {rest : Text} (h : startsNumber (b :: rest) = true) :
    Byte.isAscii b = true := by
  rcases Bool.or_eq_true_iff.mp h with h | h
  · exact Byte.isAscii_of_isDigit h
  · obtain ⟨h, -⟩ := Bool.and_eq_true_iff.mp h
    rw [beq_iff_eq.mp h]
    decide

/-- Every rule puts tokens from an edge of ASCII to another. -/
theorem Recognized.edges (h : Recognized x n c s) :
    Edge Byte.isAscii x 0 ∧ Edge Byte.isAscii x n := by
  cases h with
  | word hlength hlisted =>
    subst hlength
    obtain ⟨b, rest, rfl, hopens⟩ := head_of_listedClass? hlisted
    exact ⟨Edge.head (Byte.isAscii_of_opensWord hopens),
      (Edge.name _).imp fun _ => Byte.isAscii_of_endsName⟩
  | number starts length =>
    subst length
    cases x with
    | nil => cases starts
    | cons b rest => exact ⟨Edge.head (isAscii_of_startsNumber starts), edge_numberLength starts⟩
  | @operator b rest head starts length =>
    subst head length
    have hhead := Byte.isAscii_of_isMark (isMark_of_beginsOperator starts)
    have hend := Closed.edge (closed_operatorLength starts rest)
    exact ⟨Edge.head hhead, hend.imp fun _ => Byte.isAscii_of_endsName⟩
  | delimiter head starts length =>
    subst head length
    have hhead := Byte.isAscii_of_isMark (isMark_of_isDelimiter starts)
    exact ⟨Edge.head hhead, Edge.behind rfl hhead⟩
  | bracket head starts length =>
    subst head length
    have hhead := Byte.isAscii_of_isMark (isMark_of_isBracket starts)
    exact ⟨Edge.head hhead, Edge.behind rfl hhead⟩
  | docWord head marks listed length =>
    subst head length
    have hhead := Byte.isAscii_of_endsName (endsName_of_isCommandMark marks)
    obtain ⟨hne, hascii⟩ := docWords_ascii _ (List.contains_iff_mem.mp listed)
    exact ⟨Edge.head hhead, (Edge.ofPrefix (List.prefix_append _ _) hne hascii).cons _⟩
  | region listed head starts ends =>
    subst head
    exact ⟨Edge.head starts, ends.imp fun _ => Byte.isAscii_of_endsName⟩

theorem atEdges_of_mem_tokenize (ht : t ∈ tokenize text) : t.AtEdges text := by
  have hwithin := ((tokenize_tidy text).within t ht).2
  unfold Token.stop at hwithin
  have hstart : t.start ≤ text.length := by omega
  obtain ⟨hhead, hend⟩ := (tokenize_stands text t ht).edges
  exact ⟨hhead.ofDrop hstart, hend.ofDrop hstart⟩

end Source

/-! ## Listings -/

namespace Listing

variable {line rest text x : Text} {b : UInt8} {pos : Nat} {t : Token}

theorem atEdges_of_mem_tag {start stop : Nat} {c : TokenClass} {s : Style}
    (h : start < stop → Edge Byte.isAscii text start ∧ Edge Byte.isAscii text stop)
    (ht : t ∈ tag start stop c s) : t.AtEdges text := by
  unfold tag at ht
  split at ht
  · next hlt =>
    obtain ⟨hstart, hstop⟩ := h hlt
    obtain rfl := List.mem_singleton.mp ht
    refine ⟨hstart, ?_⟩
    rw [Token.stop, Token.ofSpan, Nat.add_sub_cancel' (Nat.le_of_lt hlt)]
    exact hstop
  · exact absurd ht List.not_mem_nil

/-- A number with its mark goes from edge to edge. -/
theorem edges_hexLength (h : startsHex text = true) :
    Edge Byte.isAscii text 0 ∧ Edge Byte.isAscii text (hexLength text) := by
  have hdigits : MadeOf Byte.isAscii (countWhile Byte.isHexDigit) :=
    MadeOf.countWhile fun _ => Byte.isAscii_of_isHexDigit
  have hmark {zero mark : UInt8} (hzero : Byte.isAscii zero = true)
      (hmark : Byte.isAscii mark = true) (rest : Text) :
      Edge Byte.isAscii (zero :: mark :: rest) 0 ∧
        Edge Byte.isAscii (zero :: mark :: rest) (hexLength (zero :: mark :: rest)) := by
    have hend := (hdigits.seam_cons (r := Byte.isAscii) hmark rest).cons zero
    rw [Nat.add_right_comm] at hend
    exact ⟨Edge.head hzero, hend⟩
  rcases Bool.or_eq_true_iff.mp h with h | h
  · obtain ⟨rest, rfl⟩ := List.isPrefixOf_iff_prefix.mp h
    exact hmark (by decide) (by decide) rest
  · obtain ⟨rest, rfl⟩ := List.isPrefixOf_iff_prefix.mp h
    exact hmark (by decide) (by decide) rest

/-! ### Before the colon -/

/-- A piece of a line lies in it, and its tokens go from edge to edge. -/
def CutsAtEdges (piece : Text → Lexeme) : Prop :=
  ∀ line, (piece line).length ≤ line.length ∧ ∀ t ∈ (piece line).tokens, t.AtEdges line

theorem cutsAtEdges_sequence {first second : Text → Lexeme} (hfirst : CutsAtEdges first)
    (hsecond : CutsAtEdges second) : CutsAtEdges (sequence first second) := by
  intro line
  obtain ⟨hle, hhead⟩ := hfirst line
  obtain ⟨hbehind, htail⟩ := hsecond (line.drop (first line).length)
  rw [List.length_drop] at hbehind
  refine ⟨by simp only [sequence]; omega, ?_⟩
  intro t ht
  rcases List.mem_append.mp ht with ht | ht
  · exact hhead t ht
  · obtain ⟨u, hu, rfl⟩ := List.mem_map.mp ht
    exact (htail u hu).shift hle

theorem single_after_blanks {n : Nat} {c : TokenClass}
    (h : Edge Byte.isAscii (line.drop pos) 0 ∧ Edge Byte.isAscii (line.drop pos) n)
    (hpos : pos ≤ line.length) :
    pos + n ≤ line.length ∧ (⟨pos, n, c, .plain⟩ : Token).AtEdges line :=
  ⟨(h.2.ofDrop hpos).le_length, h.1.ofDrop hpos, h.2.ofDrop hpos⟩

theorem cutsAtEdges_marker : CutsAtEdges marker := by
  intro line
  have hblanks := countWhile_le_length Byte.isSpaceOrTab line
  unfold marker
  simp only
  split_ifs with hmark
  · have hbegins := List.isPrefixOf_iff_prefix.mp hmark
    have hend := Edge.ofPrefix (p := Byte.isAscii) hbegins (by decide) (by decide)
    obtain ⟨rest, hrest⟩ := hbegins
    have hhead : Edge Byte.isAscii (line.drop (countWhile Byte.isSpaceOrTab line)) 0 := by
      rw [← hrest]
      exact Edge.head (by decide)
    obtain ⟨hle, hedges⟩ := single_after_blanks ⟨hhead, hend⟩ hblanks
    exact ⟨hle, List.forall_mem_singleton.mpr hedges⟩
  · exact ⟨hblanks, List.forall_mem_nil _⟩

theorem cutsAtEdges_address : CutsAtEdges address := by
  intro line
  have hblanks := countWhile_le_length Byte.isSpaceOrTab line
  unfold address
  simp only
  split_ifs with hhex
  · obtain ⟨hle, hedges⟩ := single_after_blanks (edges_hexLength hhex) hblanks
    exact ⟨hle, List.forall_mem_singleton.mpr hedges⟩
  · exact ⟨hblanks, List.forall_mem_nil _⟩

theorem cutsAtEdges_name : CutsAtEdges name := by
  intro line
  have hblanks := countWhile_le_length Byte.isSpaceOrTab line
  unfold name
  simp only
  generalize countWhile Byte.isSpaceOrTab line = blanks at hblanks ⊢
  split
  · exact ⟨hblanks, List.forall_mem_nil _⟩
  · next b rest hdrop =>
    have hlength := length_of_drop hdrop
    split_ifs with hopen
    · refine ⟨by simp only; omega, ?_⟩
      intro t ht
      have hstart : Edge Byte.isAscii (b :: rest) 1 := Edge.behind rfl (by rw [hopen]; decide)
      have hlabel : Edge Byte.isAscii rest
          (countWhile (fun b => b != '>'.toUInt8 && b != '+'.toUInt8) rest) := by
        refine Edge.countWhile ?_ rest
        intro b hb
        rcases Bool.and_eq_false_iff.mp hb with hb | hb
        · rw [bne_eq_false_iff_eq.mp hb]
          decide
        · rw [bne_eq_false_iff_eq.mp hb]
          decide
      have hstop := hlabel.cons b
      rw [← hdrop] at hstart hstop
      have hstop := hstop.ofDrop hblanks
      rw [← Nat.add_assoc, Nat.add_right_comm] at hstop
      exact atEdges_of_mem_tag (fun _ => ⟨hstart.ofDrop hblanks, hstop⟩) ht
    · exact ⟨hblanks, List.forall_mem_nil _⟩

theorem cutsAtEdges_head : CutsAtEdges head :=
  cutsAtEdges_sequence cutsAtEdges_marker
    (cutsAtEdges_sequence cutsAtEdges_address cutsAtEdges_name)

/-! ### Behind the colon -/

theorem single_atEdges {n : Nat} {c : TokenClass} {s : Style} (hb : Byte.isAscii b = true)
    (hend : Edge Byte.isAscii (b :: rest) n) :
    ∀ t ∈ (Lexeme.single n c s).tokens, t.AtEdges (b :: rest) := by
  intro t ht
  obtain rfl := List.mem_singleton.mp ht
  refine ⟨Edge.head hb, ?_⟩
  rw [Token.stop, Nat.zero_add]
  exact hend

/-- An operand is all of a name, or ends behind its digits. -/
theorem operand_atEdges : ∀ t ∈ (operand b rest).tokens, t.AtEdges (b :: rest) := by
  unfold operand
  simp only
  split_ifs with hcomment hpercent hregister hdollar hhex hnumber hdigits hhex
  · refine single_atEdges (by rw [hcomment]; decide) ?_
    rw [Nat.add_comm]
    exact Edge.length _ (b :: rest)
  · have hend := (Edge.name rest).cons b
    refine single_atEdges (by rw [hpercent]; decide) ?_
    rw [Nat.add_comm]
    exact hend.imp fun _ => Byte.isAscii_of_endsName
  · exact List.forall_mem_nil _
  · refine single_atEdges (by rw [hdollar]; decide) ?_
    rw [Nat.add_comm]
    exact (edges_hexLength hhex).2.cons b
  · exact List.forall_mem_nil _
  · have hdigits : MadeOf Byte.isAscii (countWhile Byte.isDigit) :=
      MadeOf.countWhile fun _ => Byte.isAscii_of_isDigit
    have hb : Byte.isAscii b = true := by
      rw [hdollar]
      decide
    exact single_atEdges hb (hdigits.seam_cons hb rest)
  · exact List.forall_mem_nil _
  · intro t ht
    obtain rfl := List.mem_singleton.mp ht
    have hedges := edges_hexLength hhex
    rw [← Nat.zero_add (hexLength _)] at hedges
    exact hedges
  · exact List.forall_mem_nil _

theorem shift_atEdges (hx : x.drop pos = b :: rest) (h : t.AtEdges (b :: rest)) :
    (t.shift pos).AtEdges x := by
  have hlength := length_of_drop hx
  rw [← hx] at h
  exact h.shift (by omega)

theorem operands_atEdges (hx : x.drop pos = text) :
    ∀ t ∈ operands pos text, t.AtEdges x := by
  fun_induction operands pos text with
  | case1 => exact List.forall_mem_nil _
  | case2 pos b rest l ih =>
    intro t ht
    rcases List.mem_append.mp ht with ht | ht
    · obtain ⟨u, hu, rfl⟩ := List.mem_map.mp ht
      exact shift_atEdges hx (operand_atEdges u hu)
    · exact ih (drop_behind hx (operand_fits b rest).pos) t ht

/-- The bytes of an instruction are letters and digits, so its first one and its last one are
ASCII. -/
theorem code_atEdges (hx : x.drop pos = text) (hpos : pos ≤ x.length) :
    ∀ t ∈ code pos text, t.AtEdges x := by
  subst hx
  intro t ht
  unfold code at ht
  simp only at ht
  have hblanks := countWhile_le_length Byte.isSpaceOrTab (x.drop pos)
  generalize countWhile Byte.isSpaceOrTab (x.drop pos) = start at hblanks ht
  rw [List.length_drop] at hblanks
  have hstart : pos + start ≤ x.length := by omega
  rw [List.drop_drop, List.drop_drop, ← Nat.add_assoc] at ht
  rcases List.mem_append.mp ht with ht | ht
  · refine atEdges_of_mem_tag ?_ ht
    intro hlt
    have hascii : ∀ b, (Byte.isLetter b || Byte.isDigit b) = true → Byte.isAscii b = true := by
      intro b hb
      rcases Bool.or_eq_true_iff.mp hb with hb | hb
      · exact Byte.isAscii_of_isLetter hb
      · exact Byte.isAscii_of_isDigit hb
    have hfilled := Nat.pos_of_lt_add_right hlt
    obtain ⟨b, hhead, hb⟩ := countWhile_of_lt hfilled
    have hend : Edge Byte.isAscii _ _ := (MadeOf.countWhile hascii).seam hfilled
    have hbegin := Edge.before hhead (hascii b hb)
    exact ⟨hbegin.ofDrop hstart, hend.ofDrop hstart⟩
  · exact operands_atEdges rfl t ht

/-! ### Lines -/

theorem line_atEdges (text : Text) : ∀ t ∈ Listing.line text, t.AtEdges text := by
  intro t ht
  obtain ⟨-, hhead⟩ := cutsAtEdges_head text
  unfold Listing.line at ht
  simp only at ht
  rcases List.mem_append.mp ht with ht | ht
  · exact hhead t ht
  · split at ht
    · exact absurd ht List.not_mem_nil
    · next b rest hdrop =>
      have hlength := length_of_drop hdrop
      exact code_atEdges (drop_behind hdrop Nat.one_pos) (by omega) t ht

theorem scan_atEdges (hx : x.drop pos = text) : ∀ t ∈ scan pos text, t.AtEdges x := by
  fun_induction scan pos text with
  | case1 => exact List.forall_mem_nil _
  | case2 pos b rest content length ih =>
    intro t ht
    rcases List.mem_append.mp ht with ht | ht
    · obtain ⟨u, hu, rfl⟩ := List.mem_map.mp ht
      refine shift_atEdges hx ?_
      have hbreak : ∀ c, ((b :: rest).dropWhile fun b => !Byte.endsLine b).head? = some c →
          Byte.isAscii c = true := by
        intro c hc
        have hstop := List.head?_dropWhile_not (fun b => !Byte.endsLine b) (b :: rest)
        rw [hc] at hstop
        exact Byte.isAscii_of_endsName (Byte.endsName_of_endsLine (by simpa using hstop))
      have hline := (line_atEdges content u hu).append hbreak
      rwa [List.takeWhile_append_dropWhile] at hline
    · have hbreak := breakLength_pos ((b :: rest).drop content.length)
      exact ih (drop_behind hx (Nat.add_pos_right _ hbreak)) t ht

theorem atEdges_of_mem_tokenize (ht : t ∈ tokenize text) : t.AtEdges text :=
  scan_atEdges rfl t ht

end Listing

/-- **Every token of every text begins and ends at a boundary.** -/
theorem TextKind.tokenize_boundaries (kind : TextKind) (text : Text) :
    ∀ t ∈ kind.tokenize text, Boundary text t.start ∧ Boundary text t.stop := by
  intro t ht
  cases kind with
  | source => exact (Source.atEdges_of_mem_tokenize ht).boundaries
  | listing => exact (Listing.atEdges_of_mem_tokenize ht).boundaries
  | plain => exact absurd ht List.not_mem_nil

/-- The backslash of the string takes the first byte of a character with it, and a stray byte of
another one follows the string. -/
theorem TextKind.tokenize_boundaries_escape :
    let text : Text := [0x22, 0x5C, 0xE4, 0xB8, 0xAD, 0x22, 0x80]
    let t : Token := ⟨0, 6, .string, .plain⟩
    t ∈ TextKind.source.tokenize text ∧ Boundary text 0 ∧ Boundary text 6 := by
  intro text t
  have ht : t ∈ TextKind.source.tokenize text := by decide +kernel
  exact ⟨ht, TextKind.tokenize_boundaries .source text t ht⟩

end CodePane

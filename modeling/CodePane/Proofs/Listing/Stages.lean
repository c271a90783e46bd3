import CodePane.Proofs.Listing.Lines
import CodePane.Proofs.Source.Classes

/-!
# The stages of a line

A line of a listing goes through fixed stages: marker, address, label, instruction, operands,
comment. Each gives out at most one token, apart from the operands, and a line without a colon does
not reach the instruction.

1. `classes`, `Staged`: the classes of tokens in order, and those that a line may have.
2. `classes_head`: the stages before the colon.
3. `operands_end`, `classes_code`: the stages behind it.
4. `staged_line`, `bytes_of_marker`: lines.
5. `tokenize_staged`: listings.
-/

namespace CodePane

open Text

theorem Token.bytes_shift {line : Text} {t : Token} (h : t.stop ≤ line.length)
    (before behind : Text) :
    (t.shift before.length).bytes (before ++ (line ++ behind)) = t.bytes line := by
  unfold Token.bytes Token.stop at *
  rw [Text.between_add, Text.between_add]
  show ((before ++ (line ++ behind)).drop (before.length + t.start)).take t.length = _
  rw [List.drop_length_add_append, List.drop_append_of_le_length (by omega),
    List.take_append_of_le_length (by rw [List.length_drop]; omega)]

namespace Listing

variable {line rest text : Text} {b : UInt8} {t : Token} {c : TokenClass}

/-! ## Classes in order -/

def classes (tokens : List Token) : List TokenClass := tokens.map Token.tokenClass

@[simp] theorem classes_append (xs ys : List Token) :
    classes (xs ++ ys) = classes xs ++ classes ys :=
  List.map_append

@[simp] theorem classes_shift (n : Nat) (tokens : List Token) :
    classes (tokens.map (Token.shift n)) = classes tokens :=
  List.map_map

@[simp] theorem classes_tokensAt (pos : Nat) (l : Lexeme) :
    classes (l.tokensAt pos) = classes l.tokens :=
  classes_shift pos l.tokens

/-- What comes before the operands of a line, each at most once and in this order. -/
def headStages : List TokenClass := [.operator, .address, .label]

/-- Registers and numbers, and then at most one comment. -/
def OperandStages (cs : List TokenClass) : Prop :=
  ∃ operands comment, cs = operands ++ comment ∧
    (∀ c ∈ operands, c = .register ∨ c = .number) ∧ comment.Sublist [.comment]

/-- At most one marker, address, label and instruction, in this order, and then what may stand
behind an instruction. -/
def Staged (cs : List TokenClass) : Prop :=
  ∃ head operands, cs = head ++ operands ∧ head.Sublist (headStages ++ [.instruction]) ∧
    OperandStages operands

theorem operandStages_nil : OperandStages [] :=
  ⟨[], [], rfl, fun _ hc => absurd hc List.not_mem_nil, List.nil_sublist _⟩

theorem classes_tag (start stop : Nat) (c : TokenClass) (s : Style) :
    (classes (tag start stop c s)).Sublist [c] := by
  unfold tag
  split
  · exact List.Sublist.refl [c]
  · exact List.nil_sublist [c]

/-! ## Before the colon -/

theorem classes_marker (line : Text) : (classes (marker line).tokens).Sublist [.operator] := by
  unfold marker
  simp only
  split
  · exact List.Sublist.refl _
  · exact List.nil_sublist _

theorem classes_address (line : Text) : (classes (address line).tokens).Sublist [.address] := by
  unfold address
  simp only
  split
  · exact List.Sublist.refl _
  · exact List.nil_sublist _

theorem classes_name (line : Text) : (classes (name line).tokens).Sublist [.label] := by
  unfold name
  simp only
  split
  · exact List.nil_sublist _
  · split
    · exact classes_tag _ _ _ _
    · exact List.nil_sublist _

theorem classes_sequence {first second : Text → Lexeme} {cs ds : List TokenClass}
    (hfirst : ∀ line, (classes (first line).tokens).Sublist cs)
    (hsecond : ∀ line, (classes (second line).tokens).Sublist ds) (line : Text) :
    (classes (sequence first second line).tokens).Sublist (cs ++ ds) := by
  unfold sequence
  rw [classes_append, classes_tokensAt]
  exact (hfirst line).append (hsecond _)

theorem classes_head (line : Text) : (classes (head line).tokens).Sublist headStages :=
  classes_sequence classes_marker (classes_sequence classes_address classes_name) line

/-! ## Behind the colon -/

/-- An operand is a register, a number or nothing, unless it is the comment that takes the rest of
the line. -/
theorem classes_operand (b : UInt8) (rest : Text) :
    (classes (operand b rest).tokens = [.comment] ∧ (operand b rest).length = 1 + rest.length) ∨
      ∀ c ∈ classes (operand b rest).tokens, c = .register ∨ c = .number := by
  unfold operand
  simp only
  split_ifs
  · exact .inl ⟨rfl, rfl⟩
  all_goals
    right
    simp [classes, Lexeme.single, Lexeme.skip]

/-- Operand by operand; a comment is the last. -/
theorem classes_operands (pos : Nat) (text : Text) :
    OperandStages (classes (operands pos text)) := by
  fun_induction operands pos text with
  | case1 pos => exact operandStages_nil
  | case2 pos b rest l ih =>
    have hl : (classes l.tokens = [.comment] ∧ l.length = 1 + rest.length) ∨
        ∀ c ∈ classes l.tokens, c = .register ∨ c = .number := classes_operand b rest
    rw [classes_append, classes_tokensAt]
    rcases hl with ⟨hcomment, hlength⟩ | hoperand
    · have hnone : rest.drop (l.length - 1) = [] := List.drop_eq_nil_of_le (by omega)
      rw [hnone, operands]
      refine ⟨[], [.comment], ?_, fun c hc => absurd hc List.not_mem_nil, List.Sublist.refl _⟩
      rw [hcomment]
      rfl
    · obtain ⟨operands', comment, hrest, hoperands, hlast⟩ := ih
      refine ⟨classes l.tokens ++ operands', comment, ?_, fun c hc => ?_, hlast⟩
      · rw [hrest, List.append_assoc]
      · exact (List.mem_append.mp hc).elim (hoperand c) (hoperands c)

theorem classes_code (pos : Nat) (text : Text) :
    ∃ head operands, classes (code pos text) = head ++ operands ∧ head.Sublist [.instruction] ∧
      OperandStages operands := by
  unfold code
  simp only
  rw [classes_append]
  exact ⟨_, _, rfl, classes_tag _ _ _ _, classes_operands _ _⟩

/-! ## Lines -/

/-- The tokens of a line are those of its head and, behind a colon, those of its code. -/
theorem line_eq_or (text : Text) :
    Listing.line text = (head text).tokens ∨
      ':'.toUInt8 ∈ text ∧
        ∃ pos rest, Listing.line text = (head text).tokens ++ code pos rest := by
  unfold Listing.line
  simp only
  split
  · exact .inl (List.append_nil _)
  · next b rest hdrop =>
    have hget : (text.drop (head text).length)[countWhile (· != ':'.toUInt8)
        (text.drop (head text).length)]? = some b := by
      rw [← List.drop_drop] at hdrop
      exact getElem?_of_drop_cons hdrop
    have hcolon : b = ':'.toUInt8 := by simpa using countWhile_stops hget
    refine .inr ⟨?_, _, _, rfl⟩
    rw [← hcolon]
    exact List.mem_of_mem_drop (List.mem_of_getElem? hget)

theorem staged_line (text : Text) : Staged (classes (Listing.line text)) := by
  rcases line_eq_or text with heq | ⟨-, pos, rest, heq⟩
  · refine ⟨classes (head text).tokens, [], ?_, ?_, operandStages_nil⟩
    · rw [heq, List.append_nil]
    · exact (classes_head text).trans (List.sublist_append_left _ _)
  · obtain ⟨instruction, operands, hcode, hinstruction, hoperands⟩ := classes_code pos rest
    refine ⟨classes (head text).tokens ++ instruction, operands, ?_, ?_, hoperands⟩
    · rw [heq, classes_append, hcode, List.append_assoc]
    · exact (classes_head text).append hinstruction

theorem classes_line_of_no_colon (h : ':'.toUInt8 ∉ text) :
    (classes (Listing.line text)).Sublist headStages := by
  rcases line_eq_or text with heq | ⟨hmem, -⟩
  · rw [heq]
    exact classes_head text
  · exact absurd hmem h

theorem tokenClass_mem_classes {tokens : List Token} (ht : t ∈ tokens) :
    t.tokenClass ∈ classes tokens :=
  List.mem_map_of_mem ht

theorem mem_marker_of_mem_head (ht : t ∈ (head text).tokens) (hclass : t.tokenClass = .operator) :
    t ∈ (marker text).tokens := by
  have hbehind (line : Text) : (classes (sequence address name line).tokens).Sublist
      ([.address] ++ [.label]) := classes_sequence classes_address classes_name line
  unfold head sequence at ht
  rcases List.mem_append.mp ht with ht | ht
  · exact ht
  · have hmem := tokenClass_mem_classes ht
    rw [classes_tokensAt, hclass] at hmem
    exact absurd ((hbehind _).mem hmem) (by decide)

theorem tokenClass_of_mem_code {pos : Nat} (ht : t ∈ code pos rest) : t.tokenClass ≠ .operator := by
  intro hclass
  obtain ⟨instruction, operands, hcode, hinstruction, hoperands⟩ := classes_code pos rest
  obtain ⟨registers, comment, rfl, hregisters, hcomment⟩ := hoperands
  have hmem := tokenClass_mem_classes ht
  rw [hcode, hclass] at hmem
  rcases List.mem_append.mp hmem with hmem | hmem
  · exact absurd (hinstruction.mem hmem) (by decide)
  · rcases List.mem_append.mp hmem with hmem | hmem
    · exact absurd (hregisters _ hmem) (by decide)
    · exact absurd (hcomment.mem hmem) (by decide)

theorem bytes_of_operator (ht : t ∈ Listing.line text) (hclass : t.tokenClass = .operator) :
    t.bytes text = ascii "=>" := by
  have hmarker : t ∈ (marker text).tokens := by
    rcases line_eq_or text with heq | ⟨-, pos, rest, heq⟩
    · rw [heq] at ht
      exact mem_marker_of_mem_head ht hclass
    · rw [heq] at ht
      rcases List.mem_append.mp ht with ht | ht
      · exact mem_marker_of_mem_head ht hclass
      · exact absurd hclass (tokenClass_of_mem_code ht)
  unfold marker at hmarker
  simp only at hmarker
  split at hmarker
  · next hprefix =>
    obtain rfl := List.mem_singleton.mp hmarker
    have htaken := List.prefix_iff_eq_take.mp (List.isPrefixOf_iff_prefix.mp hprefix)
    exact (Text.between_add text _ 2).trans htaken.symm
  · exact absurd hmarker List.not_mem_nil

/-! ## Listings -/

/-- **The tokens of a listing go through the stages of its lines.** They are tidy, and each of them
lies within one line. A marker is spelled `=>`; on each line it comes first, at most once, then at
most one address, label and instruction each, then registers and numbers, then at most one comment.
A line without a colon has nothing behind its label. -/
theorem tokenize_staged (text : Text) :
    Tidy 0 text.length (tokenize text) ∧
      (∀ t ∈ tokenize text, Unbroken (t.bytes text) ∧
        (t.tokenClass = .operator → t.bytes text = ascii "=>")) ∧
      ∀ before line behind, text = before ++ (line ++ behind) → IsLine before line behind →
        let tokens := tokensFrom text before.length (before.length + line.length)
        Staged (classes tokens) ∧
          (':'.toUInt8 ∉ line → (classes tokens).Sublist [.operator, .address, .label]) := by
  refine ⟨tokenize_tidy text, fun t ht => ?_, ?_⟩
  · obtain ⟨before, line, behind, rfl, hline, hmem⟩ := exists_line_of_mem_tokenize ht
    obtain ⟨u, hu, rfl⟩ := List.mem_map.mp hmem
    rw [Token.bytes_shift ((line_tidy line).within u hu).2]
    constructor
    · intro b hb
      exact hline.unbroken b (List.mem_of_mem_drop (List.mem_of_mem_take hb))
    · exact bytes_of_operator hu
  · rintro before line behind rfl hline tokens
    have htokens : tokens = (Listing.line line).map (Token.shift before.length) :=
      tokensFrom_line hline
    rw [htokens, classes_shift]
    exact ⟨staged_line line, classes_line_of_no_colon⟩

/-- A line with every stage, between a line without a colon and one that ends the text. -/
theorem tokenize_staged_full :
    let before := ascii "=> <a> b\r\n"
    let line := ascii "=> 0x1 <f+4>: mov $2,%rsp,0x3 # :"
    let behind := ascii "\n0x2: ret"
    let text := before ++ (line ++ behind)
    let tokens := tokensFrom text before.length (before.length + line.length)
    IsLine before line behind ∧ Tidy 0 text.length (tokenize text) ∧ Staged (classes tokens) ∧
      classes tokens = [.operator, .address, .label, .instruction, .number, .register, .number,
        .comment] := by
  intro before line behind text tokens
  have hline : IsLine before line behind := ⟨.inr (by decide), by decide, by decide⟩
  have hstaged := tokenize_staged text
  exact ⟨hline, hstaged.1, (hstaged.2.2 before line behind rfl hline).1, by decide +kernel⟩

end Listing

end CodePane

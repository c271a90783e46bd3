import CodePane.Listing.Lexer
import CodePane.Proofs.Text.Search
import CodePane.Proofs.Tidy
import Mathlib.Tactic.SplitIfs

/-!
# The order of listing tokens

The lexer of listings goes through each line once: the pieces of its head one behind the other,
then the instruction, then the operands up to the end of the line. So the tokens of a listing come
out in order, without overlaps and inside the text.

1. `TidyPiece`, `tidyPiece_head`: what stands before the colon.
2. `operand_fits`, `operands_tidy`, `code_tidy`: what stands behind it.
3. `line_tidy`, `tokenize_tidy`: lines and listings.
-/

namespace CodePane.Listing

open Text

variable {line rest text : Text} {b : UInt8}

theorem tag_tidy {c : TokenClass} (hc : c ≠ .default) (s : Style) (start stop : Nat) :
    Tidy start stop (tag start stop c s) := by
  unfold tag
  split
  · next hlt => exact Tidy.ofSpan hc s hlt
  · exact Tidy.nil start stop

theorem hexLength_le (h : startsHex text = true) : hexLength text ≤ text.length := by
  have hdigits := countWhile_le_length Byte.isHexDigit (text.drop 2)
  have hmark : 2 ≤ text.length := by
    rcases Bool.or_eq_true_iff.mp h with h | h
    · exact (List.isPrefixOf_iff_prefix.mp h).length_le
    · exact (List.isPrefixOf_iff_prefix.mp h).length_le
  rw [List.length_drop] at hdigits
  unfold hexLength
  omega

/-! ## Before the colon -/

/-- A piece of a line, which may be empty, lies in it, and its tokens are tidy in the piece. -/
def TidyPiece (piece : Text → Lexeme) : Prop :=
  ∀ line, (piece line).length ≤ line.length ∧ Tidy 0 (piece line).length (piece line).tokens

theorem tidyPiece_sequence {first second : Text → Lexeme} (hfirst : TidyPiece first)
    (hsecond : TidyPiece second) : TidyPiece (sequence first second) := by
  intro line
  obtain ⟨hle, hhead⟩ := hfirst line
  obtain ⟨hbehind, htail⟩ := hsecond (line.drop (first line).length)
  rw [List.length_drop] at hbehind
  refine ⟨by simp only [sequence]; omega, ?_⟩
  exact hhead.append (htail.shift _) (Nat.zero_le _) (Nat.le_add_right _ _)

theorem tidyPiece_marker : TidyPiece marker := by
  intro line
  have hblanks := countWhile_le_length Byte.isSpaceOrTab line
  unfold marker
  simp only
  split_ifs with hmark
  · have hle := (List.isPrefixOf_iff_prefix.mp hmark).length_le
    rw [show (ascii "=>").length = 2 from by decide, List.length_drop] at hle
    exact ⟨by simp only; omega,
      Tidy.singleton (Nat.zero_le _) (Nat.le_refl _) Nat.two_pos TokenClass.noConfusion⟩
  · exact ⟨hblanks, Tidy.nil _ _⟩

theorem tidyPiece_address : TidyPiece address := by
  intro line
  have hblanks := countWhile_le_length Byte.isSpaceOrTab line
  unfold address
  simp only
  split_ifs with hhex
  · have hle := hexLength_le hhex
    have hpos : 0 < hexLength (line.drop (countWhile Byte.isSpaceOrTab line)) :=
      Nat.lt_of_lt_of_le Nat.two_pos (Nat.le_add_right 2 _)
    rw [List.length_drop] at hle
    exact ⟨by simp only; omega,
      Tidy.singleton (Nat.zero_le _) (Nat.le_refl _) hpos TokenClass.noConfusion⟩
  · exact ⟨hblanks, Tidy.nil _ _⟩

/-- The label ends where its name does or before, at the sign of an offset. -/
theorem tidyPiece_name : TidyPiece name := by
  intro line
  have hblanks := countWhile_le_length Byte.isSpaceOrTab line
  unfold name
  simp only
  generalize countWhile Byte.isSpaceOrTab line = blanks at hblanks ⊢
  split
  · exact ⟨hblanks, Tidy.nil _ _⟩
  · next b rest hdrop =>
    have hlength := length_of_drop hdrop
    split_ifs
    · have hlabel := countWhile_mono (p := fun b => b != '>'.toUInt8 && b != '+'.toUInt8)
        (q := (· != '>'.toUInt8)) (fun b hb => (Bool.and_eq_true_iff.mp hb).1) rest
      have hinside := countWhile_le_length (· != '>'.toUInt8) rest
      refine ⟨by simp only; omega, (tag_tidy (by decide) _ _ _).mono (Nat.zero_le _) ?_⟩
      simp only
      omega
    · exact ⟨hblanks, Tidy.nil _ _⟩

theorem tidyPiece_head : TidyPiece head :=
  tidyPiece_sequence tidyPiece_marker (tidyPiece_sequence tidyPiece_address tidyPiece_name)

/-! ## Behind the colon -/

theorem operand_fits (b : UInt8) (rest : Text) : (operand b rest).Fits (rest.length + 1) := by
  have hword := countWhile_le_length isRegisterByte rest
  have hdigits := countWhile_le_length Byte.isDigit rest
  unfold countWhile at hword
  unfold operand
  simp only
  split_ifs with _ _ _ _ hhex _ _ hhex
  · exact Lexeme.fits_single (by decide) (by omega) (by omega)
  · exact Lexeme.fits_single (by decide) (by omega) (by omega)
  · exact Lexeme.fits_skip (by omega) (by omega)
  · have := hexLength_le hhex
    exact Lexeme.fits_single (by decide) (by omega) (by omega)
  · exact Lexeme.fits_skip (by omega) (by omega)
  · exact Lexeme.fits_single (by decide) (by omega) (by omega)
  · exact Lexeme.fits_skip (by omega) (by omega)
  · exact Lexeme.fits_single (by decide) (Nat.lt_of_lt_of_le Nat.two_pos (Nat.le_add_right 2 _))
      (hexLength_le hhex)
  · exact Lexeme.fits_skip (by omega) (by omega)

/-- Operand by operand to the end of the line. -/
theorem operands_tidy (pos : Nat) (text : Text) :
    Tidy pos (pos + text.length) (operands pos text) := by
  fun_induction operands pos text with
  | case1 pos => exact Tidy.nil _ _
  | case2 pos b rest l ih =>
    have hl : l.Fits (rest.length + 1) := operand_fits b rest
    have hpos := hl.pos
    have hle := hl.le
    have hend : pos + l.length + (rest.drop (l.length - 1)).length = pos + (b :: rest).length := by
      rw [List.length_drop, List.length_cons]
      omega
    rw [hend] at ih
    refine (hl.tidy_tokensAt pos).append ih (by omega) ?_
    rw [List.length_cons]
    omega

theorem code_tidy (pos : Nat) (text : Text) : Tidy pos (pos + text.length) (code pos text) := by
  unfold code
  simp only
  have hblanks := countWhile_le_length Byte.isSpaceOrTab text
  generalize countWhile Byte.isSpaceOrTab text = start at hblanks ⊢
  have hmnemonic := countWhile_le_length (fun b => Byte.isLetter b || Byte.isDigit b)
    (text.drop start)
  generalize countWhile (fun b => Byte.isLetter b || Byte.isDigit b) (text.drop start) = mnemonic
    at hmnemonic ⊢
  rw [List.length_drop] at hmnemonic
  have hinstruction : Tidy (pos + start) (pos + (start + mnemonic))
      (tag (pos + start) (pos + (start + mnemonic)) .instruction .boldOnly) :=
    tag_tidy (by decide) _ _ _
  have hoperands := operands_tidy (pos + (start + mnemonic)) (text.drop (start + mnemonic))
  have hend : pos + (start + mnemonic) + (text.drop (start + mnemonic)).length =
      pos + text.length := by
    rw [List.length_drop]
    omega
  rw [hend] at hoperands
  exact (hinstruction.mono (Nat.le_add_right pos start) (Nat.le_refl _)).append hoperands
    (by omega) (by omega)

/-! ## Lines and listings -/

theorem breakLength_pos (text : Text) : 0 < breakLength text := by
  unfold breakLength
  split
  · exact Nat.two_pos
  · exact Nat.one_pos

theorem line_tidy (text : Text) : Tidy 0 text.length (Listing.line text) := by
  obtain ⟨hle, hhead⟩ := tidyPiece_head text
  unfold Listing.line
  simp only
  split
  · rw [List.append_nil]
    exact hhead.mono (Nat.le_refl 0) hle
  · next b rest hdrop =>
    have hlength := length_of_drop hdrop
    generalize countWhile (· != ':'.toUInt8) (text.drop (head text).length) = gap at hlength ⊢
    have hcode := code_tidy ((head text).length + gap + 1) rest
    exact hhead.append (hcode.mono (by omega) (by omega)) (Nat.zero_le _) hle

/-- Line by line. The last line may end without a break. -/
theorem scan_tidy (pos : Nat) (text : Text) : Tidy pos (pos + text.length) (scan pos text) := by
  fun_induction scan pos text with
  | case1 pos => exact Tidy.nil _ _
  | case2 pos b rest content length ih =>
    have hcontent : content.length ≤ (b :: rest).length := (List.takeWhile_prefix _).length_le
    have hline := (line_tidy content).shift pos
    have hlonger : content.length < length := Nat.lt_add_of_pos_right (breakLength_pos _)
    generalize length = length at hlonger ih ⊢
    rw [List.length_cons] at hcontent ⊢
    by_cases hbreak : length ≤ rest.length + 1
    · have hend : pos + length + (rest.drop (length - 1)).length = pos + (rest.length + 1) := by
        rw [List.length_drop]
        omega
      rw [hend] at ih
      exact (hline.mono (Nat.le_refl _) (by omega)).append ih (Nat.le_add_right _ _) (by omega)
    · have hnone : rest.drop (length - 1) = [] := List.drop_eq_nil_of_le (by omega)
      rw [hnone, scan, List.append_nil]
      exact hline.mono (Nat.le_refl _) (by omega)

theorem tokenize_tidy (text : Text) : Tidy 0 text.length (tokenize text) := by
  have hall := scan_tidy 0 text
  rwa [Nat.zero_add] at hall

end CodePane.Listing

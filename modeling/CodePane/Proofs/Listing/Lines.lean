import CodePane.Proofs.Listing.Order
import CodePane.Proofs.Source.LineBreak

/-!
# Listings line by line

The lexer of listings takes one line after the other and carries nothing over. So a listing has the
tokens of its lines, each where the line stands, and a listing that is cut behind a break has the
tokens of its two parts, also where the cut separates a carriage return from its line feed.

1. `Unbroken`, `induction_lines`: texts without a break, and texts line by line.
2. `scan_last`, `scan_line`: the tokens of a last line, and of a line and what follows it.
3. `scan_append`, `tokenize_joined`: two parts of a listing.
4. `IsLine`, `tokensFrom_line`, `exists_line_of_mem_tokenize`: the tokens of a line of a listing.
-/

namespace CodePane.Listing

open Text
open Source (EndsInBreak)

variable {content tail rest text before line behind A B : Text} {b : UInt8} {t : Token}

/-! ## Lines of a text -/

/-- No byte of the text ends a line. -/
def Unbroken (text : Text) : Prop := ∀ b ∈ text, Byte.endsLine b = false

instance (text : Text) : Decidable (Unbroken text) :=
  List.decidableBAll (fun b => Byte.endsLine b = false) text

theorem induction_lines {motive : Text → Prop}
    (last : ∀ content, Unbroken content → motive content)
    (line : ∀ content b rest, Unbroken content → Byte.endsLine b = true → motive rest →
      motive (content ++ b :: rest))
    (text : Text) : motive text := by
  induction hn : text.length using Nat.strongRecOn generalizing text with
  | ind n ih =>
    have hcontent : Unbroken (text.takeWhile fun b => !Byte.endsLine b) := by
      intro b hb
      simpa using List.mem_takeWhile_imp hb
    have hsplit := List.takeWhile_append_dropWhile (p := fun b => !Byte.endsLine b) (l := text)
    cases htail : text.dropWhile fun b => !Byte.endsLine b with
    | nil =>
      rw [htail, List.append_nil] at hsplit
      exact last text (hsplit ▸ hcontent)
    | cons b rest =>
      have hne : text.dropWhile (fun b => !Byte.endsLine b) ≠ [] := by
        rw [htail]
        exact List.cons_ne_nil b rest
      have hb : Byte.endsLine b = true := by
        simpa [htail] using List.head_dropWhile_not (fun b => !Byte.endsLine b) hne
      rw [htail] at hsplit
      have hlength := congrArg List.length hsplit
      rw [List.length_append, List.length_cons] at hlength
      rw [← hsplit]
      exact line _ b rest hcontent hb (ih rest.length (by omega) rest rfl)

theorem Unbroken.not_endsInBreak (h : Unbroken content) : ¬ EndsInBreak content := by
  intro hbreak
  obtain ⟨b, hmem, hb⟩ := hbreak.exists_mem
  rw [h b hmem] at hb
  cases hb

/-- What stands behind a line: nothing, or the break that ends it. -/
def EndsContent (tail : Text) : Prop := tail.head?.all Byte.endsLine = true

instance (tail : Text) : Decidable (EndsContent tail) :=
  inferInstanceAs (Decidable (_ = true))

theorem endsContent_cons (hb : Byte.endsLine b = true) (rest : Text) : EndsContent (b :: rest) := hb

theorem Unbroken.takeWhile_append (h : Unbroken content) (htail : EndsContent tail) :
    (content ++ tail).takeWhile (fun b => !Byte.endsLine b) = content := by
  rw [List.takeWhile_append_of_pos fun b hb => by rw [h b hb]; rfl]
  cases tail with
  | nil => exact List.append_nil content
  | cons b rest =>
    have hb : Byte.endsLine b = true := htail
    rw [List.takeWhile_cons_of_neg (by rw [hb]; decide), List.append_nil]

theorem endsInBreak_append_cons (hb : Byte.endsLine b = true) :
    EndsInBreak (content ++ b :: rest) ↔ rest = [] ∨ EndsInBreak rest := by
  unfold EndsInBreak
  rw [List.getLast?_append]
  cases rest with
  | nil => exact iff_of_true hb (.inl rfl)
  | cons c tail =>
    rw [List.getLast?_cons_cons, List.getLast?_cons, Option.some_or]
    exact ⟨.inr, fun h => h.resolve_left (List.cons_ne_nil c tail)⟩

/-! ## One line -/

theorem line_nil : Listing.line [] = [] := by decide

/-- The step of the lexer: the tokens of a line, then what follows its break. -/
theorem scan_step (hcontent : Unbroken content) (htail : EndsContent tail) (pos : Nat) :
    scan pos (content ++ tail) = (Listing.line content).map (Token.shift pos) ++
      scan (pos + content.length + breakLength tail) (tail.drop (breakLength tail)) := by
  have htaken := hcontent.takeWhile_append htail
  have hdrop : (content ++ tail).drop content.length = tail := List.drop_left
  cases hwhole : content ++ tail with
  | nil =>
    obtain ⟨rfl, rfl⟩ := List.append_eq_nil_iff.mp hwhole
    rw [List.drop_nil, scan, scan, line_nil]
    rfl
  | cons b rest =>
    have hpos : 0 < content.length + breakLength tail := Nat.add_pos_right _ (breakLength_pos tail)
    have hbehind := drop_behind (List.drop_zero : (b :: rest).drop 0 = b :: rest) hpos
    rw [hwhole] at htaken hdrop
    rw [Nat.zero_add, ← List.drop_drop, hdrop] at hbehind
    rw [scan, htaken, hdrop, hbehind, Nat.add_assoc]

theorem scan_skip (htail : EndsContent tail) (pos : Nat) :
    scan pos tail = scan (pos + breakLength tail) (tail.drop (breakLength tail)) := by
  have hnone : Unbroken [] := by decide
  have hstep := scan_step hnone htail pos
  rwa [line_nil] at hstep

/-- Content and what stands behind it, as if the content stood alone. -/
theorem scan_content (hcontent : Unbroken content) (htail : EndsContent tail) (pos : Nat) :
    scan pos (content ++ tail) =
      (Listing.line content).map (Token.shift pos) ++ scan (pos + content.length) tail := by
  rw [scan_step hcontent htail, ← scan_skip htail]

theorem scan_last (hcontent : Unbroken content) (pos : Nat) :
    scan pos content = (Listing.line content).map (Token.shift pos) := by
  have hnothing : EndsContent [] := rfl
  have hscan := scan_content hcontent hnothing pos
  rwa [List.append_nil, scan, List.append_nil] at hscan

/-- A break adds no tokens. A carriage return is taken together with its line feed, which comes to
the same as one after the other. -/
theorem scan_break (hb : Byte.endsLine b = true) (pos : Nat) (rest : Text) :
    scan pos (b :: rest) = scan (pos + 1) rest := by
  rw [scan_skip (endsContent_cons hb rest), breakLength]
  split
  · next hpair =>
    obtain ⟨tail, heq⟩ := List.isPrefixOf_iff_prefix.mp hpair
    obtain ⟨rfl, rfl⟩ := List.cons.inj heq
    exact (scan_skip (endsContent_cons (b := Byte.lineFeed) rfl tail) (pos + 1)).symm
  · rfl

/-- A line and its break, and then the rest as a text of its own. -/
theorem scan_line (hcontent : Unbroken content) (hb : Byte.endsLine b = true) (pos : Nat)
    (rest : Text) :
    scan pos (content ++ b :: rest) = (Listing.line content).map (Token.shift pos) ++
      scan (pos + content.length + 1) rest := by
  rw [scan_content hcontent (endsContent_cons hb rest), scan_break hb]

/-! ## Two parts of a listing -/

theorem map_shift_shift (n pos : Nat) (tokens : List Token) :
    (tokens.map (Token.shift pos)).map (Token.shift n) = tokens.map (Token.shift (n + pos)) := by
  rw [List.map_map]
  refine List.map_congr_left fun t _ => ?_
  simp only [Function.comp_apply, Token.shift, Nat.add_assoc]

theorem scan_shift (n pos : Nat) (text : Text) :
    scan (n + pos) text = (scan pos text).map (Token.shift n) := by
  induction text using induction_lines generalizing pos with
  | last content hcontent => rw [scan_last hcontent, scan_last hcontent, map_shift_shift]
  | line content b rest hcontent hb ih =>
    rw [scan_line hcontent hb, scan_line hcontent hb, List.map_append, map_shift_shift, ← ih,
      Nat.add_assoc n, Nat.add_assoc n]

theorem scan_append (h : A = [] ∨ EndsInBreak A) (pos : Nat) (B : Text) :
    scan pos (A ++ B) = scan pos A ++ scan (pos + A.length) B := by
  induction A using induction_lines generalizing pos with
  | last content hcontent =>
    obtain rfl := h.resolve_right hcontent.not_endsInBreak
    rw [scan_last hcontent]
    rfl
  | line content b rest hcontent hb ih =>
    have hbreak := h.resolve_left (List.append_ne_nil_of_right_ne_nil _ (List.cons_ne_nil b rest))
    have hend : pos + content.length + 1 + rest.length =
        pos + (content ++ b :: rest).length := by
      rw [List.length_append, List.length_cons]
      omega
    rw [List.append_assoc, List.cons_append, scan_line hcontent hb, scan_line hcontent hb,
      ih ((endsInBreak_append_cons hb).mp hbreak), hend, List.append_assoc]

/-- **Listings are read line by line.** A listing that begins behind a break has the tokens that it
has alone. -/
theorem tokenize_joined (h : A = [] ∨ EndsInBreak A) (B : Text) :
    tokenize (A ++ B) = tokenize A ++ (tokenize B).map (Token.shift A.length) := by
  have hshift := scan_shift A.length 0 B
  rw [Nat.add_zero] at hshift
  unfold tokenize
  rw [scan_append h, Nat.zero_add, hshift]

/-- The cut is between a carriage return and its line feed. -/
theorem tokenize_joined_feed :
    let A := ascii "0x1: nop\r"
    let B := ascii "\n0x2 <f>: ret # x"
    (A = [] ∨ EndsInBreak A) ∧
      tokenize (A ++ B) = tokenize A ++ (tokenize B).map (Token.shift A.length) ∧
      tokenize (A ++ B) = [⟨0, 3, .address, .plain⟩, ⟨5, 3, .instruction, .boldOnly⟩,
        ⟨10, 3, .address, .plain⟩, ⟨15, 1, .label, .plain⟩, ⟨19, 3, .instruction, .boldOnly⟩,
        ⟨23, 3, .comment, .italicOnly⟩] :=
  have hbreak : ascii "0x1: nop\r" = [] ∨ EndsInBreak (ascii "0x1: nop\r") := .inr (by decide)
  ⟨hbreak, tokenize_joined hbreak (ascii "\n0x2 <f>: ret # x"), by decide +kernel⟩

/-! ## The lines of a listing -/

/-- A text falls into what stands `before` a line, the `line`, and what stands `behind` it. The line
has no break and goes from a break or the start of the text to a break or its end. -/
structure IsLine (before line behind : Text) : Prop where
  opens : before = [] ∨ EndsInBreak before
  unbroken : Unbroken line
  closes : EndsContent behind

/-- The tokens of a listing that begin in `[start, stop)`. -/
def tokensFrom (text : Text) (start stop : Nat) : List Token :=
  (tokenize text).filter fun t => start ≤ t.start && t.start < stop

/-- **On a line stand the tokens that the line has alone.** -/
theorem tokensFrom_line (h : IsLine before line behind) :
    tokensFrom (before ++ (line ++ behind)) before.length (before.length + line.length) =
      (Listing.line line).map (Token.shift before.length) := by
  have hline := (line_tidy line).shift before.length
  have hfirst := scan_tidy 0 before
  have hlast := scan_tidy (before.length + line.length) behind
  rw [Nat.zero_add] at hfirst
  unfold tokensFrom tokenize
  rw [scan_append h.opens, Nat.zero_add, scan_content h.unbroken h.closes]
  exact hfirst.filter_middle hline hlast

theorem exists_line_of_mem_scan {pos : Nat} (ht : t ∈ scan pos text) :
    ∃ before line behind, text = before ++ (line ++ behind) ∧ IsLine before line behind ∧
      t ∈ (Listing.line line).map (Token.shift (pos + before.length)) := by
  induction text using induction_lines generalizing pos with
  | last content hcontent =>
    rw [scan_last hcontent] at ht
    exact ⟨[], content, [], (List.append_nil content).symm, ⟨.inl rfl, hcontent, rfl⟩, ht⟩
  | line content b rest hcontent hb ih =>
    rw [scan_line hcontent hb] at ht
    rcases List.mem_append.mp ht with ht | ht
    · exact ⟨[], content, b :: rest, rfl, ⟨.inl rfl, hcontent, hb⟩, ht⟩
    · obtain ⟨before, line, behind, rfl, hline, hmem⟩ := ih ht
      refine ⟨content ++ b :: before, line, behind, ?_, ⟨?_, hline.unbroken, hline.closes⟩, ?_⟩
      · rw [List.append_assoc, List.cons_append]
      · exact .inr ((endsInBreak_append_cons hb).mpr hline.opens)
      · rw [List.length_append, List.length_cons]
        rwa [Nat.add_assoc, Nat.add_assoc, Nat.add_comm 1] at hmem

theorem exists_line_of_mem_tokenize (ht : t ∈ tokenize text) :
    ∃ before line behind, text = before ++ (line ++ behind) ∧ IsLine before line behind ∧
      t ∈ (Listing.line line).map (Token.shift before.length) := by
  obtain ⟨before, line, behind, htext, hline, hmem⟩ := exists_line_of_mem_scan ht
  rw [Nat.zero_add] at hmem
  exact ⟨before, line, behind, htext, hline, hmem⟩

end CodePane.Listing

import CodePane.Proofs.Source.Extent

/-!
# The order of source tokens

The lexer works through a text lexeme by lexeme, and each lexeme fits where it stands
(`lexeme_fits`). So the tokens of a text come out in order, without overlaps and inside the text,
whatever bytes it holds.

1. `scan_tidy`: the tokens from some offset on.
2. `tokens_in_order`: all tokens.
-/

namespace CodePane.Source

open Text

/-- The tokens of a text that begins at offset `pos` lie in it in order. -/
theorem scan_tidy (freshLine : Bool) (pos : Nat) (text : Text) :
    Tidy pos (pos + text.length) (scan freshLine pos text) := by
  fun_induction scan freshLine pos text with
  | case1 _ pos => exact Tidy.nil _ _
  | case2 freshLine pos b rest l ih =>
    have hl : l.Fits (rest.length + 1) := lexeme_fits freshLine b rest
    have hpos := hl.pos
    have hle := hl.le
    -- what follows the lexeme begins where the lexeme ends
    have hend : pos + l.length + (rest.drop (l.length - 1)).length = pos + (b :: rest).length := by
      rw [List.length_drop, List.length_cons]
      omega
    rw [hend] at ih
    refine (hl.tidy_tokensAt pos).append ih (by omega) ?_
    rw [List.length_cons]
    omega

theorem tokenize_tidy (text : Text) : Tidy 0 text.length (tokenize text) := by
  have := scan_tidy true 0 text
  rwa [Nat.zero_add] at this

/-- **Order.** The tokens of any text are in strict order and do not overlap; none is empty or of
the default class, and all end inside the text. -/
theorem tokens_in_order (text : Text) :
    (tokenize text).Pairwise (fun a b => a.start < b.start ∧ a.stop ≤ b.start) ∧
      ∀ t ∈ tokenize text, 0 < t.length ∧ t.tokenClass ≠ .default ∧ t.stop ≤ text.length := by
  have htidy := tokenize_tidy text
  constructor
  · refine htidy.ordered.imp_of_mem fun {a b} ha _ hab => ⟨?_, hab⟩
    have hfilled := htidy.filled a ha
    unfold Token.stop at hab
    omega
  · intro t ht
    exact ⟨htidy.filled t ht, htidy.classed t ht, (htidy.within t ht).2⟩

end CodePane.Source

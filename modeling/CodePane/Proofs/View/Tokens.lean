import CodePane.Proofs.Coverage.Relay
import CodePane.Proofs.Listing.Order
import CodePane.Proofs.Source.Order
import CodePane.Proofs.View.Subject
import CodePane.Text.WidthTable

/-!
# The tokens of a view are a coverage of its text

Only a new text and tokens laid over the present ones change the tokens of a view. A new text gets
the tokens of its lexer as they are, and laying makes a coverage of the text of whatever is laid.
So in every state the tokens are in order, do not overlap and end inside the text.

1. `TextKind.ofLength_tokenize`: what the lexers give is a coverage of the text.
2. `View.CoversText.perform`, `View.Reachable.coversText`: one operation, and every view that can be
   reached.
3. `View.tokens_cover_text`: the tokens of a view from the moment that a text is loaded.
-/

namespace CodePane

open Coverage

/-! ## Tokens of the lexers -/

theorem Tidy.ofLength {last : Nat} {tokens : List Token} (h : Tidy 0 last tokens) :
    OfLength last tokens :=
  ⟨⟨h.ordered, h.filled⟩, fun t ht => (h.within t ht).2⟩

theorem TextKind.ofLength_tokenize (kind : TextKind) (text : Text) :
    OfLength text.length (kind.tokenize text) := by
  cases kind with
  | source => exact (Source.tokenize_tidy text).ofLength
  | listing => exact (Listing.tokenize_tidy text).ofLength
  | plain => exact OfLength.nil _

namespace View

/-! ## Runs -/

/-- The text of a view with its tokens. -/
def shown (v : View) : Text × List Token := (v.text, v.tokens)

/-- The tokens of a view are a coverage of its text. -/
def CoversText (v : View) : Prop := OfLength v.shown.1.length v.shown.2

theorem CoversText.congr {v w : View} (h : v.CoversText) (hsubject : w.subject = v.subject) :
    w.CoversText := by
  show w.subject.CoversText
  rw [hsubject]
  exact h

section

variable [CharWidths] {v : View}

theorem CoversText.perform (h : v.CoversText) (op : Operation) : (v.perform op).CoversText := by
  cases hop : op.changesSubject with
  | false => exact h.congr (v.subject_perform hop)
  | true =>
    cases op with
    | load text kind => exact OfLength.ofTokens _ _
    | recolor tokens => exact OfLength.ofTokens tokens _
    | highlight tokens => exact OfLength.lay h tokens
    | withCells _ | fitFont _ | showGutter _ | withTheme _ => exact h
    | _ => cases hop

theorem CoversText.run (h : v.CoversText) (ops : List Operation) : (v.run ops).CoversText := by
  induction ops generalizing v with
  | nil => exact h
  | cons op ops ih => exact ih (h.perform op)

/-- **The tokens of a view are always a coverage of its text.** -/
theorem Reachable.coversText (h : v.Reachable) : v.CoversText := by
  obtain ⟨s, ops, rfl⟩ := h
  have hstart : (ofSettings s).CoversText := OfLength.nil 0
  exact hstart.run ops

theorem Reachable.ordered (h : v.Reachable) : Ordered v.tokens := h.coversText.ordered

/-! ## From a new text on -/

/-- **Tokens are kept as they are, and stay in order inside the text.** A coverage of a text goes
into a view unchanged, and so a view has exactly the tokens of the lexer when a text is loaded.
Whatever operations follow, the tokens are in order, do not overlap, are not empty and end inside
the text that is shown. -/
theorem tokens_cover_text :
    (∀ tokens length, Ordered tokens → (∀ t ∈ tokens, t.stop ≤ length) →
        ofTokens tokens length = tokens) ∧
      ∀ (v : View) (text : Text) (kind : TextKind),
        (v.load text kind).tokens = kind.tokenize text ∧
          ∀ ops, let w := (v.load text kind).run ops
            Ordered w.tokens ∧ ∀ t ∈ w.tokens, t.stop ≤ w.text.length := by
  refine ⟨fun tokens length h hinside => OfLength.ofTokens_eq ⟨h, hinside⟩, ?_⟩
  intro v text kind
  refine ⟨(kind.ofLength_tokenize text).ofTokens_eq, ?_⟩
  intro ops
  have hloaded : (v.load text kind).CoversText := OfLength.ofTokens _ _
  have hcovers := hloaded.run ops
  exact ⟨hcovers.ordered, hcovers.inside⟩

end

/-- A listing, whose tokens go in as they are. Then tokens for it come after a shorter text has
taken its place. -/
theorem tokens_cover_text_replaced :
    let text := ascii "0x1 <m>:\tnop"
    let tokens := Listing.tokenize text
    let late : Token := ⟨4, 2 ^ 64 - 1, .string, .plain⟩
    let w := ((ofSettings {}).load text .listing).run [.load (ascii "int x") .source,
      .highlight [late]]
    Ordered tokens ∧ (∀ t ∈ tokens, t.stop ≤ text.length) ∧ ofTokens tokens text.length = tokens ∧
      ((ofSettings {}).load text .listing).tokens = tokens ∧
      tokens = [⟨0, 3, .address, .plain⟩, ⟨5, 1, .label, .plain⟩, ⟨9, 3, .instruction, .boldOnly⟩] ∧
      Ordered w.tokens ∧ (∀ t ∈ w.tokens, t.stop ≤ w.text.length) ∧
      w.tokens = [⟨0, 3, .keyword, .boldOnly⟩, ⟨4, 1, .string, .plain⟩] := by
  intro text tokens late w
  have hordered : Ordered tokens := ⟨by decide +kernel, by decide +kernel⟩
  have hinside : ∀ t ∈ tokens, t.stop ≤ text.length := by decide +kernel
  obtain ⟨hunchanged, hloaded⟩ := tokens_cover_text
  obtain ⟨hlexed, hlater⟩ := hloaded (ofSettings {}) text .listing
  obtain ⟨hstays, hends⟩ := hlater [.load (ascii "int x") .source, .highlight [late]]
  exact ⟨hordered, hinside, hunchanged tokens text.length hordered hinside, hlexed,
    by decide +kernel, hstays, hends, by decide +kernel⟩

end View

end CodePane

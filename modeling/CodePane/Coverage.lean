import CodePane.Halving
import CodePane.Token

/-!
# Coverages

The coverage of a text is a list of tokens in increasing order that do not overlap. Tokens laid
over it win: they replace what they cover and trim what they touch.

1. `clampTo`: the part of a token inside a text.
2. `layOne`, `laySorted`, `lay`: laying tokens over a coverage.
3. `endedBy`, `touching`: the tokens around an offset and those that meet a range.
4. `overwrite?`, `lay?`, `touching?`: the same by halving, with offsets in machine words, where a
   token whose end is too great for a word makes them fail.
5. `Ordered`: the shape that every coverage has.
-/

namespace CodePane.Coverage

/-- The part of a token inside a text of `length` bytes, if any is left. -/
def clampTo (length : Nat) (t : Token) : Option Token :=
  let start := min t.start length
  let stop := min t.stop length
  if start < stop then some { t with start := start, length := stop - start } else none

theorem clampTo_eq_some {length : Nat} {t u : Token} (h : clampTo length t = some u) :
    0 < u.length ∧ u.stop ≤ length := by
  unfold clampTo at h
  simp only at h
  split at h
  · next hlt =>
    obtain rfl := Option.some.inj h
    simp only [Token.stop] at hlt ⊢
    omega
  · simp at h

/-- The part of a token before offset `pos`. -/
def before (pos : Nat) (t : Token) : Option Token :=
  if t.start < pos then some { t with length := min t.stop pos - t.start } else none

/-- The part of a token from offset `pos` on. -/
def after (pos : Nat) (t : Token) : Option Token :=
  if pos < t.stop then some { t with start := max t.start pos, length := t.stop - max t.start pos }
  else none

/-- Lays one token over a coverage. -/
def layOne (t : Token) (tokens : List Token) : List Token :=
  let touched := tokens.takeWhile (·.start < t.stop)
  touched.filterMap (before t.start) ++
    t :: (touched.filterMap (after t.stop) ++ tokens.dropWhile (·.start < t.stop))

/-- Lays tokens over a coverage, one after the other. They come in increasing order of their starts,
so what ends before one of them is settled. -/
def laySorted (tokens : List Token) : (incoming : List Token) → List Token
  | [] => tokens
  | t :: incoming =>
    tokens.takeWhile (·.stop ≤ t.start) ++
      laySorted (layOne t (tokens.dropWhile (·.stop ≤ t.start))) incoming

/-- The tokens in increasing order of their starts; equal starts keep their order. -/
def sortByStart (tokens : List Token) : List Token :=
  tokens.mergeSort fun a b => a.start ≤ b.start

/-- Lays `incoming` over a coverage of a text of `length` bytes: clamped to the text, without the
empty ones, in increasing order of their starts. -/
def lay (tokens incoming : List Token) (length : Nat) : List Token :=
  laySorted tokens (sortByStart (incoming.filterMap (clampTo length)))

/-- The coverage of arbitrary tokens, later ones over earlier ones. -/
def ofTokens (tokens : List Token) (length : Nat) : List Token := lay [] tokens length

/-- How many tokens end at or before `pos`. -/
def endedBy (tokens : List Token) (pos : Nat) : Nat :=
  (tokens.takeWhile (·.stop ≤ pos)).length

/-- The tokens that meet `[start, stop)`. -/
def touching (tokens : List Token) (start stop : Nat) : List Token :=
  (tokens.dropWhile (·.stop ≤ start)).takeWhile (·.start < stop)

/-! ## In machine words -/

/-- How many tokens end at or before `pos`, found by halving. -/
def endedBy? (tokens : List Token) (pos : Nat) : Option Nat :=
  partitionPoint? (fun t => t.stop?.map (decide <| · ≤ pos)) tokens

/-- How many tokens begin before `pos`, found by halving. -/
def begunBy? (tokens : List Token) (pos : Nat) : Option Nat :=
  partitionPoint? (fun t => some (decide (t.start < pos))) tokens

/-- The tokens that meet `[start, stop)`, between the two places that halving finds. -/
def touching? (tokens : List Token) (start stop : Nat) : Option (List Token) := do
  let first ← endedBy? tokens start
  let last ← begunBy? tokens stop
  return (tokens.take (max last first)).drop first

/-- What the first token of the window `[first, last)` has in front of `pos`. -/
def leftRest? (tokens : List Token) (first last pos : Nat) : Option (List Token) :=
  if first < last then
    tokens[first]?.map fun t => if t.start < pos then [{ t with length := pos - t.start }] else []
  else some []

/-- What the last token of the window `[first, last)` has from `pos` on. -/
def rightRest? (tokens : List Token) (first last pos : Nat) : Option (List Token) :=
  if first < last then do
    let t ← tokens[last - 1]?
    let stop ← t.stop?
    return if pos < stop then [{ t with start := pos, length := stop - pos }] else []
  else some []

/-- The tokens with others in place of the window `[first, last)`. -/
def splice? (tokens : List Token) (first last : Nat) (others : List Token) :
    Option (List Token) :=
  if first ≤ last ∧ last ≤ tokens.length then
    some (tokens.take first ++ others ++ tokens.drop last)
  else none

/-- Lays one token over a coverage. It replaces the tokens that it meets, of which the first and the
last may stick out. -/
def overwrite? (tokens : List Token) (t : Token) : Option (List Token) := do
  let stop ← t.stop?
  let first ← endedBy? tokens t.start
  let last ← begunBy? tokens stop
  let left ← leftRest? tokens first last t.start
  let right ← rightRest? tokens first last stop
  splice? tokens first last (left ++ t :: right)

/-- Lays `incoming` over a coverage of a text of `length` bytes like `lay`, one token after the
other. -/
def lay? (tokens incoming : List Token) (length : Nat) : Option (List Token) :=
  (sortByStart (incoming.filterMap (clampTo length))).foldlM overwrite? tokens

/-! ## Shape -/

/-- The tokens are in order, do not overlap, and none is empty. -/
def Ordered (tokens : List Token) : Prop :=
  tokens.Pairwise (fun a b => a.stop ≤ b.start) ∧ ∀ t ∈ tokens, 0 < t.length

end CodePane.Coverage

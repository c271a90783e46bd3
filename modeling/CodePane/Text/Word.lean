import CodePane.Text.Codepoint

/-!
# Words of a text

A word is a run of ASCII letters, digits and underscores. Every other codepoint ends it; as word
bytes are codepoints of their own, words can be read byte by byte.
-/

namespace CodePane.Text

/-- The word that touches the codepoint of `pos`, as its start and its end. It is empty if neither
neighbour is a word byte. -/
def wordAround (text : Text) (pos : Nat) : Nat × Nat :=
  let pos := floorBoundary text pos
  (pos - countWhile Byte.isWord (text.take pos).reverse,
    pos + countWhile Byte.isWord (text.drop pos))

end CodePane.Text

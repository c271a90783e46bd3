import CodePane.Text.Codepoint

/-!
# Texts as characters

1. `lossy`: the characters of any text, for display. Every longest run of bytes that begins a
   well-formed sequence without completing it, and every byte that begins none, gives one
   replacement character.
2. `chars?`: the characters of a well-formed text.
-/

namespace CodePane.Text

/-- The character at the head of a text, where `lead` is followed by `rest`, and how many bytes
further the next one begins. -/
def lossyLead (lead : UInt8) (rest : Text) : Char × Nat :=
  match announced lead with
  | none => (replacement, 0)
  | some a =>
    let n := matched a.low a.high a.owed rest
    (if n = a.owed then Char.ofNat (scalar a.payload (rest.take n)) else replacement, n)

/-- The characters of a text, malformed parts replaced. -/
def lossyChars : Text → List Char
  | [] => []
  | lead :: rest =>
    let (c, n) := lossyLead lead rest
    c :: lossyChars (rest.drop n)
termination_by text => text.length

/-- The characters of a text, if all of it is well-formed. -/
def chars? : Text → Option (List Char)
  | [] => some []
  | lead :: rest =>
    match announced lead with
    | none => none
    | some a =>
      if matched a.low a.high a.owed rest = a.owed then
        (chars? (rest.drop a.owed)).map (Char.ofNat (scalar a.payload (rest.take a.owed)) :: ·)
      else none
termination_by text => text.length
decreasing_by
  simp only [List.length_drop, List.length_cons]
  omega

/-- The text as a string, malformed parts replaced. -/
def lossy (text : Text) : String := String.ofList (lossyChars text)

end CodePane.Text

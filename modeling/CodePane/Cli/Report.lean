import CodePane.Cli.Arguments
import CodePane.Json.Writer
import CodePane.Text.Escape
import CodePane.Text.WidthTable
import CodePane.View.Scrolling

/-!
# Reports

What the program writes about a text: its tokens, and the drawing of the visible part if that is
asked for. A report is lines of text or a JSON value.

1. `textReport`: the report as lines.
2. `jsonReport`: the report as a JSON value.
3. `report`: the report that a request asks for.
-/

namespace CodePane.Cli

/-! ## Lines -/

/-- A style in a line of text. -/
def styleWord (s : Style) : String :=
  match s with
  | ⟨false, false⟩ => "-"
  | ⟨true, false⟩ => "bold"
  | ⟨false, true⟩ => "italic"
  | ⟨true, true⟩ => "bold|italic"

/-- A part of a text in single quotes. -/
def quoted (text : Array UInt8) (start stop : Nat) : String :=
  "'" ++ String.ofList (Text.escaped (text.extract start stop).toList) ++ "'"

def tokenLine (text : Array UInt8) (t : Token) : String :=
  toString t.start ++ ".." ++ toString t.stop ++ " " ++ t.tokenClass.name ++ " " ++
    styleWord t.style ++ " " ++ quoted text t.start t.stop ++ "\n"

/-- A label at the right of six columns. -/
def alignRight (label : String) : String :=
  String.ofList (List.replicate (6 - label.length) ' ') ++ label

def pieceLine (text : Array UInt8) (p : PlacedPiece) : String :=
  "       x=" ++ toString p.x ++ " w=" ++ toString p.width ++ " " ++ p.piece.tokenClass.name ++
    " " ++ p.color.hexText ++ " " ++ quoted text p.piece.start p.piece.stop ++ "\n"

/-- The lines of a row: its label and its place, then its pieces. -/
def rowLines (text : Array UInt8) (r : DrawnRow) : List String :=
  let label := match r.label with
    | some n => toString n
    | none => ""
  let selection := match r.selection with
    | some s => " selection=" ++ toString s.x ++ "+" ++ toString s.width
    | none => ""
  (alignRight label ++ " y=" ++ toString r.y ++ selection ++ "\n") :: r.pieces.map (pieceLine text)

def drawingLines (v : View) (text : Array UInt8) (d : Drawing) : List String :=
  let caret := match d.caret with
    | some r => ["caret x=" ++ toString r.x ++ " y=" ++ toString r.y ++ " h=" ++ toString r.height
        ++ "\n"]
    | none => []
  ("--- paint (top line " ++ toString v.window.scroll.topLine ++ ") ---\n") ::
    (d.rows.flatMap (rowLines text) ++ caret)

def textReport (v : View) (drawing : Option Drawing) : String :=
  let text := v.text.toArray
  let lines := v.tokens.map (tokenLine text) ++
    match drawing with
    | some d => drawingLines v text d
    | none => []
  String.join lines

/-! ## JSON -/

def styleName (s : Style) : String :=
  match s with
  | ⟨false, false⟩ => ""
  | ⟨true, false⟩ => "BOLD"
  | ⟨false, true⟩ => "ITALIC"
  | ⟨true, true⟩ => "BOLD | ITALIC"

/-- The value of something that may be missing. -/
def optionJson (f : α → Json) : Option α → Json
  | some a => f a
  | none => .null

def tokenJson (t : Token) : Json :=
  .ofMembers
    [("start", .ofNat t.start), ("len", .ofNat t.length), ("class", .text t.tokenClass.name),
      ("style", .text (styleName t.style))]

def rectJson (r : Rect) : Json :=
  .ofMembers
    [("x", .ofInt r.x), ("y", .ofInt r.y), ("width", .ofInt r.width), ("height", .ofInt r.height)]

def colorJson (c : Color) : Json :=
  .ofMembers
    [("r", .ofNat c.red.toNat), ("g", .ofNat c.green.toNat), ("b", .ofNat c.blue.toNat)]

def pieceJson (p : PlacedPiece) : Json :=
  .ofMembers
    [("range", .ofMembers [("start", .ofNat p.piece.start), ("end", .ofNat p.piece.stop)]),
      ("x", .ofInt p.x), ("width", .ofInt p.width), ("class", .text p.piece.tokenClass.name),
      ("style", .text (styleName p.piece.style)), ("color", colorJson p.color)]

def rowJson (r : DrawnRow) : Json :=
  .ofMembers
    [("line", .ofNat r.line), ("y", .ofInt r.y),
      ("number_label", optionJson (fun n => .text (toString n)) r.label),
      ("gutter", optionJson rectJson r.gutter), ("selection", optionJson rectJson r.selection),
      ("runs", .array (r.pieces.map pieceJson))]

def drawingJson (d : Drawing) : Json :=
  .ofMembers [("lines", .array (d.rows.map rowJson)), ("caret", optionJson rectJson d.caret)]

def jsonReport (v : View) (drawing : Option Drawing) : Json :=
  .ofMembers
    (("tokens", .array (v.tokens.map tokenJson)) ::
      match drawing with
      | some d => [("paint", drawingJson d)]
      | none => [])

/-! ## Requests -/

/-- The view of a text that a request asks for. -/
def viewOf (r : Request) (s : Settings) (text : Text) : View :=
  let kind := r.kind.getD (TextKind.ofPath r.file)
  let v := ((View.ofSettings s).resize r.width r.height).load text kind
  match r.topLine with
  | some line => v.scrollToLine line
  | none => v

/-- The report about a text that a request asks for. -/
def report (r : Request) (s : Settings) (text : Text) : String :=
  let v := viewOf r s text
  let drawing := if r.paint then some v.drawAll else none
  match r.format with
  | .text => textReport v drawing
  | .json => (jsonReport v drawing).render ++ "\n"

end CodePane.Cli

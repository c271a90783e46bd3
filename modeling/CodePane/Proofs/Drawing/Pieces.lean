import CodePane.Proofs.Coverage.Owner
import CodePane.Proofs.Drawing
import CodePane.Proofs.View.Clip
import CodePane.Text.WidthTable
import Mathlib.Algebra.Ring.Int.Defs

/-!
# What is drawn of a line

A line is cut at the borders of the tokens: a token gives its part of the line, and what lies
between tokens gives gaps. The pieces are then placed from left to right, each behind all those
before it, whether or not these are inside the area that is drawn.

1. `Coverage.IsPiece`, `Coverage.Cut`: the pieces of a line, said of its tokens only.
2. `Coverage.cut_touching`: the line is cut into exactly these.
3. `Scene.sideBySide`, `Scene.filter_place`: placing them, without any bound and in the range of
   pixels.
4. `Scene.pieces_of_row`: the pieces of a row, and where their edges are.
-/

namespace CodePane

namespace Coverage

/-! ## Coverages that are built -/

/-- A coverage that was built by laying tokens. -/
inductive Built : List Token → Prop where
  | empty : Built []
  | lay {tokens : List Token} (h : Built tokens) (incoming : List Token) (length : Nat) :
      Built (lay tokens incoming length)

variable {tokens rest : List Token} {start stop pos : Nat} {p q : Piece}

theorem Built.ordered (h : Built tokens) : Ordered tokens := by
  induction h with
  | empty => exact ⟨.nil, fun t ht => absurd ht List.not_mem_nil⟩
  | lay _ incoming length ih => exact ordered_lay ih incoming length

/-! ## The pieces of a line -/

/-- An offset of the line `[start, stop)` that no token covers. -/
def Uncovered (tokens : List Token) (start stop pos : Nat) (_ : Unit) : Prop :=
  start ≤ pos ∧ pos < stop ∧ ∀ t ∈ tokens, ¬ t.Covers pos

/-- What the line `[start, stop)` is cut into: the part of a token that is on the line, if that is
not empty, and the longest runs of offsets that no token covers. -/
inductive IsPiece (tokens : List Token) (start stop : Nat) : Piece → Prop where
  | part {t : Token} (ht : t ∈ tokens) (hlt : max t.start start < min t.stop stop) :
      IsPiece tokens start stop ⟨max t.start start, min t.stop stop, t.tokenClass, t.style⟩
  | gap {a b : Nat} (hrun : IsRun (Uncovered tokens start stop) () a b) :
      IsPiece tokens start stop ⟨a, b, .default, .plain⟩

/-- A line is cut into pieces: all of them, in order. -/
structure Cut (tokens : List Token) (start stop : Nat) (ps : List Piece) : Prop where
  pairwise : ps.Pairwise fun p q => p.stop ≤ q.start
  mem_iff : ∀ p, p ∈ ps ↔ IsPiece tokens start stop p

theorem eq_of_covers (h : Ordered tokens) {t u : Token} (ht : t ∈ tokens) (hu : u ∈ tokens)
    (hcover : t.Covers pos) (hcover' : u.Covers pos) : t = u := by
  obtain ⟨i, hi⟩ := List.mem_iff_getElem?.mp ht
  obtain ⟨j, hj⟩ := List.mem_iff_getElem?.mp hu
  obtain rfl := place_unique h hi hj hcover hcover'
  exact Option.some.inj (hi.symm.trans hj)

namespace IsPiece

theorem bounds (h : IsPiece tokens start stop p) :
    start ≤ p.start ∧ p.start < p.stop ∧ p.stop ≤ stop := by
  cases h with
  | part _ hlt => exact ⟨Nat.le_max_right _ _, hlt, Nat.min_le_right _ _⟩
  | @gap a b hrun =>
    have hlt := hrun.lt
    have hfirst := (hrun.inside a (Nat.le_refl a) hlt).1
    have hlast := (hrun.inside (b - 1) (by omega) (by omega)).2.1
    exact ⟨hfirst, hlt, by show b ≤ stop; omega⟩

theorem unique (horder : Ordered tokens) (h : IsPiece tokens start stop p)
    (h' : IsPiece tokens start stop q) (hp : p.start ≤ pos ∧ pos < p.stop)
    (hq : q.start ≤ pos ∧ pos < q.stop) : p = q := by
  have hcovers {t : Token} (hin : max t.start start ≤ pos ∧ pos < min t.stop stop) :
      t.Covers pos := ⟨by omega, by omega⟩
  cases h with
  | part ht hlt =>
    cases h' with
    | part hu hlt' => rw [eq_of_covers horder ht hu (hcovers hp) (hcovers hq)]
    | gap hrun => exact absurd (hcovers hp) ((hrun.inside pos hq.1 hq.2).2.2 _ ht)
  | gap hrun =>
    cases h' with
    | part hu hlt => exact absurd (hcovers hq) ((hrun.inside pos hp.1 hp.2).2.2 _ hu)
    | gap hrun' =>
      obtain ⟨rfl, rfl⟩ := hrun.unique hrun' hp hq
      rfl

end IsPiece

/-! ## Cutting -/

/-- Where a line is cut up to `pos`, the tokens `rest` are still to come: they are in order, all of
them meet what is left of the line, and nothing else covers it. What was cut last does not go on. -/
structure Remains (tokens : List Token) (start stop pos : Nat) (rest : List Token) : Prop where
  ordered : rest.Pairwise fun a b => a.stop ≤ b.start
  mem : ∀ t ∈ rest, t ∈ tokens
  meets : ∀ t ∈ rest, pos ≤ max t.start start ∧ start < t.stop ∧ t.start < stop
  covers : ∀ t ∈ tokens, ∀ q, pos ≤ q → q < stop → t.Covers q → t ∈ rest
  left : ∀ q, q + 1 = pos → ¬ Uncovered tokens start stop q ()

namespace Remains

variable {t : Token}

theorem isRun_gap (h : Remains tokens start stop pos (t :: rest)) (ht : 0 < t.length)
    (hpos : start ≤ pos) (hlt : pos < max t.start start) :
    IsRun (Uncovered tokens start stop) () pos (max t.start start) := by
  obtain ⟨hfollow, -⟩ := List.pairwise_cons.mp h.ordered
  obtain ⟨-, -, hbegin⟩ := h.meets t List.mem_cons_self
  have hstop : t.stop = t.start + t.length := rfl
  have hmax : max t.start start = t.start := by omega
  rw [hmax] at hlt ⊢
  refine ⟨hlt, fun q hfirst hlast => ⟨by omega, by omega, fun u hu hcover => ?_⟩, h.left,
    fun hfree => hfree.2.2 t (h.mem t List.mem_cons_self) ⟨Nat.le_refl _, by omega⟩⟩
  -- what would cover `q` is still to come, so it is `t` or behind it
  have hcome := h.covers u hu q hfirst (by omega) hcover
  rcases List.mem_cons.mp hcome with rfl | hcome
  · have := hcover.1
    omega
  · have := hfollow u hcome
    have := hcover.1
    omega

theorem isRun_last (h : Remains tokens start stop pos []) (hpos : start ≤ pos)
    (hlt : pos < stop) : IsRun (Uncovered tokens start stop) () pos stop := by
  refine ⟨hlt, fun q hfirst hlast => ⟨by omega, hlast, fun u hu hcover => ?_⟩, h.left,
    fun hfree => Nat.lt_irrefl stop hfree.2.1⟩
  exact absurd (h.covers u hu q hfirst hlast hcover) List.not_mem_nil

theorem next (h : Remains tokens start stop pos (t :: rest)) (ht : 0 < t.length)
    (hline : start ≤ stop) : Remains tokens start stop (min t.stop stop) rest := by
  obtain ⟨hfollow, hordered⟩ := List.pairwise_cons.mp h.ordered
  obtain ⟨hpos, hreach, hbegin⟩ := h.meets t List.mem_cons_self
  have hstop : t.stop = t.start + t.length := rfl
  have hline' : start ≤ min t.stop stop := Nat.le_min.mpr ⟨Nat.le_of_lt hreach, hline⟩
  refine ⟨hordered, fun u hu => h.mem u (List.mem_cons_of_mem t hu), fun u hu => ?_,
    fun u hu q hfirst hlast hcover => ?_, fun q hq hfree => ?_⟩
  · have := hfollow u hu
    have := h.meets u (List.mem_cons_of_mem t hu)
    omega
  · have hcome := h.covers u hu q (by omega) hlast hcover
    refine (List.mem_cons.mp hcome).resolve_left ?_
    rintro rfl
    have := hcover.2
    omega
  · exact hfree.2.2 t (h.mem t List.mem_cons_self) ⟨by omega, by omega⟩

/-- What is left of a line is cut into its pieces. The induction is on the tokens to come. -/
theorem isPiece (h : Remains tokens start stop pos rest) (hfilled : ∀ t ∈ tokens, 0 < t.length)
    (hline : start ≤ stop) (hpos : start ≤ pos) :
    ∀ p ∈ pieces start stop pos rest, IsPiece tokens start stop p := by
  induction rest generalizing pos with
  | nil =>
    intro p hp
    obtain ⟨hlt, rfl⟩ := mem_piece_iff.mp hp
    exact .gap (h.isRun_last hpos hlt)
  | cons t rest ih =>
    have htokens : t ∈ tokens := h.mem t List.mem_cons_self
    have ht : 0 < t.length := hfilled t htokens
    obtain ⟨-, hreach, -⟩ := h.meets t List.mem_cons_self
    intro p hp
    rw [pieces, List.mem_append, List.mem_append] at hp
    rcases hp with (hgap | hpart) | hrest
    · obtain ⟨hlt, rfl⟩ := mem_piece_iff.mp hgap
      exact .gap (h.isRun_gap ht hpos hlt)
    · obtain ⟨hlt, rfl⟩ := mem_piece_iff.mp hpart
      exact .part htokens hlt
    · exact ih (h.next ht hline) (by omega) p hrest

end Remains

/-- **A line is cut into the parts of the tokens and the gaps between them**, each once and in
order. -/
theorem cut_touching (h : Ordered tokens) (hline : start ≤ stop) :
    Cut tokens start stop (pieces start stop start (touching tokens start stop)) := by
  have hremains : Remains tokens start stop start (touching tokens start stop) := by
    refine ⟨pairwise_touching h, fun t ht => ((mem_touching_iff h).mp ht).1, fun t ht => ?_,
      fun t ht q hfirst hlast hcover => ?_, fun q hq hfree => ?_⟩
    · exact ⟨Nat.le_max_right _ _, ((mem_touching_iff h).mp ht).2⟩
    · have := hcover.1
      have := hcover.2
      exact (mem_touching_iff h).mpr ⟨ht, by omega, by omega⟩
    · have := hfree.1
      omega
  have htiles := tiles_touching h hline
  have hpieces := hremains.isPiece h.2 hline (Nat.le_refl start)
  refine ⟨htiles.pairwise, fun p => ⟨hpieces p, fun hp => ?_⟩⟩
  -- the piece that has the first offset of `p` is `p`
  obtain ⟨hfirst, hlt, hlast⟩ := hp.bounds
  obtain ⟨q, hq, hbounds⟩ := htiles.exists_mem hfirst (by omega)
  have heq : p = q := hp.unique h (hpieces q hq) ⟨Nat.le_refl p.start, hlt⟩ hbounds
  exact heq ▸ hq

end Coverage

namespace Pixel

theorem clamp_clamp_add {v w : Int} (hv : least ≤ v) (hw : 0 ≤ w) :
    clamp (clamp v + w) = clamp (v + w) := by
  unfold clamp
  omega

end Pixel

namespace Scene

/-- A piece that begins in the range of pixels is tested alike with and without the bound. -/
theorem meets_eq_reaches {clip : Rect} {p : PlacedPiece} (hleft : clip.x < Pixel.greatest)
    (hx : Pixel.least ≤ p.x) (hwidth : 0 ≤ p.width) : meets clip p = p.reaches clip := by
  have hreach : clip.x < Pixel.clamp (p.x + p.width) ↔ clip.x < p.x + p.width := by
    unfold Pixel.clamp
    omega
  rw [Bool.eq_iff_iff, meets_iff, PlacedPiece.reaches_iff, hreach]

section

variable [CharWidths] {s : Scene} {clip : Rect} {row : DrawnRow} {pp : PlacedPiece}
  {ps : List Piece} {line a last pos : Nat} {x : Int}

/-! ## Side by side -/

def pieceWidth (s : Scene) (p : Piece) : Int :=
  s.grid.widthOf (Text.columns s.text p.start p.stop)

/-- Pieces from pixel column `x` on, without any bound: each stands behind all those before it. -/
def sideBySide (s : Scene) (x : Int) (ps : List Piece) : List PlacedPiece :=
  ps.mapIdx fun i p => {
    piece := p
    x := x + ((ps.take i).map s.pieceWidth).sum
    width := s.pieceWidth p
    color := s.theme.color p.tokenClass }

theorem sideBySide_cons (s : Scene) (x : Int) (p : Piece) (ps : List Piece) :
    s.sideBySide x (p :: ps) =
      ⟨p, x, s.pieceWidth p, s.theme.color p.tokenClass⟩ ::
        s.sideBySide (x + s.pieceWidth p) ps := by
  unfold sideBySide
  rw [List.mapIdx_cons]
  simp only [List.take_zero, List.map_nil, List.sum_nil, Int.add_zero, List.take_succ_cons,
    List.map_cons, List.sum_cons, Int.add_assoc]

/-- **The bound does not show.** Where the area lies in the range of pixels, the pieces in it are
the same whether or not places stay in the range, since what would leave it is right of the area.
The induction is on the pieces; `x` is where the next one would stand. -/
theorem filter_place (hleft : clip.x < Pixel.greatest) (hright : clip.right ≤ Pixel.greatest)
    (hx : Pixel.least ≤ x) (htiles : Tiles a last ps) (hpos : pos ≤ a) :
    (s.place (Pixel.clamp x) pos (s.text.drop pos) ps).filter (meets clip) =
      (s.sideBySide x ps).filter (PlacedPiece.reaches clip) := by
  induction ps generalizing x pos a with
  | nil => rfl
  | cons p ps ih =>
    obtain ⟨rfl, hlt, hrest⟩ := htiles
    have hwidth : 0 ≤ s.pieceWidth p := s.grid.widthOf_nonneg _
    have hbytes : (s.text.drop pos).drop (p.start - pos) = s.text.drop p.start := by
      rw [List.drop_drop, Nat.add_sub_cancel' hpos]
    have htail : (s.place (Pixel.clamp (Pixel.clamp x + s.pieceWidth p)) p.start
        (s.text.drop p.start) ps).filter (meets clip) =
          (s.sideBySide (x + s.pieceWidth p) ps).filter (PlacedPiece.reaches clip) := by
      rw [Pixel.clamp_clamp_add hx hwidth]
      exact ih (by omega) hrest (Nat.le_of_lt hlt)
    have hplace : s.place (Pixel.clamp x) pos (s.text.drop pos) (p :: ps) =
        ⟨p, Pixel.clamp x, s.pieceWidth p, s.theme.color p.tokenClass⟩ ::
          s.place (Pixel.clamp (Pixel.clamp x + s.pieceWidth p)) p.start
            (s.text.drop p.start) ps := by
      rw [place, hbytes]
      rfl
    rw [hplace, sideBySide_cons, List.filter_cons, List.filter_cons, htail]
    by_cases hin : x ≤ Pixel.greatest
    · rw [Pixel.clamp_eq hx hin, meets_eq_reaches hleft hx hwidth]
    -- beyond the range, hence right of the area
    · have hend : Pixel.clamp x = Pixel.greatest := by
        unfold Pixel.clamp Pixel.least Pixel.greatest at *
        omega
      have hout : ¬ Pixel.clamp x < clip.right := by omega
      have hout' : ¬ x < clip.right := by omega
      rw [if_neg fun h => hout (meets_iff.mp h).2,
        if_neg fun h => hout' (PlacedPiece.reaches_iff.mp h).2]

/-! ## The pieces of a row -/

theorem clip_lt_of_mem_rows (hwidth : s.width ≤ Pixel.greatest) (hrow : row ∈ (s.draw clip).rows) :
    clip.x < Pixel.greatest := by
  obtain ⟨line, -, hdrawn⟩ := List.mem_filterMap.mp hrow
  unfold row? at hdrawn
  simp only at hdrawn
  split at hdrawn
  · next hmeets => exact Rect.left_lt_of_overlaps hwidth hmeets
  · cases hdrawn

/-- Where an offset of a line stands in the content, without any bound. -/
def edge (s : Scene) (line pos : Nat) : Int :=
  s.grid.gutterPixels (Text.numLines s.text) +
    Text.columns s.text (Text.startOfLine s.text line) pos * s.grid.columnPixels

theorem edge_startOfLine (s : Scene) (line : Nat) :
    s.edge line (Text.startOfLine s.text line) = s.grid.gutterPixels (Text.numLines s.text) := by
  unfold edge
  rw [Text.columns_of_le s.text (Nat.le_refl _), Int.natCast_zero, Int.zero_mul, Int.add_zero]

theorem edge_mono (s : Scene) {line a b : Nat} (ha : Text.Boundary s.text a)
    (hfirst : Text.startOfLine s.text line ≤ a) (hle : a ≤ b) : s.edge line a ≤ s.edge line b := by
  have hcells : (Text.columns s.text (Text.startOfLine s.text line) a : Int) ≤
      Text.columns s.text (Text.startOfLine s.text line) b :=
    Int.ofNat_le.mpr (Text.columns_mono (Text.boundary_startOfLine s.text line) ha hfirst hle)
  exact Int.add_le_add_left
    (Int.mul_le_mul_of_nonneg_right hcells s.grid.columnPixels_nonneg) _

/-- An offset of a line stands at its cells in the window, if nothing leaves the range. -/
theorem pixelOf_x_eq (hpos : Text.Boundary s.text pos) (hline : line < Text.numLines s.text)
    (hfirst : Text.startOfLine s.text line ≤ pos) (hlast : pos ≤ Text.endOfLine s.text line)
    (hcontent : s.edge line pos ≤ Pixel.greatest)
    (hlow : Pixel.least ≤ s.edge line pos - s.scroll.left)
    (hhigh : s.edge line pos - s.scroll.left ≤ Pixel.greatest) :
    (s.pixelOf pos).x = s.edge line pos - s.scroll.left := by
  have hcolumn : Grid.columnOf s.text pos =
      Text.columns s.text (Text.startOfLine s.text line) pos := by
    unfold Grid.columnOf
    rw [(Text.lineNumber_eq_iff hline hpos.le_length).mpr ⟨hfirst, hlast⟩]
  have hgutter := s.grid.gutterPixels_nonneg (Text.numLines s.text)
  have hcells : 0 ≤ (Text.columns s.text (Text.startOfLine s.text line) pos : Int) *
      s.grid.columnPixels := Int.mul_nonneg (by omega) s.grid.columnPixels_nonneg
  have hpixel : (s.grid.pixelOf s.text pos).x = s.edge line pos := by
    unfold edge at hcontent ⊢
    rw [s.grid.pixelOf_eq hpos, hcolumn, Grid.widthOf_eq (by omega)]
    exact Pixel.clamp_eq (by unfold Pixel.least; omega) hcontent
  show Pixel.clamp ((s.grid.pixelOf s.text pos).x - s.scroll.left) = _
  rw [hpixel]
  exact Pixel.clamp_eq hlow hhigh

/-- **Adding up widths is measuring from the line's start.** A piece of a line whose tokens begin
and end at boundaries has its edges where its ends stand, if these places are in the range. -/
theorem edges_eq_pixelOf (horder : Coverage.Ordered s.tokens)
    (htokens : ∀ t ∈ s.tokens, Text.Boundary s.text t.start ∧ Text.Boundary s.text t.stop)
    (hline : line < Text.numLines s.text)
    (hpp : pp ∈ s.placedPieces (Text.startOfLine s.text line) (Text.endOfLine s.text line) clip)
    (hlow : Pixel.least ≤ s.edge line (Text.startOfLine s.text line) - s.scroll.left)
    (hcontent : s.edge line pp.piece.stop ≤ Pixel.greatest)
    (hhigh : s.edge line pp.piece.stop - s.scroll.left ≤ Pixel.greatest) :
    pp.x = (s.pixelOf pp.piece.start).x ∧ pp.x + pp.width = (s.pixelOf pp.piece.stop).x := by
  have hfirst := Text.boundary_startOfLine s.text line
  have hmem := piece_mem_of_mem_placedPieces hpp
  have htiles := Coverage.tiles_touching horder (Text.startOfLine_le_endOfLine s.text line)
  have hbegin := htiles.first_le_start _ hmem
  obtain ⟨hlt, hlast⟩ := htiles.start_lt_stop _ hmem
  obtain ⟨hstart, hstop⟩ := Coverage.borders_touching horder hfirst
    (Text.boundary_endOfLine s.text line) htokens _ hmem
  have hbefore := s.edge_mono hfirst (Nat.le_refl _) hbegin
  have hown := s.edge_mono hstart hbegin (Nat.le_of_lt hlt)
  rw [pixelOf_x_eq hstart hline hbegin (by omega) (by omega) (by omega) (by omega),
    pixelOf_x_eq hstop hline (by omega) hlast hcontent (by omega) hhigh]
  have hgutter := s.grid.gutterPixels_nonneg (Text.numLines s.text)
  rw [edge_startOfLine] at hlow
  unfold edge at hcontent hhigh ⊢
  have hedges := edges_of_mem_placedPieces horder htokens hline hpp hlow (by omega) (by omega)
  omega

/-- **What is drawn of a line.** The line is cut into the parts of the tokens and the gaps between
them. Placed side by side from where the line starts, those that reach into the area are drawn, each
in the colour of its class. And where tokens begin and end at boundaries, a piece has its edges
where its ends stand, if no place up to its right edge leaves the range of pixels. -/
theorem pieces_of_row (hbuilt : Coverage.Built s.tokens) (hwidth : s.width ≤ Pixel.greatest)
    (hclip : clip.right ≤ Pixel.greatest) (hrow : row ∈ (s.draw clip).rows) :
    let start := Text.startOfLine s.text row.line
    let stop := Text.endOfLine s.text row.line
    (∃ ps, Coverage.Cut s.tokens start stop ps ∧
        row.pieces =
          (s.sideBySide (s.pixelOf start).x ps).filter (PlacedPiece.reaches clip)) ∧
      ((∀ t ∈ s.tokens, Text.Boundary s.text t.start ∧ Text.Boundary s.text t.stop) →
        Pixel.least ≤ s.edge row.line start - s.scroll.left →
        ∀ pp ∈ row.pieces, s.edge row.line pp.piece.stop ≤ Pixel.greatest →
          s.edge row.line pp.piece.stop - s.scroll.left ≤ Pixel.greatest →
          pp.x = (s.pixelOf pp.piece.start).x ∧ pp.x + pp.width = (s.pixelOf pp.piece.stop).x) := by
  intro start stop
  have hleft : clip.x < Pixel.greatest := clip_lt_of_mem_rows hwidth hrow
  obtain ⟨line, hshown, hdrawn⟩ := List.mem_filterMap.mp hrow
  obtain ⟨-, hline⟩ := mem_shownLines hshown
  obtain ⟨rfl, -, hpieces⟩ := row?_eq_some hdrawn
  have horder : Coverage.Ordered s.tokens := hbuilt.ordered
  have hends : start ≤ stop := Text.startOfLine_le_endOfLine s.text row.line
  refine ⟨⟨_, Coverage.cut_touching horder hends, ?_⟩, fun htokens hlow pp hpp => ?_⟩
  · have hlow : Pixel.least ≤ (s.pixelOf start).x := Pixel.least_le_clamp _
    have hhigh : (s.pixelOf start).x ≤ Pixel.greatest := Pixel.clamp_le_greatest _
    have hplaced := filter_place (s := s) hleft hclip hlow
      (Coverage.tiles_touching horder hends) (Nat.le_refl start)
    rw [Pixel.clamp_eq hlow hhigh] at hplaced
    exact hpieces.trans hplaced
  · rw [hpieces] at hpp
    exact edges_eq_pixelOf horder htokens hline hpp hlow

end

/-- The second of three lines, scrolled sideways. Its first token began on the line before and shows
a wide character with a combining mark, the next one touches it, and the last one goes on in the
line below. The area has a part of the second piece and all of the gap behind it. -/
theorem pieces_of_row_wide :
    let s : Scene := {
      text := [0x61, 0x0A, 0xE4, 0xB8, 0xAD, 0xCC, 0x81, 0x62, 0x63, 0x64, 0x65, 0x0A, 0x78]
      tokens := [⟨0, 7, .keyword, .boldOnly⟩, ⟨7, 1, .string, .plain⟩, ⟨10, 3, .comment, .plain⟩]
      grid := ⟨.ofSize 8 16, ({} : Settings).gutter⟩
      theme := .ofOverrides ({} : Settings).colors
      scroll := ⟨1, 12⟩
      width := 80
      height := 16
      selection := none
      caret := 0 }
    let clip : Rect := ⟨40, 0, 20, 16⟩
    ∃ row ∈ (s.draw clip).rows, row.line = 1 ∧
      row.pieces = [⟨⟨7, 8, .string, .plain⟩, 36, 8, ⟨191, 3, 3⟩⟩,
        ⟨⟨8, 10, .default, .plain⟩, 44, 16, ⟨31, 28, 27⟩⟩] ∧
      (∃ ps, Coverage.Cut s.tokens 2 11 ps ∧
        row.pieces = (s.sideBySide 20 ps).filter (PlacedPiece.reaches clip)) ∧
      ∀ pp ∈ row.pieces,
        pp.x = (s.pixelOf pp.piece.start).x ∧ pp.x + pp.width = (s.pixelOf pp.piece.stop).x := by
  intro s clip
  have hbuilt : Coverage.Built s.tokens := by
    have hlay : Coverage.lay (Coverage.lay [] [⟨0, 8, .keyword, .boldOnly⟩,
        ⟨10, 9, .comment, .plain⟩] 13) [⟨7, 1, .string, .plain⟩] 13 = s.tokens := by cbv
    exact hlay ▸ .lay (.lay .empty _ _) _ _
  have hboundary : ∀ t ∈ s.tokens, Text.Boundary s.text t.start ∧ Text.Boundary s.text t.stop := by
    have hfloor : ∀ pos ∈ [0, 7, 8, 10, 13], Text.floorBoundary s.text pos = pos := by decide
    have hborder : ∀ pos ∈ [0, 7, 8, 10, 13], Text.Boundary s.text pos := fun pos hpos =>
      hfloor pos hpos ▸ Text.boundary_floorBoundary s.text pos
    have hborders : ∀ t ∈ s.tokens, t.start ∈ [0, 7, 8, 10, 13] ∧ t.stop ∈ [0, 7, 8, 10, 13] := by
      decide
    exact fun t ht => ⟨hborder _ (hborders t ht).1, hborder _ (hborders t ht).2⟩
  have hrows : ∃ row ∈ (s.draw clip).rows, row.line = 1 ∧
      row.pieces = [⟨⟨7, 8, .string, .plain⟩, 36, 8, ⟨191, 3, 3⟩⟩,
        ⟨⟨8, 10, .default, .plain⟩, 44, 16, ⟨31, 28, 27⟩⟩] := by
    decide +kernel
  obtain ⟨row, hrow, hline, hpieces⟩ := hrows
  obtain ⟨hcut, hedges⟩ := pieces_of_row hbuilt (by decide) (by decide) hrow
  have hstart : Text.startOfLine s.text 1 = 2 := by decide +kernel
  have hend : Text.endOfLine s.text 1 = 11 := by decide +kernel
  have hfirst : (s.pixelOf 2).x = 20 := by decide +kernel
  rw [hline, hstart, hend, hfirst] at hcut
  rw [hline, hstart] at hedges
  have hlow : Pixel.least ≤ s.edge 1 2 - s.scroll.left := by decide +kernel
  have hstop : ∀ pp ∈ row.pieces, s.edge 1 pp.piece.stop ≤ Pixel.greatest ∧
      s.edge 1 pp.piece.stop - s.scroll.left ≤ Pixel.greatest := by
    rw [hpieces]
    decide +kernel
  exact ⟨row, hrow, hline, hpieces, hcut, fun pp hpp =>
    hedges hboundary hlow pp hpp (hstop pp hpp).1 (hstop pp hpp).2⟩

end Scene

end CodePane

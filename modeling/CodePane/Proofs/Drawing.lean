import CodePane.Drawing
import CodePane.Proofs.Coverage.Lookup
import CodePane.Proofs.Grid.Pixels

/-!
# Pieces of a drawing and their places

A row is drawn piece by piece, each beginning where the one before it ends. At boundaries the widths
of the pieces add up to the cells of the line, so every piece stands at the cells of its text.

1. `Tiles`, `tiles_pieces`: the pieces of a line follow one another without a gap.
2. `Scene.place_exact`, `Scene.edges_of_mem_placedPieces`: the places of pieces.
3. `Scene.row?_eq_some`: the rows of a drawing.
-/

namespace CodePane

/-! ## Cutting a line -/

/-- The pieces follow one another from `first` to `last`, and none is empty. -/
def Tiles (first last : Nat) : List Piece → Prop
  | [] => first = last
  | p :: rest => p.start = first ∧ p.start < p.stop ∧ Tiles p.stop last rest

section Pieces

variable {start stop pos first middle last : Nat} {ps qs : List Piece} {tokens : List Token}

namespace Tiles

theorem append (h : Tiles first middle ps) (h' : Tiles middle last qs) :
    Tiles first last (ps ++ qs) := by
  induction ps generalizing first with
  | nil =>
    obtain rfl : first = middle := h
    exact h'
  | cons p ps ih =>
    obtain ⟨hstart, hlt, hrest⟩ := h
    exact ⟨hstart, hlt, ih hrest⟩

theorem first_le_start (h : Tiles first last ps) : ∀ p ∈ ps, first ≤ p.start := by
  induction ps generalizing first with
  | nil => exact fun p hp => absurd hp List.not_mem_nil
  | cons q ps ih =>
    obtain ⟨rfl, hlt, hrest⟩ := h
    intro p hp
    rcases List.mem_cons.mp hp with rfl | hp
    · exact Nat.le_refl _
    · have := ih hrest p hp
      omega

theorem first_le_last (h : Tiles first last ps) : first ≤ last := by
  induction ps generalizing first with
  | nil => exact Nat.le_of_eq h
  | cons q ps ih =>
    obtain ⟨rfl, hlt, hrest⟩ := h
    have := ih hrest
    omega

theorem start_lt_stop (h : Tiles first last ps) :
    ∀ p ∈ ps, p.start < p.stop ∧ p.stop ≤ last := by
  induction ps generalizing first with
  | nil => exact fun p hp => absurd hp List.not_mem_nil
  | cons q ps ih =>
    obtain ⟨rfl, hlt, hrest⟩ := h
    intro p hp
    rcases List.mem_cons.mp hp with rfl | hp
    · exact ⟨hlt, hrest.first_le_last⟩
    · exact ih hrest p hp

theorem pairwise (h : Tiles first last ps) : ps.Pairwise fun p q => p.stop ≤ q.start := by
  induction ps generalizing first with
  | nil => exact .nil
  | cons p ps ih =>
    obtain ⟨rfl, -, hrest⟩ := h
    exact List.pairwise_cons.mpr ⟨hrest.first_le_start, ih hrest⟩

theorem exists_mem (h : Tiles first last ps) (hfirst : first ≤ pos) (hlast : pos < last) :
    ∃ p ∈ ps, p.start ≤ pos ∧ pos < p.stop := by
  induction ps generalizing first with
  | nil =>
    obtain rfl : first = last := h
    omega
  | cons p ps ih =>
    obtain ⟨rfl, -, hrest⟩ := h
    by_cases hin : pos < p.stop
    · exact ⟨p, List.mem_cons_self, hfirst, hin⟩
    · obtain ⟨q, hq, hbounds⟩ := ih hrest (by omega)
      exact ⟨q, List.mem_cons_of_mem p hq, hbounds⟩

end Tiles

theorem tiles_piece (h : start ≤ stop) (c : TokenClass) (s : Style) :
    Tiles start stop (piece start stop c s) := by
  unfold piece
  split
  · next hlt => exact ⟨rfl, hlt, rfl⟩
  · show start = stop
    omega

/-- **Nothing of a line is lost or drawn twice.** The tokens are those that meet the line, in order,
none of them before `pos`. -/
theorem tiles_pieces (hstop : pos ≤ stop) (horder : tokens.Pairwise fun a b => a.stop ≤ b.start)
    (htokens : ∀ t ∈ tokens, pos ≤ max t.start start ∧ start ≤ t.stop ∧ t.start ≤ stop)
    (hline : start ≤ stop) : Tiles pos stop (pieces start stop pos tokens) := by
  induction tokens generalizing pos with
  | nil => exact tiles_piece hstop .default .plain
  | cons t tokens ih =>
    obtain ⟨hfollow, horder⟩ := List.pairwise_cons.mp horder
    obtain ⟨hpos, hstart, hlast⟩ := htokens t List.mem_cons_self
    have hlength : t.start ≤ t.stop := Nat.le_add_right _ _
    have hrest : Tiles (min t.stop stop) stop (pieces start stop (min t.stop stop) tokens) := by
      refine ih (Nat.min_le_right _ _) horder fun u hu => ?_
      have := hfollow u hu
      have := htokens u (List.mem_cons_of_mem t hu)
      omega
    unfold pieces
    exact ((tiles_piece hpos _ _).append (tiles_piece (by omega) _ _)).append hrest

theorem mem_piece_iff {c : TokenClass} {s : Style} {p : Piece} :
    p ∈ piece start stop c s ↔ start < stop ∧ p = ⟨start, stop, c, s⟩ := by
  unfold piece
  split
  · next hlt => simp [hlt]
  · next hle => simp [hle]

theorem mem_piece {c : TokenClass} {s : Style} {p : Piece} (h : p ∈ piece start stop c s) :
    p.start = start ∧ p.stop = stop := by
  obtain ⟨-, rfl⟩ := mem_piece_iff.mp h
  exact ⟨rfl, rfl⟩

/-- The borders of pieces are borders of tokens or the ends of the line. -/
theorem borders_of_mem_pieces {P : Nat → Prop} (hstart : P start) (hstop : P stop) (hpos : P pos)
    (htokens : ∀ t ∈ tokens, P t.start ∧ P t.stop) {p : Piece}
    (hp : p ∈ pieces start stop pos tokens) : P p.start ∧ P p.stop := by
  induction tokens generalizing pos with
  | nil =>
    obtain ⟨hfirst, hlast⟩ := mem_piece hp
    exact ⟨hfirst ▸ hpos, hlast ▸ hstop⟩
  | cons t tokens ih =>
    obtain ⟨ht, ht'⟩ := htokens t List.mem_cons_self
    have hleft : P (max t.start start) := by
      rcases Nat.le_total t.start start with hle | hle
      · exact (Nat.max_eq_right hle).symm ▸ hstart
      · exact (Nat.max_eq_left hle).symm ▸ ht
    have hright : P (min t.stop stop) := by
      rcases Nat.le_total t.stop stop with hle | hle
      · exact (Nat.min_eq_left hle).symm ▸ ht'
      · exact (Nat.min_eq_right hle).symm ▸ hstop
    unfold pieces at hp
    rcases List.mem_append.mp hp with hp | hp
    · rcases List.mem_append.mp hp with hp | hp
      · obtain ⟨hfirst, hlast⟩ := mem_piece hp
        exact ⟨hfirst ▸ hpos, hlast ▸ hleft⟩
      · obtain ⟨hfirst, hlast⟩ := mem_piece hp
        exact ⟨hfirst ▸ hleft, hlast ▸ hright⟩
    · exact ih hright (fun u hu => htokens u (List.mem_cons_of_mem t hu)) hp

end Pieces

namespace Coverage

variable {tokens : List Token} {start stop : Nat}

theorem pairwise_touching (h : Ordered tokens) :
    (touching tokens start stop).Pairwise fun a b => a.stop ≤ b.start :=
  h.1.sublist ((List.takeWhile_sublist _).trans (List.dropWhile_sublist _))

theorem tiles_touching (h : Ordered tokens) (hle : start ≤ stop) :
    Tiles start stop (pieces start stop start (touching tokens start stop)) := by
  refine tiles_pieces hle (pairwise_touching h) (fun t ht => ?_) hle
  obtain ⟨-, hreach, hbegin⟩ := (mem_touching_iff h).mp ht
  omega

theorem borders_touching {P : Nat → Prop} (h : Ordered tokens) (hstart : P start) (hstop : P stop)
    (htokens : ∀ t ∈ tokens, P t.start ∧ P t.stop) :
    ∀ p ∈ pieces start stop start (touching tokens start stop), P p.start ∧ P p.stop :=
  fun _ hp => borders_of_mem_pieces hstart hstop hstart
    (fun t ht => htokens t ((mem_touching_iff h).mp ht).1) hp

end Coverage

namespace Scene

theorem mem_shownLines_iff {s : Scene} {line : Nat} : line ∈ s.shownLines ↔
    s.scroll.topLine ≤ line ∧ line < Text.numLines s.text ∧
      line ≤ s.scroll.topLine + s.grid.rowsIn s.height := by
  unfold shownLines
  rw [List.mem_range'_1]
  omega

theorem mem_shownLines {s : Scene} {line : Nat} (h : line ∈ s.shownLines) :
    s.scroll.topLine ≤ line ∧ line < Text.numLines s.text :=
  have hshown := mem_shownLines_iff.mp h
  ⟨hshown.1, hshown.2.1⟩

variable [CharWidths] {s : Scene} {clip : Rect} {pp : PlacedPiece} {line first last pos a b : Nat}

/-! ## Placing pieces -/

theorem columns_mul_add (size : Int) {text : Text} (hfirst : Text.Boundary text first)
    (ha : Text.Boundary text a) (hle : first ≤ a) (hab : a ≤ b) :
    (Text.columns text first b : Int) * size =
      Text.columns text first a * size + Text.columns text a b * size := by
  rw [Text.columns_add hfirst ha hle hab, Int.natCast_add, Int.add_mul]

theorem map_piece_place (s : Scene) (x : Int) (pos : Nat) (text : Text) (ps : List Piece) :
    (s.place x pos text ps).map (·.piece) = ps := by
  induction ps generalizing x pos text with
  | nil => rfl
  | cons p ps ih =>
    unfold place
    simp only [List.map_cons, ih]

/-- **The edges of a piece are at the cells of its ends**, if the right one stays in the range. The
induction is on the pieces; `a` is where the next one begins. -/
theorem place_exact {ps : List Piece} {origin : Int} (horigin : Pixel.least ≤ origin)
    (hfirst : Text.Boundary s.text first) (htiles : Tiles a last ps)
    (hborders : ∀ p ∈ ps, Text.Boundary s.text p.start ∧ Text.Boundary s.text p.stop)
    (hpos : pos ≤ a) (hle : first ≤ a)
    (hpp : pp ∈ s.place (origin + Text.columns s.text first a * s.grid.columnPixels) pos
      (s.text.drop pos) ps)
    (hwidth : Text.columns s.text first pp.piece.stop * s.grid.columnPixels ≤ Pixel.greatest)
    (hright : origin + Text.columns s.text first pp.piece.stop * s.grid.columnPixels ≤
      Pixel.greatest) :
    pp.x = origin + Text.columns s.text first pp.piece.start * s.grid.columnPixels ∧
      pp.x + pp.width =
        origin + Text.columns s.text first pp.piece.stop * s.grid.columnPixels := by
  induction ps generalizing pos a with
  | nil => exact absurd hpp List.not_mem_nil
  | cons p ps ih =>
    obtain ⟨rfl, hlt, hrest⟩ := htiles
    obtain ⟨hstart, hstop⟩ := hborders p List.mem_cons_self
    have hcell := s.grid.columnPixels_nonneg
    -- no piece ends after `pp` does, so the edges up to there stay in the range
    have hends : p.stop ≤ pp.piece.stop := by
      have hmem := List.mem_map_of_mem (f := (·.piece)) hpp
      rw [map_piece_place] at hmem
      rcases List.mem_cons.mp hmem with heq | hmem
      · exact Nat.le_of_eq (congrArg Piece.stop heq).symm
      · have := hrest.first_le_start _ hmem
        have := (hrest.start_lt_stop _ hmem).1
        omega
    have hsplit := columns_mul_add s.grid.columnPixels hfirst hstart hle (Nat.le_of_lt hlt)
    have hgrow := columns_mul_add s.grid.columnPixels hfirst hstop (by omega) hends
    have hnonneg (m n : Nat) : 0 ≤ (Text.columns s.text m n : Int) * s.grid.columnPixels :=
      Int.mul_nonneg (by omega) hcell
    have hbefore := hnonneg first p.start
    have hown := hnonneg p.start p.stop
    have hafter := hnonneg p.stop pp.piece.stop
    have hbytes : (s.text.drop pos).drop (p.start - pos) = s.text.drop p.start := by
      rw [List.drop_drop, Nat.add_sub_cancel' hpos]
    have hfits : Text.columns s.text p.start p.stop * s.grid.columnPixels ≤ Pixel.greatest := by
      omega
    have hexact : s.grid.widthOf (Text.columnsFrom p.stop p.start (s.text.drop p.start)) =
        Text.columns s.text p.start p.stop * s.grid.columnPixels := Grid.widthOf_eq hfits
    rw [place, hbytes] at hpp
    simp only [hexact] at hpp
    rcases List.mem_cons.mp hpp with heq | hpp
    · rw [heq]
      refine ⟨rfl, ?_⟩
      rw [hsplit, ← Int.add_assoc]
    · rw [Int.add_assoc, ← hsplit, Pixel.clamp_eq (by omega) (by omega)] at hpp
      exact ih hrest (fun q hq => hborders q (List.mem_cons_of_mem p hq)) (Nat.le_of_lt hlt)
        (by omega) hpp

theorem piece_mem_of_mem_placedPieces {start stop : Nat}
    (h : pp ∈ s.placedPieces start stop clip) :
    pp.piece ∈ pieces start stop start (Coverage.touching s.tokens start stop) := by
  have hmem := List.mem_map_of_mem (f := (·.piece)) (List.mem_filter.mp h).1
  rw [map_piece_place] at hmem
  exact hmem

/-- **The edges of a piece of a line are at the cells of its ends**, behind the gutter and moved by
the scrolling, if neither the line's start nor the right edge leaves the range. -/
theorem edges_of_mem_placedPieces (horder : Coverage.Ordered s.tokens)
    (htokens : ∀ t ∈ s.tokens, Text.Boundary s.text t.start ∧ Text.Boundary s.text t.stop)
    (hline : line < Text.numLines s.text)
    (hpp : pp ∈ s.placedPieces (Text.startOfLine s.text line) (Text.endOfLine s.text line) clip)
    (hlow : Pixel.least ≤ s.grid.gutterPixels (Text.numLines s.text) - s.scroll.left)
    (hwidth : Text.columns s.text (Text.startOfLine s.text line) pp.piece.stop *
      s.grid.columnPixels ≤ Pixel.greatest)
    (hright : s.grid.gutterPixels (Text.numLines s.text) - s.scroll.left +
      Text.columns s.text (Text.startOfLine s.text line) pp.piece.stop * s.grid.columnPixels ≤
        Pixel.greatest) :
    pp.x = s.grid.gutterPixels (Text.numLines s.text) - s.scroll.left +
        Text.columns s.text (Text.startOfLine s.text line) pp.piece.start *
          s.grid.columnPixels ∧
      pp.x + pp.width = s.grid.gutterPixels (Text.numLines s.text) - s.scroll.left +
        Text.columns s.text (Text.startOfLine s.text line) pp.piece.stop *
          s.grid.columnPixels := by
  have hstart := Text.boundary_startOfLine s.text line
  have hstop := Text.boundary_endOfLine s.text line
  have hcells : 0 ≤ (Text.columns s.text (Text.startOfLine s.text line) pp.piece.stop : Int) *
      s.grid.columnPixels := Int.mul_nonneg (by omega) s.grid.columnPixels_nonneg
  have horigin : (s.pixelOf (Text.startOfLine s.text line)).x =
      s.grid.gutterPixels (Text.numLines s.text) - s.scroll.left +
        Text.columns s.text (Text.startOfLine s.text line) (Text.startOfLine s.text line) *
          s.grid.columnPixels := by
    have hhigh : s.grid.gutterPixels (Text.numLines s.text) - s.scroll.left ≤ Pixel.greatest := by
      omega
    rw [pixelOf, s.grid.pixelOf_startOfLine hline, Text.columns_of_le s.text (Nat.le_refl _),
      Int.natCast_zero, Int.zero_mul, Int.add_zero]
    exact Pixel.clamp_eq hlow hhigh
  have htiles := Coverage.tiles_touching horder (Text.startOfLine_le_endOfLine s.text line)
  have hborders := Coverage.borders_touching horder hstart hstop htokens
  have hmem := (List.mem_filter.mp hpp).1
  rw [horigin] at hmem
  exact place_exact hlow hstart htiles hborders (Nat.le_refl _) (Nat.le_refl _) hmem hwidth hright

theorem x_of_mem_placedPieces (horder : Coverage.Ordered s.tokens)
    (htokens : ∀ t ∈ s.tokens, Text.Boundary s.text t.start ∧ Text.Boundary s.text t.stop)
    (hleft : 0 ≤ s.scroll.left ∧ s.scroll.left ≤ Pixel.greatest)
    (hline : line < Text.numLines s.text)
    (hpp : pp ∈ s.placedPieces (Text.startOfLine s.text line) (Text.endOfLine s.text line) clip)
    (hright : s.grid.gutterPixels (Text.numLines s.text) +
      Text.columns s.text (Text.startOfLine s.text line) pp.piece.stop * s.grid.columnPixels ≤
        Pixel.greatest) :
    pp.x + s.scroll.left = s.grid.gutterPixels (Text.numLines s.text) +
        Text.columns s.text (Text.startOfLine s.text line) pp.piece.start *
          s.grid.columnPixels ∧
      pp.x + pp.width + s.scroll.left = s.grid.gutterPixels (Text.numLines s.text) +
        Text.columns s.text (Text.startOfLine s.text line) pp.piece.stop *
          s.grid.columnPixels := by
  have hgutter := s.grid.gutterPixels_nonneg (Text.numLines s.text)
  have hlow : Pixel.least ≤ s.grid.gutterPixels (Text.numLines s.text) - s.scroll.left := by
    unfold Pixel.greatest at hleft
    unfold Pixel.least
    omega
  have hedges := edges_of_mem_placedPieces horder htokens hline hpp hlow (by omega) (by omega)
  omega

/-! ## Rows -/

theorem row?_eq_some {row : DrawnRow} (h : s.row? clip line = some row) :
    row.line = line ∧ row.y = s.grid.rowTop (line - s.scroll.topLine) ∧
      row.pieces =
        s.placedPieces (Text.startOfLine s.text line) (Text.endOfLine s.text line) clip := by
  unfold row? at h
  simp only at h
  split at h
  · obtain rfl := Option.some.inj h
    exact ⟨rfl, rfl, rfl⟩
  · cases h

end Scene

end CodePane

import CodePane.Proofs.Coverage.Independent
import CodePane.Proofs.Coverage.Lookup
import CodePane.Proofs.Coverage.Relay

/-!
# Laying tokens in machine words

The program finds the tokens that a new one meets by halving, replaces them, and keeps what sticks
out of the first and the last of them. All its offsets are machine words. As long as the tokens of a
coverage end at offsets that are words too, nothing of this fails and the result is that of `lay`.
The end of a token beyond them makes it fail.

1. `endedBy?_eq`, `begunBy?_eq`, `touching?_eq`: the searches.
2. `leftRest?_eq`, `rightRest?_eq`, `overwrite?_eq`: one token.
3. `lay?_eq`: several tokens.
4. `laid_mem_iff_isRun`, `laid_twice`, `laid_independent`: what has been laid, the same laid again,
   and batches laid in another order.
-/

namespace CodePane.Coverage

variable {tokens incoming others : List Token} {t : Token} {length first last pos : Nat}

/-! ## Searches -/

theorem stop?_eq (h : t.stop ≤ Token.greatestOffset) : t.stop? = some t.stop := if_pos h

theorem endedBy?_eq (h : OfLength Token.greatestOffset tokens)
    (hfirst : SplitsAt (·.stop ≤ pos) tokens first) : endedBy? tokens pos = some first := by
  refine partitionPoint?_eq hfirst fun t ht => ?_
  rw [stop?_eq (h.inside t ht), Option.map_some]

theorem begunBy?_eq (hlast : SplitsAt (·.start < pos) tokens last) :
    begunBy? tokens pos = some last :=
  partitionPoint?_eq hlast fun _ _ => rfl

/-- **Halving finds the tokens that meet a range.** -/
theorem touching?_eq (h : OfLength Token.greatestOffset tokens) (start stop : Nat) :
    touching? tokens start stop = some (touching tokens start stop) := by
  have hended : SplitsAt (·.stop ≤ start) tokens (endedBy tokens start) :=
    (initial_ended h.ordered start).splitsAt
  have hbegun := (initial_begun h.ordered stop).splitsAt
  unfold touching?
  rw [endedBy?_eq h hended, begunBy?_eq hbegun, touching_eq_slice h.ordered hbegun]
  rfl

/-! ## One token -/

section Window

variable (h : Ordered tokens) (hfirst : SplitsAt (·.stop ≤ t.start) tokens first)
  (hlast : SplitsAt (·.start < t.stop) tokens last)

include h hfirst

theorem take_first_eq : (tokens.take first).filterMap (before t.start) = tokens.take first :=
  filterMap_eq_self fun u hu => before_of_stop_le (h.2 u (List.mem_of_mem_take hu))
    (of_decide_eq_true (hfirst.passed u hu))

include hlast

theorem first_le_last (ht : 0 < t.length) : first ≤ last := by
  by_contra hlt
  have hin : last < tokens.length := Nat.lt_of_lt_of_le (by omega) hfirst.le
  have hended := (hfirst.passed_iff (List.getElem?_eq_getElem hin)).mpr (by omega)
  have hbegun := (hlast.passed_iff (List.getElem?_eq_getElem hin)).not.mpr (Nat.lt_irrefl _)
  have hfilled := h.2 _ (List.getElem_mem hin)
  simp only [decide_eq_true_eq] at hended hbegun
  unfold Token.stop at *
  omega

/-- Only the first token of the window can begin in front of the new one. -/
theorem leftRest?_eq (ht : 0 < t.length) : leftRest? tokens first last t.start =
    some ((tokens.drop first).filterMap (before t.start)) := by
  unfold leftRest?
  by_cases hlt : first < last
  · have hin : first < tokens.length := Nat.lt_of_lt_of_le hlt hlast.le
    have hends := (hfirst.passed_iff (List.getElem?_eq_getElem hin)).not.mpr (Nat.lt_irrefl _)
    have hrest : (tokens.drop (first + 1)).filterMap (before t.start) = [] := by
      refine List.filterMap_eq_nil_iff.mpr fun u hu => before_of_le_start ?_
      have hpair := h.1
      rw [← List.take_append_drop first tokens, List.drop_eq_getElem_cons hin] at hpair
      have hafter := (List.pairwise_cons.mp (List.pairwise_append.mp hpair).2.1).1 u hu
      simp only [decide_eq_true_eq] at hends
      omega
    simp only [decide_eq_true_eq] at hends
    rw [if_pos hlt, List.getElem?_eq_getElem hin, List.drop_eq_getElem_cons hin,
      List.filterMap_cons, hrest, Option.map_some]
    unfold before
    by_cases hstart : tokens[first].start < t.start
    · rw [if_pos hstart, if_pos hstart, Nat.min_eq_right (by omega)]
    · rw [if_neg hstart, if_neg hstart]
  · have hnone : (tokens.drop first).filterMap (before t.start) = [] := by
      refine List.filterMap_eq_nil_iff.mpr fun u hu => before_of_le_start ?_
      have hbeyond := hlast.failed u (List.mem_of_mem_drop (i := first - last) (by
        rw [List.drop_drop, show last + (first - last) = first by omega]
        exact hu))
      simp only [decide_eq_true_eq] at hbeyond
      unfold Token.stop at hbeyond
      omega
    rw [if_neg hlt, hnone]

/-- Only the last token of the window can end behind the new one. -/
theorem rightRest?_eq (hfits : ∀ u ∈ tokens, u.stop ≤ Token.greatestOffset) :
    rightRest? tokens first last t.stop =
      some ((tokens.take last).filterMap (after t.stop)) := by
  unfold rightRest?
  by_cases hlt : first < last
  · have hin : last - 1 < tokens.length := Nat.lt_of_lt_of_le (by omega) hlast.le
    have hbegins := (hlast.passed_iff (List.getElem?_eq_getElem hin)).mpr (by omega)
    have hsplit : tokens.take last = tokens.take (last - 1) ++ [tokens[last - 1]] := by
      conv_lhs => rw [show last = last - 1 + 1 by omega]
      rw [List.take_add_one, List.getElem?_eq_getElem hin, Option.toList_some]
    have hrest : (tokens.take (last - 1)).filterMap (after t.stop) = [] := by
      refine List.filterMap_eq_nil_iff.mpr fun u hu => after_of_stop_le ?_
      have hpair := h.1.sublist (List.take_sublist last tokens)
      rw [hsplit] at hpair
      have hbefore := (List.pairwise_append.mp hpair).2.2 u hu _ (List.mem_singleton_self _)
      simp only [decide_eq_true_eq] at hbegins
      omega
    simp only [decide_eq_true_eq] at hbegins
    rw [if_pos hlt, List.getElem?_eq_getElem hin, hsplit, List.filterMap_append, hrest,
      List.nil_append, List.filterMap_cons, List.filterMap_nil]
    simp only [Option.bind_eq_bind, Option.bind_some, stop?_eq (hfits _ (List.getElem_mem hin))]
    unfold after
    by_cases hstop : t.stop < tokens[last - 1].stop
    · rw [if_pos hstop, if_pos hstop, Nat.max_eq_right (Nat.le_of_lt hbegins)]
      rfl
    · rw [if_neg hstop, if_neg hstop]
      rfl
  · have hnone : (tokens.take last).filterMap (after t.stop) = [] := by
      refine List.filterMap_eq_nil_iff.mpr fun u hu => after_of_stop_le ?_
      have hended := hfirst.passed u (List.take_subset_take_left _ (by omega) hu)
      simp only [decide_eq_true_eq] at hended
      exact Nat.le_trans hended (Nat.le_add_right _ _)
    rw [if_neg hlt, hnone]

end Window

/-- **One token.** Replacing the window of a token overlays it. -/
theorem overwrite?_eq (h : OfLength Token.greatestOffset tokens) (ht : 0 < t.length)
    (hstop : t.stop ≤ Token.greatestOffset) :
    overwrite? tokens t = some (overlay tokens t) := by
  obtain ⟨first, hfirst⟩ : ∃ first, SplitsAt (·.stop ≤ t.start) tokens first :=
    ⟨_, (initial_ended h.ordered t.start).splitsAt⟩
  obtain ⟨last, hlast⟩ : ∃ last, SplitsAt (·.start < t.stop) tokens last :=
    ⟨_, (initial_begun h.ordered t.stop).splitsAt⟩
  have hle : first ≤ last := first_le_last h.ordered hfirst hlast ht
  have hbeyond : (tokens.drop last).filterMap (after t.stop) = tokens.drop last := by
    refine filterMap_eq_self fun u hu =>
      after_of_le_start (h.ordered.2 u (List.mem_of_mem_drop hu)) ?_
    simpa using hlast.failed u hu
  have hleft : tokens.filterMap (before t.start) =
      tokens.take first ++ (tokens.drop first).filterMap (before t.start) := by
    rw [← take_first_eq h.ordered hfirst, ← List.filterMap_append, List.take_append_drop]
  have hright : tokens.filterMap (after t.stop) =
      (tokens.take last).filterMap (after t.stop) ++ tokens.drop last := by
    conv_rhs => rw [← hbeyond]
    rw [← List.filterMap_append, List.take_append_drop]
  unfold overwrite?
  simp only [stop?_eq hstop, endedBy?_eq h hfirst, begunBy?_eq hlast,
    leftRest?_eq h.ordered hfirst hlast ht, rightRest?_eq h.ordered hfirst hlast h.inside,
    Option.bind_eq_bind, Option.bind_some]
  rw [splice?, if_pos ⟨hle, hlast.le⟩, overlay, hleft, hright]
  simp only [List.append_assoc, List.cons_append]

/-! ## Several tokens -/

theorem OfLength.overlay (h : OfLength length tokens) (ht : 0 < t.length)
    (hstop : t.stop ≤ length) : OfLength length (Coverage.overlay tokens t) := by
  refine ⟨ordered_overlay h.ordered ht, fun u hu => ?_⟩
  rcases mem_overlay.mp hu with rfl | ⟨w, hw, hu | hu⟩
  · exact hstop
  · have hin := h.inside w hw
    obtain ⟨hlt, rfl⟩ := before_eq_some hu
    simp only [Token.stop] at *
    omega
  · have hin := h.inside w hw
    obtain ⟨hlt, rfl⟩ := after_eq_some hu
    simp only [Token.stop] at *
    omega

theorem foldlM_overwrite? (h : OfLength Token.greatestOffset tokens)
    (hfilled : ∀ t ∈ incoming, 0 < t.length)
    (hfits : ∀ t ∈ incoming, t.stop ≤ Token.greatestOffset) :
    incoming.foldlM overwrite? tokens = some (incoming.foldl overlay tokens) ∧
      OfLength Token.greatestOffset (incoming.foldl overlay tokens) := by
  induction incoming generalizing tokens with
  | nil => exact ⟨rfl, h⟩
  | cons t rest ih =>
    obtain ⟨ht, hfilled⟩ := List.forall_mem_cons.mp hfilled
    obtain ⟨hstop, hfits⟩ := List.forall_mem_cons.mp hfits
    rw [List.foldlM_cons, overwrite?_eq h ht hstop]
    exact ih (h.overlay ht hstop) hfilled hfits

/-- **Several tokens.** Where the tokens of a coverage end at machine words, laying others over it
one after the other does not fail and gives the same coverage as `lay`. -/
theorem lay?_eq (h : OfLength Token.greatestOffset tokens) (incoming : List Token)
    (hlength : length ≤ Token.greatestOffset) :
    lay? tokens incoming length = some (lay tokens incoming length) ∧
      OfLength Token.greatestOffset (lay tokens incoming length) := by
  have hbatch : ∀ t ∈ sortByStart (incoming.filterMap (clampTo length)),
      0 < t.length ∧ t.stop ≤ length := fun t ht => by
    obtain ⟨u, -, hu⟩ := List.mem_filterMap.mp (List.mem_mergeSort.mp ht)
    exact clampTo_eq_some hu
  have hsorted : (sortByStart (incoming.filterMap (clampTo length))).Pairwise
      fun a b => a.start ≤ b.start := by
    rw [← map_fst_inOrder, List.pairwise_map]
    refine (pairwise_mergeSort_start (pairwise_placed incoming length)).imp fun {a b} hab => ?_
    omega
  unfold lay? lay
  rw [laySorted_eq_foldl h.ordered hsorted fun t ht => (hbatch t ht).1]
  exact foldlM_overwrite? h (fun t ht => (hbatch t ht).1)
    fun t ht => Nat.le_trans (hbatch t ht).2 hlength

/-! ## What has been laid -/

/-- **Laying succeeds and gives the longest runs of offsets with one owner**, each with the looks of
its owner, over every coverage whose tokens end at machine words. -/
theorem laid_mem_iff_isRun (h : Ordered tokens)
    (hfits : ∀ t ∈ tokens, t.stop ≤ Token.greatestOffset) (incoming : List Token)
    (hlength : length ≤ Token.greatestOffset) :
    ∃ laid, lay? tokens incoming length = some laid ∧ Ordered laid ∧
      ∀ t, t ∈ laid ↔ ∃ o, IsRun (Owns tokens incoming length) o t.start t.stop ∧
        o.looks tokens incoming = some (look t) :=
  have hrenders := renders_lay h incoming length
  ⟨_, (lay?_eq ⟨h, hfits⟩ incoming hlength).1, hrenders.ordered, hrenders.mem_iff⟩

/-- A keyword of ten bytes in a text of nine: a string splits it, and a comment without end covers
what the text has of the rest. -/
theorem laid_mem_iff_isRun_split :
    let tokens : List Token := [⟨0, 10, .keyword, .plain⟩]
    let incoming : List Token := [⟨8, 2 ^ 64 - 1, .comment, .plain⟩, ⟨3, 4, .string, .plain⟩]
    let laid : List Token := [⟨0, 3, .keyword, .plain⟩, ⟨3, 4, .string, .plain⟩,
      ⟨7, 1, .keyword, .plain⟩, ⟨8, 1, .comment, .plain⟩, ⟨9, 1, .keyword, .plain⟩]
    Ordered tokens ∧ lay? tokens incoming 9 = some laid ∧
      ∀ t, t ∈ laid ↔ ∃ o, IsRun (Owns tokens incoming 9) o t.start t.stop ∧
        o.looks tokens incoming = some (look t) := by
  intro tokens incoming laid
  have hordered : Ordered tokens := ⟨by decide, by decide⟩
  have hlaid : lay? tokens incoming 9 = some laid := by cbv
  have hlength : 9 ≤ Token.greatestOffset := by decide
  obtain ⟨others, hothers, -, hmem⟩ :=
    laid_mem_iff_isRun hordered (by decide) incoming hlength
  obtain rfl := Option.some.inj (hlaid.symm.trans hothers)
  exact ⟨hordered, hlaid, hmem⟩

/-- Over a token that ends beyond the machine words nothing can be laid, since looking for what ends
early asks for its end. -/
theorem laid_beyond_words :
    let tokens : List Token := [⟨2 ^ 64 - 1, 1, .keyword, .plain⟩]
    Ordered tokens ∧ ¬ ∃ laid, lay? tokens [⟨0, 1, .string, .plain⟩] 1 = some laid := by
  intro tokens
  have hfails : lay? tokens [⟨0, 1, .string, .plain⟩] 1 = none := by cbv
  refine ⟨⟨by decide, by decide⟩, ?_⟩
  rintro ⟨laid, hlaid⟩
  rw [hfails] at hlaid
  cases hlaid

/-- **Laying is idempotent.** Tokens that are laid a second time change nothing, whatever they
overlap. -/
theorem laid_twice (h : Ordered tokens) (hfits : ∀ t ∈ tokens, t.stop ≤ Token.greatestOffset)
    (incoming : List Token) (hlength : length ≤ Token.greatestOffset) :
    ∃ laid, lay? tokens incoming length = some laid ∧ lay? laid incoming length = some laid := by
  obtain ⟨hfirst, hinside⟩ := lay?_eq ⟨h, hfits⟩ incoming hlength
  have hsecond := (lay?_eq hinside incoming hlength).1
  rw [lay_lay h incoming length] at hsecond
  exact ⟨_, hfirst, hsecond⟩

/-- Three tokens that overlap each other and both tokens below, one of them beyond the text. -/
theorem laid_twice_overlapping :
    let tokens : List Token := [⟨0, 10, .keyword, .plain⟩, ⟨12, 3, .comment, .italicOnly⟩]
    let incoming : List Token :=
      [⟨9, 5, .string, .plain⟩, ⟨3, 4, .number, .plain⟩, ⟨5, 2 ^ 64 - 1, .char, .plain⟩]
    let laid : List Token := [⟨0, 3, .keyword, .plain⟩, ⟨3, 2, .number, .plain⟩,
      ⟨5, 4, .char, .plain⟩, ⟨9, 5, .string, .plain⟩, ⟨14, 1, .comment, .italicOnly⟩]
    Ordered tokens ∧ lay? tokens incoming 14 = some laid ∧ lay? laid incoming 14 = some laid := by
  intro tokens incoming laid
  have hordered : Ordered tokens := ⟨by decide, by decide⟩
  have hlaid : lay? tokens incoming 14 = some laid := by cbv
  have hlength : 14 ≤ Token.greatestOffset := by decide
  obtain ⟨others, hothers, hagain⟩ := laid_twice hordered (by decide) incoming hlength
  obtain rfl := Option.some.inj (hlaid.symm.trans hothers)
  exact ⟨hordered, hlaid, hagain⟩

/-- A coverage that cannot be laid over once cannot be laid over twice. -/
theorem laid_twice_beyond_words :
    let tokens : List Token := [⟨2 ^ 64 - 1, 1, .keyword, .plain⟩]
    let incoming : List Token := [⟨0, 1, .string, .plain⟩]
    Ordered tokens ∧
      ¬ ∃ laid, lay? tokens incoming 1 = some laid ∧ lay? laid incoming 1 = some laid := by
  intro tokens incoming
  have hfails : lay? tokens incoming 1 = none := by cbv
  refine ⟨⟨by decide, by decide⟩, ?_⟩
  rintro ⟨laid, hlaid, -⟩
  rw [hfails] at hlaid
  cases hlaid

/-- **Independent batches.** Two batches of tokens of which no token of one overlaps a token of the
other inside the text may be laid in either order, or both at once. -/
theorem laid_independent (h : Ordered tokens)
    (hfits : ∀ t ∈ tokens, t.stop ≤ Token.greatestOffset)
    (hlength : length ≤ Token.greatestOffset) (hapart : Independent length incoming others) :
    ∃ laid, (lay? tokens incoming length).bind (lay? · others length) = some laid ∧
      (lay? tokens others length).bind (lay? · incoming length) = some laid ∧
      lay? tokens (incoming ++ others) length = some laid := by
  obtain ⟨hincoming, hinside⟩ := lay?_eq ⟨h, hfits⟩ incoming hlength
  obtain ⟨hothers, hinside'⟩ := lay?_eq ⟨h, hfits⟩ others hlength
  refine ⟨lay tokens (incoming ++ others) length, ?_, ?_,
    (lay?_eq ⟨h, hfits⟩ _ hlength).1⟩
  · rw [hincoming, Option.bind_some, (lay?_eq hinside others hlength).1, hapart.lay_append h]
  · rw [hothers, Option.bind_some, (lay?_eq hinside' incoming hlength).1, hapart.lay_append' h]

/-- Two batches that cut the same token between each other. The tokens of the first one overlap,
one of the second one is cut off at the end of the text, and one is empty. -/
theorem laid_independent_interleaved :
    let tokens : List Token := [⟨0, 12, .keyword, .plain⟩, ⟨12, 8, .comment, .italicOnly⟩]
    let incoming : List Token :=
      [⟨10, 3, .string, .plain⟩, ⟨2, 3, .number, .plain⟩, ⟨3, 1, .char, .plain⟩]
    let others : List Token :=
      [⟨14, 2 ^ 64 - 1, .register, .plain⟩, ⟨6, 2, .label, .plain⟩, ⟨3, 0, .address, .plain⟩]
    let laid : List Token := [⟨0, 2, .keyword, .plain⟩, ⟨2, 1, .number, .plain⟩,
      ⟨3, 1, .char, .plain⟩, ⟨4, 1, .number, .plain⟩, ⟨5, 1, .keyword, .plain⟩,
      ⟨6, 2, .label, .plain⟩, ⟨8, 2, .keyword, .plain⟩, ⟨10, 3, .string, .plain⟩,
      ⟨13, 1, .comment, .italicOnly⟩, ⟨14, 2, .register, .plain⟩, ⟨16, 4, .comment, .italicOnly⟩]
    Ordered tokens ∧ Independent 16 incoming others ∧
      (lay? tokens incoming 16).bind (lay? · others 16) = some laid ∧
      (lay? tokens others 16).bind (lay? · incoming 16) = some laid ∧
      lay? tokens (incoming ++ others) 16 = some laid := by
  intro tokens incoming others laid
  have hordered : Ordered tokens := ⟨by decide, by decide⟩
  have hapart : Independent 16 incoming others := by
    unfold Independent Apart
    decide
  have hlaid : lay? tokens (incoming ++ others) 16 = some laid := by cbv
  obtain ⟨joint, hfirst, hsecond, hjoint⟩ :=
    laid_independent hordered (by decide) (by decide) hapart
  obtain rfl := Option.some.inj (hlaid.symm.trans hjoint)
  exact ⟨hordered, hapart, hfirst, hsecond, hlaid⟩

/-- An empty batch is independent of all others, but over a token beyond the machine words only the
empty one can be laid. -/
theorem laid_independent_beyond_words :
    let tokens : List Token := [⟨2 ^ 64 - 1, 1, .keyword, .plain⟩]
    let incoming : List Token := [⟨0, 1, .string, .plain⟩]
    Ordered tokens ∧ Independent 1 incoming [] ∧
      ¬ ∃ laid, (lay? tokens incoming 1).bind (lay? · [] 1) = some laid := by
  intro tokens incoming
  have hfails : lay? tokens incoming 1 = none := by cbv
  refine ⟨⟨by decide, by decide⟩, fun a _ b hb => absurd hb List.not_mem_nil, ?_⟩
  rintro ⟨laid, hlaid⟩
  rw [hfails] at hlaid
  cases hlaid

end CodePane.Coverage

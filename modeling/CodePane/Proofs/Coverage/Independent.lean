import CodePane.Proofs.Coverage.Owner

/-!
# Laying independent tokens

Tokens that do not overlap can be laid in either order. So two batches of which no token of one
overlaps a token of the other can be laid one after the other, either way round, or both at once,
though the joint batch is laid in the order of starts and mixes the two.

1. `before_bind_before`, `after_bind_after`, `before_bind_after`: parts of parts of a token.
2. `Apart`, `overlay_comm`: two tokens that do not overlap.
3. `foldl_partition`: steps of two kinds that commute can be taken kind by kind.
4. `filter_inOrder_left`, `filter_inOrder_right`: the two batches inside the joint one.
5. `Independent.lay_append`, `Independent.lay_append'`: two batches.
-/

namespace CodePane.Coverage

variable {tokens incoming others : List Token} {length : Nat} {a b : Token}

/-! ## Parts of parts -/

section Parts

variable {first last : Nat} {c : TokenClass} {s : Style}

theorem before_ofSpan (h : first ≤ last) (pos : Nat) :
    before pos (.ofSpan first last c s) =
      if first < pos then some (.ofSpan first (min last pos) c s) else none := by
  have hstop : (Token.ofSpan first last c s).stop = last := Nat.add_sub_cancel' h
  unfold before
  rw [hstop]
  rfl

theorem after_ofSpan (h : first ≤ last) (pos : Nat) :
    after pos (.ofSpan first last c s) =
      if pos < last then some (.ofSpan (max first pos) last c s) else none := by
  have hstop : (Token.ofSpan first last c s).stop = last := Nat.add_sub_cancel' h
  unfold after
  rw [hstop]
  rfl

theorem exists_eq_ofSpan (t : Token) :
    ∃ first last c s, first ≤ last ∧ t = .ofSpan first last c s := by
  refine ⟨t.start, t.stop, t.tokenClass, t.style, Nat.le_add_right _ _, ?_⟩
  unfold Token.ofSpan Token.stop
  rw [Nat.add_sub_cancel_left]

theorem before_bind_before (i j : Nat) (t : Token) :
    (before i t).bind (before j) = before (min i j) t := by
  obtain ⟨first, last, c, s, h, rfl⟩ := exists_eq_ofSpan t
  rw [before_ofSpan h, before_ofSpan h]
  by_cases hi : first < i
  · rw [if_pos hi, Option.bind_some, before_ofSpan (by omega), Nat.min_assoc]
    simp only [Nat.lt_min, hi, true_and]
  · rw [if_neg hi, if_neg (by omega), Option.bind_none]

theorem after_bind_after (i j : Nat) (t : Token) :
    (after i t).bind (after j) = after (max i j) t := by
  obtain ⟨first, last, c, s, h, rfl⟩ := exists_eq_ofSpan t
  rw [after_ofSpan h, after_ofSpan h]
  by_cases hi : i < last
  · rw [if_pos hi, Option.bind_some, after_ofSpan (by omega), Nat.max_assoc]
    simp only [Nat.max_lt, hi, true_and]
  · rw [if_neg hi, if_neg (by omega), Option.bind_none]

theorem before_bind_after (i j : Nat) (t : Token) :
    (before j t).bind (after i) = (after i t).bind (before j) := by
  obtain ⟨first, last, c, s, h, rfl⟩ := exists_eq_ofSpan t
  rw [before_ofSpan h, after_ofSpan h]
  by_cases hi : i < last
  · by_cases hj : first < j
    · rw [if_pos hi, if_pos hj, Option.bind_some, Option.bind_some, after_ofSpan (by omega),
        before_ofSpan (by omega)]
      simp only [Nat.lt_min, Nat.max_lt, hi, hj, true_and]
    · rw [if_pos hi, if_neg hj, Option.bind_some, Option.bind_none, before_ofSpan (by omega),
        if_neg (by omega)]
  · by_cases hj : first < j
    · rw [if_neg hi, if_pos hj, Option.bind_some, Option.bind_none, after_ofSpan (by omega),
        if_neg (by omega)]
    · rw [if_neg hi, if_neg hj, Option.bind_none, Option.bind_none]

theorem before_bind_after_eq_none {i j : Nat} (h : i ≤ j) (t : Token) :
    (before i t).bind (after j) = none := by
  cases hbefore : before i t with
  | none => rfl
  | some u =>
    obtain ⟨hlt, rfl⟩ := before_eq_some hbefore
    refine after_of_stop_le ?_
    simp only [Token.stop]
    omega

end Parts

/-! ## Two tokens -/

/-- The two tokens do not overlap. -/
def Apart (a b : Token) : Prop := a.stop ≤ b.start ∨ b.stop ≤ a.start

theorem Apart.symm (h : Apart a b) : Apart b a := Or.symm h

/-- What is left of a coverage beside two tokens of which the first one ends before the other, when
the first one is laid first. -/
theorem overlay_overlay_of_le (ha : 0 < a.length) (h : a.stop ≤ b.start) :
    overlay (overlay tokens a) b = tokens.filterMap (before a.start) ++
      a :: (tokens.filterMap (fun t => (after a.stop t).bind (before b.start)) ++
        b :: tokens.filterMap (after b.stop)) := by
  unfold overlay
  have hkept : before b.start a = some a := before_of_stop_le ha h
  have hnone : after b.stop a = none := after_of_stop_le (by unfold Token.stop at *; omega)
  have hleft : ∀ t, (before a.start t).bind (before b.start) = before a.start t := fun t => by
    rw [before_bind_before, Nat.min_eq_left (by unfold Token.stop at h; omega)]
  have hempty : ∀ t, (before a.start t).bind (after b.stop) = none :=
    before_bind_after_eq_none (by unfold Token.stop at *; omega)
  have hright : ∀ t, (after a.stop t).bind (after b.stop) = after b.stop t := fun t => by
    rw [after_bind_after, Nat.max_eq_right (by unfold Token.stop at *; omega)]
  simp only [List.filterMap_append, List.filterMap_cons, List.filterMap_filterMap, hkept, hnone,
    hleft, hempty, hright, List.filterMap_none, List.nil_append, List.append_assoc,
    List.cons_append]

theorem overlay_overlay_of_ge (hb : 0 < b.length) (h : a.stop ≤ b.start) :
    overlay (overlay tokens b) a = tokens.filterMap (before a.start) ++
      a :: (tokens.filterMap (fun t => (after a.stop t).bind (before b.start)) ++
        b :: tokens.filterMap (after b.stop)) := by
  unfold overlay
  have hkept : after a.stop b = some b := after_of_le_start hb h
  have hnone : before a.start b = none :=
    before_of_le_start (by unfold Token.stop at h; omega)
  have hleft : ∀ t, (before b.start t).bind (before a.start) = before a.start t := fun t => by
    rw [before_bind_before, Nat.min_eq_right (by unfold Token.stop at h; omega)]
  have hempty : ∀ t, (after b.stop t).bind (before a.start) = none := fun t => by
    rw [← before_bind_after]
    exact before_bind_after_eq_none (by unfold Token.stop at *; omega) t
  have hright : ∀ t, (after b.stop t).bind (after a.stop) = after b.stop t := fun t => by
    rw [after_bind_after, Nat.max_eq_left (by unfold Token.stop at *; omega)]
  simp only [List.filterMap_append, List.filterMap_cons, List.filterMap_filterMap, hkept, hnone,
    hleft, hempty, hright, before_bind_after, List.filterMap_none, List.append_nil]

/-- **Two tokens.** Tokens that do not overlap can be laid in either order, also when both of them
cut the same token of the coverage. -/
theorem overlay_comm (tokens : List Token) (ha : 0 < a.length) (hb : 0 < b.length)
    (h : Apart a b) : overlay (overlay tokens a) b = overlay (overlay tokens b) a := by
  rcases h with h | h
  · rw [overlay_overlay_of_le ha h, overlay_overlay_of_ge hb h]
  · rw [overlay_overlay_of_ge ha h, overlay_overlay_of_le hb h]

/-! ## Steps of two kinds -/

section Partition

variable {α β : Type} {f : β → α → β} {p : α → Bool} {l : List α}

theorem foldl_cons_comm {x : α} (h : ∀ y ∈ l, ∀ z, f (f z x) y = f (f z y) x) (z : β) :
    (x :: l).foldl f z = (l ++ [x]).foldl f z := by
  induction l generalizing z with
  | nil => rfl
  | cons y l ih =>
    have hrest := ih (fun w hw => h w (List.mem_cons_of_mem y hw)) (f z y)
    rw [List.foldl_cons] at hrest
    rw [List.foldl_cons, List.foldl_cons, h y List.mem_cons_self, hrest]
    rfl

theorem foldl_partition
    (h : ∀ x ∈ l, ∀ y ∈ l, p x = false → p y = true → ∀ z, f (f z x) y = f (f z y) x) (z : β) :
    l.foldl f z = (l.filter fun x => !p x).foldl f ((l.filter p).foldl f z) := by
  induction l generalizing z with
  | nil => rfl
  | cons x l ih =>
    have hrest := ih (fun y hy w hw =>
      h y (List.mem_cons_of_mem x hy) w (List.mem_cons_of_mem x hw)) (f z x)
    rw [List.foldl_cons, hrest]
    cases hx : p x with
    | true =>
      rw [List.filter_cons_of_pos hx, List.filter_cons_of_neg (by simp [hx]), List.foldl_cons]
    | false =>
      -- the step has to be moved behind the steps of the first kind
      have hmove := foldl_cons_comm (f := f) (l := l.filter p) (x := x)
        (fun y hy => h x List.mem_cons_self y
          (List.mem_cons_of_mem x (List.mem_filter.mp hy).1) hx (List.mem_filter.mp hy).2) z
      rw [List.foldl_cons, List.foldl_append] at hmove
      rw [List.filter_cons_of_neg (by simp [hx]), List.filter_cons_of_pos (by simp [hx]), hmove]
      rfl

end Partition

/-! ## Two batches in one -/

/-- Tokens that are put in order are in the same order when others are taken out. -/
theorem filter_mergeSort_start {batch : List (Token × Nat)}
    (h : batch.Pairwise fun a b => a.2 < b.2) (p : Token × Nat → Bool) :
    (batch.mergeSort fun a b => decide (a.1.start ≤ b.1.start)).filter p =
      (batch.filter p).mergeSort fun a b => decide (a.1.start ≤ b.1.start) := by
  have hperm := ((List.mergeSort_perm batch
    fun a b => decide (a.1.start ≤ b.1.start)).filter p).trans
      (List.mergeSort_perm (batch.filter p) fun a b => decide (a.1.start ≤ b.1.start)).symm
  refine hperm.eq_of_pairwise ?_ ((pairwise_mergeSort_start h).filter p)
    (pairwise_mergeSort_start (h.filter p))
  intro a b _ _ hab hba
  omega

theorem placed_append (incoming others : List Token) (length : Nat) :
    placed (incoming ++ others) length = placed incoming length ++
      (placed others length).map fun x => (x.1, x.2 + incoming.length) := by
  unfold placed
  have hplaces : others.zipIdx incoming.length =
      others.zipIdx.map fun x => (x.1, incoming.length + x.2) := List.zipIdx_eq_map_add
  rw [List.zipIdx_append, List.filterMap_append, Nat.zero_add, hplaces, List.filterMap_map,
    List.map_filterMap]
  congr 1
  refine List.filterMap_congr fun x _ => ?_
  simp only [Function.comp_apply, Option.map_map, Nat.add_comm incoming.length]
  rfl

theorem lt_of_mem_placed {x : Token × Nat} (h : x ∈ placed incoming length) :
    x.2 < incoming.length := by
  obtain ⟨t, ht, -⟩ := mem_placed.mp h
  exact (List.getElem?_eq_some_iff.mp ht).1

theorem filter_inOrder_left (incoming others : List Token) (length : Nat) :
    (inOrder (incoming ++ others) length).filter (fun x => decide (x.2 < incoming.length)) =
      inOrder incoming length := by
  unfold inOrder
  rw [filter_mergeSort_start (pairwise_placed _ _), placed_append, List.filter_append,
    List.filter_eq_self.mpr fun x hx => by simpa using lt_of_mem_placed hx,
    List.filter_eq_nil_iff.mpr fun x hx => ?_, List.append_nil]
  obtain ⟨y, -, rfl⟩ := List.mem_map.mp hx
  simp

theorem filter_inOrder_right (incoming others : List Token) (length : Nat) :
    (inOrder (incoming ++ others) length).filter (fun x => !decide (x.2 < incoming.length)) =
      (inOrder others length).map fun x => (x.1, x.2 + incoming.length) := by
  unfold inOrder
  rw [filter_mergeSort_start (pairwise_placed _ _), placed_append, List.filter_append,
    List.filter_eq_nil_iff.mpr fun x hx => by simpa using lt_of_mem_placed hx,
    List.filter_eq_self.mpr fun x hx => ?_, List.nil_append]
  · refine (List.map_mergeSort ?_).symm
    exact fun a _ b _ => rfl
  · obtain ⟨y, -, rfl⟩ := List.mem_map.mp hx
    simp

/-! ## Two batches -/

theorem lay_eq_foldl_inOrder (h : Ordered tokens) (incoming : List Token) (length : Nat) :
    lay tokens incoming length =
      (inOrder incoming length).foldl (fun tokens x => overlay tokens x.1) tokens := by
  rw [lay_eq_foldl h, List.foldl_map, batch, List.foldl_map]

theorem fst_mem_of_mem_inOrder {x : Token × Nat} (h : x ∈ inOrder incoming length) :
    x.1 ∈ incoming.filterMap (clampTo length) := by
  obtain ⟨t, ht, hclamp⟩ := mem_inOrder.mp h
  exact List.mem_filterMap.mpr ⟨t, List.mem_of_getElem? ht, hclamp⟩

/-- Inside the text no token of one batch overlaps a token of the other. -/
def Independent (length : Nat) (incoming others : List Token) : Prop :=
  ∀ a ∈ incoming.filterMap (clampTo length), ∀ b ∈ others.filterMap (clampTo length), Apart a b

theorem Independent.overlay_comm (h : Independent length incoming others)
    {x y : Token × Nat} (hx : x ∈ inOrder (incoming ++ others) length)
    (hy : y ∈ inOrder (incoming ++ others) length) (hx' : x.2 < incoming.length)
    (hy' : ¬ y.2 < incoming.length) (z : List Token) :
    overlay (overlay z x.1) y.1 = overlay (overlay z y.1) x.1 := by
  have hfirst : x ∈ inOrder incoming length := by
    rw [← filter_inOrder_left incoming others length]
    exact List.mem_filter.mpr ⟨hx, decide_eq_true hx'⟩
  have hsecond : y ∈ (inOrder others length).map fun x => (x.1, x.2 + incoming.length) := by
    rw [← filter_inOrder_right incoming others length]
    exact List.mem_filter.mpr ⟨hy, by simpa using hy'⟩
  obtain ⟨w, hw, rfl⟩ := List.mem_map.mp hsecond
  have ha := fst_mem_of_mem_inOrder hfirst
  have hb := fst_mem_of_mem_inOrder hw
  obtain ⟨t, -, ht⟩ := List.mem_filterMap.mp ha
  obtain ⟨u, -, hu⟩ := List.mem_filterMap.mp hb
  exact Coverage.overlay_comm z (clampTo_eq_some ht).1 (clampTo_eq_some hu).1 (h _ ha _ hb)

theorem Independent.lay_append (h : Independent length incoming others)
    (hordered : Ordered tokens) :
    lay tokens (incoming ++ others) length = lay (lay tokens incoming length) others length := by
  rw [lay_eq_foldl_inOrder hordered, lay_eq_foldl_inOrder (ordered_lay hordered _ _),
    lay_eq_foldl_inOrder hordered,
    foldl_partition (p := fun x => decide (x.2 < incoming.length)) fun x hx y hy hx' hy' z => ?_,
    filter_inOrder_left, filter_inOrder_right, List.foldl_map]
  exact (h.overlay_comm hy hx (of_decide_eq_true hy') (of_decide_eq_false hx') z).symm

theorem Independent.lay_append' (h : Independent length incoming others)
    (hordered : Ordered tokens) :
    lay tokens (incoming ++ others) length = lay (lay tokens others length) incoming length := by
  rw [lay_eq_foldl_inOrder hordered, lay_eq_foldl_inOrder (ordered_lay hordered _ _),
    lay_eq_foldl_inOrder hordered,
    foldl_partition (p := fun x => !decide (x.2 < incoming.length)) fun x hx y hy hx' hy' z => ?_]
  · simp only [Bool.not_not]
    rw [filter_inOrder_left, filter_inOrder_right, List.foldl_map]
  · simp only [Bool.not_eq_false', Bool.not_eq_true', decide_eq_true_eq,
      decide_eq_false_iff_not] at hx' hy'
    exact h.overlay_comm hx hy hx' hy' z

end CodePane.Coverage

import CodePane.Proofs.Coverage.Runs
import Mathlib.Algebra.Group.Nat.Defs
import Mathlib.Data.List.Permutation

/-!
# Who owns an offset

Of all tokens laid over a coverage at once, the one that begins last owns the offsets that it
covers, and of those that begin together the one that comes last. What none of them covers stays
with the token of the coverage.

1. `Owner`, `Owns`: the owner of an offset, said of the two lists as they are given.
2. `placed`, `pairwise_mergeSort_start`: the incoming tokens with their places, and the order in
   which they are laid.
3. `renders_lay`: laying gives exactly the longest runs of offsets with one owner.
-/

namespace CodePane.Coverage

/-! ## Owners -/

/-- A token by its place: one of those that are laid, or one of the coverage below. -/
inductive Owner where
  | incoming (i : Nat)
  | existing (i : Nat)
  deriving DecidableEq, Repr

def Owner.token? (tokens incoming : List Token) : Owner → Option Token
  | .incoming i => incoming[i]?
  | .existing i => tokens[i]?

def Owner.looks (tokens incoming : List Token) (o : Owner) : Option (TokenClass × Style) :=
  (o.token? tokens incoming).map look

/-- Incoming token `t` at place `i` covers an offset inside a text of `length` bytes. -/
def Reaches (incoming : List Token) (length pos i : Nat) (t : Token) : Prop :=
  incoming[i]? = some t ∧ t.Covers pos ∧ pos < length

/-- The owner of an offset: of the incoming tokens that reach it the one that begins last, and of
those that begin together the last one; if none reaches it, the token of the coverage there. -/
def Owns (tokens incoming : List Token) (length pos : Nat) : Owner → Prop
  | .incoming i => ∃ t, Reaches incoming length pos i t ∧
      ∀ j u, Reaches incoming length pos j u → u.start < t.start ∨ u.start = t.start ∧ j ≤ i
  | .existing i => (∀ j u, ¬ Reaches incoming length pos j u) ∧
      ∃ t, tokens[i]? = some t ∧ t.Covers pos

/-! ## The coverage below -/

/-- The ownership before anything is laid. -/
def ownsBelow (tokens : List Token) (pos : Nat) : Owner → Prop
  | .incoming _ => False
  | .existing i => ∃ t, tokens[i]? = some t ∧ t.Covers pos

theorem place_unique {tokens : List Token} (h : Ordered tokens) {pos i j : Nat} {t u : Token}
    (hi : tokens[i]? = some t) (hj : tokens[j]? = some u) (ht : t.Covers pos) (hu : u.Covers pos) :
    i = j := by
  obtain ⟨hil, rfl⟩ := List.getElem?_eq_some_iff.mp hi
  obtain ⟨hjl, rfl⟩ := List.getElem?_eq_some_iff.mp hj
  have hpair := List.pairwise_iff_getElem.mp h.1
  by_contra hne
  rcases Nat.lt_or_gt_of_ne hne with hlt | hlt
  · have := hpair i j hil hjl hlt
    have := ht.2
    have := hu.1
    omega
  · have := hpair j i hjl hil hlt
    have := ht.1
    have := hu.2
    omega

theorem renders_ownsBelow {tokens : List Token} (h : Ordered tokens) (incoming : List Token) :
    Renders (ownsBelow tokens) (Owner.looks tokens incoming) tokens where
  unique pos a b ha hb := by
    cases a with
    | incoming i => exact ha.elim
    | existing i =>
      cases b with
      | incoming j => exact hb.elim
      | existing j =>
        obtain ⟨t, hi, ht⟩ := ha
        obtain ⟨u, hj, hu⟩ := hb
        rw [place_unique h hi hj ht hu]
  ordered := h
  runs t ht := by
    obtain ⟨i, hi⟩ := List.mem_iff_getElem?.mp ht
    have hcovers : ∀ pos, ownsBelow tokens pos (.existing i) → t.Covers pos := by
      rintro pos ⟨u, hu, hcover⟩
      obtain rfl := Option.some.inj (hu.symm.trans hi)
      exact hcover
    refine ⟨.existing i, ⟨?_, fun pos h₁ h₂ => ⟨t, hi, h₁, h₂⟩, fun pos hpos hown => ?_,
      fun hown => Nat.lt_irrefl _ (hcovers _ hown).2⟩, ?_⟩
    · have := h.2 t ht
      unfold Token.stop
      omega
    · have := (hcovers pos hown).1
      omega
    · show tokens[i]?.map look = some (look t)
      rw [hi]
      rfl
  covered pos o hown := by
    cases o with
    | incoming i => exact hown.elim
    | existing i =>
      obtain ⟨t, hi, hcover⟩ := hown
      exact ⟨t, List.mem_of_getElem? hi, hcover⟩

/-! ## The order of laying -/

/-- The incoming tokens clamped to the text, without the empty ones, each with its place. -/
def placed (incoming : List Token) (length : Nat) : List (Token × Nat) :=
  incoming.zipIdx.filterMap fun x => (clampTo length x.1).map fun t => (t, x.2)

theorem map_fst_placed (incoming : List Token) (length : Nat) :
    (placed incoming length).map Prod.fst = incoming.filterMap (clampTo length) := by
  unfold placed
  conv_rhs => rw [← List.zipIdx_map_fst 0 incoming]
  rw [List.map_filterMap, List.filterMap_map]
  refine List.filterMap_congr fun x _ => ?_
  simp only [Option.map_map, Function.comp_apply]
  exact Option.map_id'

theorem mem_placed {incoming : List Token} {length : Nat} {x : Token × Nat} :
    x ∈ placed incoming length ↔
      ∃ t, incoming[x.2]? = some t ∧ clampTo length t = some x.1 := by
  unfold placed
  simp only [List.mem_filterMap, List.mem_zipIdx_iff_getElem?, Option.map_eq_some_iff]
  constructor
  · rintro ⟨⟨t, i⟩, ht, u, hu, rfl⟩
    exact ⟨t, ht, hu⟩
  · rintro ⟨t, ht, hu⟩
    exact ⟨(t, x.2), ht, x.1, hu, rfl⟩

theorem pairwise_placed (incoming : List Token) (length : Nat) :
    (placed incoming length).Pairwise fun a b => a.2 < b.2 := by
  have hzip : incoming.zipIdx.Pairwise fun a b => a.2 < b.2 := by
    have hplaces : (incoming.zipIdx.map Prod.snd).Pairwise (· < ·) := by
      rw [List.zipIdx_map_snd]
      exact List.pairwise_lt_range'
    exact List.pairwise_map.mp hplaces
  refine hzip.filterMap _ fun a b hab a' ha' b' hb' => ?_
  obtain ⟨t, -, rfl⟩ := Option.map_eq_some_iff.mp ha'
  obtain ⟨u, -, rfl⟩ := Option.map_eq_some_iff.mp hb'
  exact hab

theorem pairwise_mergeSort_start {batch : List (Token × Nat)}
    (h : batch.Pairwise fun a b => a.2 < b.2) :
    (batch.mergeSort fun a b => decide (a.1.start ≤ b.1.start)).Pairwise fun a b =>
      a.1.start < b.1.start ∨ a.1.start = b.1.start ∧ a.2 < b.2 := by
  have htrans : ∀ a b c : Token × Nat, decide (a.1.start ≤ b.1.start) = true →
      decide (b.1.start ≤ c.1.start) = true → decide (a.1.start ≤ c.1.start) = true := by
    intro a b c hab hbc
    simp only [decide_eq_true_eq] at *
    exact Nat.le_trans hab hbc
  have htotal : ∀ a b : Token × Nat,
      (decide (a.1.start ≤ b.1.start) || decide (b.1.start ≤ a.1.start)) = true := by
    intro a b
    simp only [Bool.or_eq_true, decide_eq_true_eq]
    exact Nat.le_total _ _
  induction batch with
  | nil => simp
  | cons a batch ih =>
    obtain ⟨hfirst, hrest⟩ := List.pairwise_cons.mp h
    obtain ⟨l₁, l₂, hsort, hsplit, hbefore⟩ := List.mergeSort_cons htrans htotal a batch
    have hsorted := List.pairwise_mergeSort htrans htotal (a :: batch)
    have hlater := ih hrest
    rw [hsort] at hsorted ⊢
    rw [hsplit] at hlater
    obtain ⟨h₁, h₂, h₁₂⟩ := List.pairwise_append.mp hlater
    have hmem : ∀ b ∈ l₂, b ∈ batch := fun b hb =>
      List.mem_mergeSort.mp (hsplit ▸ List.mem_append_right l₁ hb)
    -- `a` comes before all of the batch, and is put before all that begin no earlier
    have hafter : ∀ b ∈ l₂, a.1.start < b.1.start ∨ a.1.start = b.1.start ∧ a.2 < b.2 := by
      intro b hb
      have hle := (List.pairwise_cons.mp (List.pairwise_append.mp hsorted).2.1).1 b hb
      have hlt := hfirst b (hmem b hb)
      simp only [decide_eq_true_eq] at hle
      omega
    refine List.pairwise_append.mpr ⟨h₁, List.pairwise_cons.mpr ⟨hafter, h₂⟩, fun b hb c hc => ?_⟩
    rcases List.mem_cons.mp hc with rfl | hc
    · have := hbefore b hb
      simp only [Bool.not_eq_true', decide_eq_false_iff_not] at this
      omega
    · exact h₁₂ b hb c hc

/-! ## The owner after laying -/

theorem clampTo_inv {length : Nat} {t u : Token} (h : clampTo length t = some u) :
    min t.start length < min t.stop length ∧
      u = { t with
        start := min t.start length
        length := min t.stop length - min t.start length } := by
  unfold clampTo at h
  simp only at h
  split_ifs at h with hlt
  exact ⟨hlt, (Option.some.inj h).symm⟩

theorem clampTo_covers {length pos : Nat} {t u : Token} (h : clampTo length t = some u) :
    u.Covers pos ↔ t.Covers pos ∧ pos < length := by
  obtain ⟨hlt, rfl⟩ := clampTo_inv h
  simp only [Token.Covers, Token.stop] at *
  omega

theorem clampTo_start {length pos : Nat} {t u : Token} (h : clampTo length t = some u)
    (hpos : u.Covers pos) : u.start = t.start := by
  have hcover := (clampTo_covers h).mp hpos
  obtain ⟨-, rfl⟩ := clampTo_inv h
  simp only [Token.Covers] at hcover ⊢
  omega

theorem clampTo_look {length : Nat} {t u : Token} (h : clampTo length t = some u) :
    look u = look t := by
  obtain ⟨-, rfl⟩ := clampTo_inv h
  rfl

theorem exists_clampTo {length pos : Nat} {t : Token} (ht : t.Covers pos) (hpos : pos < length) :
    ∃ u, clampTo length t = some u := by
  unfold clampTo
  unfold Token.Covers at ht
  exact ⟨_, if_pos (by omega)⟩

/-- The tokens that are laid with their places, in the order of laying. -/
def inOrder (incoming : List Token) (length : Nat) : List (Token × Nat) :=
  (placed incoming length).mergeSort fun a b => decide (a.1.start ≤ b.1.start)

theorem map_fst_inOrder (incoming : List Token) (length : Nat) :
    (inOrder incoming length).map Prod.fst = sortByStart (incoming.filterMap (clampTo length)) := by
  unfold inOrder sortByStart
  rw [← map_fst_placed]
  exact List.map_mergeSort fun a _ b _ => rfl

theorem mem_inOrder {incoming : List Token} {length : Nat} {x : Token × Nat} :
    x ∈ inOrder incoming length ↔ ∃ t, incoming[x.2]? = some t ∧ clampTo length t = some x.1 :=
  List.mem_mergeSort.trans mem_placed

/-- The tokens in the order of laying with their owners. -/
def batch (incoming : List Token) (length : Nat) : List (Token × Owner) :=
  (inOrder incoming length).map fun x => (x.1, .incoming x.2)

/-- What covers an offset among the tokens that are laid: the clamped parts of those that reach
it. -/
theorem mem_filter_inOrder {incoming : List Token} {length pos : Nat} {x : Token × Nat} :
    x ∈ (inOrder incoming length).filter (fun x => x.1.Covers pos) ↔
      ∃ t, Reaches incoming length pos x.2 t ∧ clampTo length t = some x.1 := by
  rw [List.mem_filter, mem_inOrder, decide_eq_true_eq]
  constructor
  · rintro ⟨⟨t, ht, hclamp⟩, hcover⟩
    exact ⟨t, ⟨ht, (clampTo_covers hclamp).mp hcover⟩, hclamp⟩
  · rintro ⟨t, ⟨ht, hcover⟩, hclamp⟩
    exact ⟨⟨t, ht, hclamp⟩, (clampTo_covers hclamp).mpr hcover⟩

/-- Laying the tokens in order gives every offset to its owner. -/
theorem laidOverAll_batch (tokens incoming : List Token) (length pos : Nat) (o : Owner) :
    laidOverAll (batch incoming length) (ownsBelow tokens) pos o ↔
      Owns tokens incoming length pos o := by
  have hmap : ((batch incoming length).filter fun x => x.1.Covers pos).getLast? =
      ((inOrder incoming length).filter fun x => x.1.Covers pos).getLast?.map
        fun x => (x.1, .incoming x.2) := by
    unfold batch
    rw [List.filter_map, List.getLast?_map]
    rfl
  rw [laidOverAll_iff, hmap]
  cases hlast : ((inOrder incoming length).filter fun x => x.1.Covers pos).getLast? with
  | none =>
    have hempty := List.getLast?_eq_none_iff.mp hlast
    have hnone : ∀ j u, ¬ Reaches incoming length pos j u := by
      intro j u hu
      obtain ⟨v, hv⟩ := exists_clampTo hu.2.1 hu.2.2
      have hmem := (mem_filter_inOrder (x := (v, j))).mpr ⟨u, hu, hv⟩
      rw [hempty] at hmem
      exact List.not_mem_nil hmem
    cases o with
    | incoming i => exact ⟨False.elim, fun ⟨t, ht, _⟩ => hnone i t ht⟩
    | existing i => exact ⟨fun h => ⟨hnone, h⟩, And.right⟩
  | some x =>
    obtain ⟨init, hinit⟩ := List.getLast?_eq_some_iff.mp hlast
    obtain ⟨t, ht, hclamp⟩ := mem_filter_inOrder.mp (hinit ▸ List.mem_append_right init
      (List.mem_singleton_self x))
    have hstart := clampTo_start hclamp ((clampTo_covers hclamp).mpr ht.2)
    -- the last token that covers the offset begins last
    have htop : ∀ j u, Reaches incoming length pos j u →
        u.start < t.start ∨ u.start = t.start ∧ j ≤ x.2 := by
      intro j u hu
      obtain ⟨v, hv⟩ := exists_clampTo hu.2.1 hu.2.2
      have hvstart := clampTo_start hv ((clampTo_covers hv).mpr hu.2)
      have hmem := (mem_filter_inOrder (x := (v, j))).mpr ⟨u, hu, hv⟩
      have hpair := (pairwise_mergeSort_start (pairwise_placed incoming length)).filter
        (fun x => x.1.Covers pos)
      rw [show (placed incoming length).mergeSort _ = inOrder incoming length from rfl,
        hinit] at hpair
      rw [hinit] at hmem
      rcases List.mem_append.mp hmem with hmem | hmem
      · have := (List.pairwise_append.mp hpair).2.2 _ hmem x (List.mem_singleton_self x)
        simp only at this
        omega
      · obtain rfl := List.mem_singleton.mp hmem
        simp only at hstart ⊢
        omega
    show o = .incoming x.2 ↔ _
    cases o with
    | incoming i =>
      constructor
      · intro hi
        obtain rfl : i = x.2 := Owner.incoming.inj hi
        exact ⟨t, ht, htop⟩
      · rintro ⟨u, hu, hutop⟩
        have := htop i u hu
        have := hutop x.2 t ht
        rw [show i = x.2 by omega]
    | existing i => exact ⟨Owner.noConfusion, fun h => absurd ht (h.1 x.2 t)⟩

/-! ## Laying -/

theorem lay_eq_foldl {tokens : List Token} (h : Ordered tokens) (incoming : List Token)
    (length : Nat) :
    lay tokens incoming length =
      ((batch incoming length).map Prod.fst).foldl overlay tokens := by
  have hfst : (batch incoming length).map Prod.fst =
      sortByStart (incoming.filterMap (clampTo length)) := by
    unfold batch
    rw [List.map_map, ← map_fst_inOrder]
    rfl
  rw [hfst]
  refine laySorted_eq_foldl h ?_ fun t ht => ?_
  · rw [← map_fst_inOrder, List.pairwise_map]
    refine (pairwise_mergeSort_start (pairwise_placed incoming length)).imp fun {a b} hab => ?_
    omega
  · obtain ⟨u, -, hu⟩ := List.mem_filterMap.mp (List.mem_mergeSort.mp ht)
    exact (clampTo_eq_some hu).1

/-- Laying tokens over a coverage renders the ownership that the two lists give. -/
theorem renders_lay {tokens : List Token} (h : Ordered tokens) (incoming : List Token)
    (length : Nat) :
    Renders (Owns tokens incoming length) (Owner.looks tokens incoming)
      (lay tokens incoming length) := by
  have howns : Owns tokens incoming length =
      laidOverAll (batch incoming length) (ownsBelow tokens) := by
    funext pos o
    exact propext (laidOverAll_batch tokens incoming length pos o).symm
  rw [howns, lay_eq_foldl h]
  have hbatch : ∀ x ∈ batch incoming length, ∃ i t, x.2 = .incoming i ∧
      incoming[i]? = some t ∧ clampTo length t = some x.1 := by
    intro x hx
    obtain ⟨y, hy, rfl⟩ := List.mem_map.mp hx
    obtain ⟨t, ht, hclamp⟩ := mem_inOrder.mp hy
    exact ⟨y.2, t, rfl, ht, hclamp⟩
  refine (renders_ownsBelow h incoming).overlaidAll (fun x hx => ?_) (fun x hx pos hown => ?_)
    ?_ (fun x hx => ?_)
  · obtain ⟨i, t, -, -, hclamp⟩ := hbatch x hx
    exact (clampTo_eq_some hclamp).1
  · obtain ⟨i, t, ho, -, -⟩ := hbatch x hx
    rw [ho] at hown
    exact hown
  · unfold batch
    rw [List.pairwise_map]
    have hperm := List.mergeSort_perm (placed incoming length)
      fun a b => decide (a.1.start ≤ b.1.start)
    refine List.Perm.pairwise hperm.symm ((pairwise_placed incoming length).imp ?_) ?_
    · intro a b hab heq
      have := Owner.incoming.inj heq
      omega
    · exact fun {a b} hab heq => hab heq.symm
  · obtain ⟨i, t, ho, ht, hclamp⟩ := hbatch x hx
    show (x.2.token? tokens incoming).map look = some (look x.1)
    rw [ho]
    show incoming[i]?.map look = _
    rw [ht, Option.map_some, clampTo_look hclamp]

theorem ordered_lay {tokens : List Token} (h : Ordered tokens) (incoming : List Token)
    (length : Nat) : Ordered (lay tokens incoming length) :=
  (renders_lay h incoming length).ordered

end CodePane.Coverage

import CodePane.Proofs.Coverage.Owner

/-!
# Laying what is there already

A coverage is determined by the ownership that it renders. So laying changes nothing where every
offset has the owner already that it would get: tokens may be laid a second time, and tokens that
are a coverage come out as they went in.

1. `Renders.eq`: an ownership has one coverage.
2. `renders_relaid`, `lay_lay`: the same tokens, laid a second time.
3. `foldl_overlay_behind`: tokens in order, laid one by one over nothing.
4. `OfLength`: coverages of a text, which laying keeps (`OfLength.lay`) and which come out of it as
   they went in (`OfLength.ofTokens_eq`).
-/

namespace CodePane.Coverage

variable {tokens incoming : List Token} {length : Nat} {t : Token}

/-! ## Coverages with the same tokens -/

namespace Ordered

theorem pairwise_start (h : Ordered tokens) : tokens.Pairwise fun a b => a.start < b.start := by
  refine h.1.imp_of_mem fun {a b} ha _ hab => ?_
  have hfilled := h.2 a ha
  unfold Token.stop at hab
  omega

theorem nodup (h : Ordered tokens) : tokens.Nodup := by
  refine h.pairwise_start.imp fun {a b} hab => ?_
  rintro rfl
  exact Nat.lt_irrefl _ hab

theorem eq_of_mem_iff {others : List Token} (h : Ordered tokens) (h' : Ordered others)
    (hmem : ∀ t, t ∈ tokens ↔ t ∈ others) : tokens = others := by
  have hperm : tokens.Perm others := (List.perm_ext_iff_of_nodup h.nodup h'.nodup).mpr hmem
  refine hperm.eq_of_pairwise ?_ h.pairwise_start h'.pairwise_start
  intro a b _ _ hab hba
  exact absurd hab (Nat.lt_asymm hba)

end Ordered

/-- An ownership has one coverage. -/
theorem Renders.eq {ι : Type} {owns : Nat → ι → Prop} {looks : ι → Option (TokenClass × Style)}
    {others : List Token} (h : Renders owns looks tokens) (h' : Renders owns looks others) :
    tokens = others :=
  h.ordered.eq_of_mem_iff h'.ordered fun t => (h.mem_iff t).trans (h'.mem_iff t).symm

/-! ## The same tokens a second time -/

/-- A coverage on which tokens have been laid renders what laying them again asks for. What an
incoming token owns does not depend on the coverage below, and any other run is a token of the new
coverage now, which owns it in place of the old one. -/
theorem renders_relaid (h : Ordered tokens) (incoming : List Token) (length : Nat) :
    Renders (Owns (lay tokens incoming length) incoming length)
      (Owner.looks (lay tokens incoming length) incoming) (lay tokens incoming length) := by
  have hlaid := renders_lay h incoming length
  constructor
  case unique => exact (renders_lay hlaid.ordered incoming length).unique
  case ordered => exact hlaid.ordered
  case runs =>
    intro t ht
    obtain ⟨o, hrun, hlook⟩ := hlaid.runs t ht
    cases o with
    | incoming i => exact ⟨.incoming i, ⟨hrun.lt, hrun.inside, hrun.left, hrun.right⟩, hlook⟩
    | existing i =>
      obtain ⟨j, hj⟩ := List.mem_iff_getElem?.mp ht
      have hcovers : ∀ pos, Owns (lay tokens incoming length) incoming length pos (.existing j) →
          t.Covers pos := by
        rintro pos ⟨-, u, hu, hcover⟩
        obtain rfl := Option.some.inj (hu.symm.trans hj)
        exact hcover
      refine ⟨.existing j, ⟨hrun.lt, ?_, ?_, ?_⟩, ?_⟩
      · intro pos h₁ h₂
        exact ⟨(hrun.inside pos h₁ h₂).1, t, hj, h₁, h₂⟩
      · intro pos hpos hown
        have := (hcovers pos hown).1
        omega
      · intro hown
        exact Nat.lt_irrefl _ (hcovers _ hown).2
      · show (lay tokens incoming length)[j]?.map look = some (look t)
        rw [hj, Option.map_some]
  case covered =>
    intro pos o hown
    cases o with
    | incoming i => exact hlaid.covered pos (.incoming i) hown
    | existing j =>
      obtain ⟨-, t, hj, hcover⟩ := hown
      exact ⟨t, List.mem_of_getElem? hj, hcover⟩

theorem lay_lay (h : Ordered tokens) (incoming : List Token) (length : Nat) :
    lay (lay tokens incoming length) incoming length = lay tokens incoming length :=
  (renders_lay (ordered_lay h incoming length) incoming length).eq
    (renders_relaid h incoming length)

/-! ## Tokens in order -/

theorem clampTo_of_stop_le (hl : 0 < t.length) (h : t.stop ≤ length) :
    clampTo length t = some t := by
  unfold clampTo Token.stop at *
  simp only
  rw [Nat.min_eq_left h, Nat.min_eq_left (by omega), if_pos (by omega), Nat.add_sub_cancel_left]

theorem sortByStart_of_ordered (h : Ordered tokens) : sortByStart tokens = tokens := by
  refine List.mergeSort_of_pairwise (h.pairwise_start.imp fun {a b} hab => ?_)
  exact decide_eq_true (Nat.le_of_lt hab)

/-- A token behind all others is put at the end. -/
theorem overlay_behind (hfilled : ∀ u ∈ tokens, 0 < u.length)
    (h : ∀ u ∈ tokens, u.stop ≤ t.start) : overlay tokens t = tokens ++ [t] := by
  have hbefore : tokens.filterMap (before t.start) = tokens :=
    filterMap_eq_self fun u hu => before_of_stop_le (hfilled u hu) (h u hu)
  have hafter : tokens.filterMap (after t.stop) = [] := by
    refine List.filterMap_eq_nil_iff.mpr fun u hu => after_of_stop_le ?_
    have := h u hu
    unfold Token.stop at *
    omega
  unfold overlay
  rw [hbefore, hafter]

theorem foldl_overlay_behind (h : Ordered (tokens ++ incoming)) :
    incoming.foldl overlay tokens = tokens ++ incoming := by
  induction incoming generalizing tokens with
  | nil => exact (List.append_nil tokens).symm
  | cons t incoming ih =>
    have hstep : overlay tokens t = tokens ++ [t] :=
      overlay_behind (fun u hu => h.2 u (List.mem_append_left _ hu)) fun u hu =>
        (List.pairwise_append.mp h.1).2.2 u hu t List.mem_cons_self
    rw [List.append_cons] at h ⊢
    rw [List.foldl_cons, hstep, ih h]

/-! ## Coverages of a text -/

/-- The tokens are a coverage of a text of `length` bytes. -/
structure OfLength (length : Nat) (tokens : List Token) : Prop where
  ordered : Ordered tokens
  inside : ∀ t ∈ tokens, t.stop ≤ length

namespace OfLength

theorem nil (length : Nat) : OfLength length [] :=
  ⟨⟨List.Pairwise.nil, List.forall_mem_nil _⟩, List.forall_mem_nil _⟩

/-- Laying tokens keeps a coverage of the text, whatever they are. The last offset of a token has an
owner, and owners are inside the text. -/
theorem lay (h : OfLength length tokens) (incoming : List Token) :
    OfLength length (Coverage.lay tokens incoming length) := by
  refine ⟨ordered_lay h.ordered incoming length, ?_⟩
  intro t ht
  obtain ⟨o, hrun, -⟩ := (renders_lay h.ordered incoming length).runs t ht
  have hlt := hrun.lt
  have hlast : t.stop - 1 < length := by
    have hown := hrun.inside (t.stop - 1) (by omega) (by omega)
    cases o with
    | incoming i =>
      obtain ⟨u, ⟨-, -, hpos⟩, -⟩ := hown
      exact hpos
    | existing i =>
      obtain ⟨-, u, hi, hcover⟩ := hown
      exact Nat.lt_of_lt_of_le hcover.2 (h.inside u (List.mem_of_getElem? hi))
  omega

theorem ofTokens (tokens : List Token) (length : Nat) :
    OfLength length (Coverage.ofTokens tokens length) :=
  (nil length).lay tokens

/-- **Tokens that are a coverage of the text come out as they went in.** -/
theorem ofTokens_eq (h : OfLength length tokens) : Coverage.ofTokens tokens length = tokens := by
  have hclamped : tokens.filterMap (clampTo length) = tokens :=
    filterMap_eq_self fun t ht => clampTo_of_stop_le (h.ordered.2 t ht) (h.inside t ht)
  have hsorted := h.ordered.pairwise_start.imp fun {a b} hab => Nat.le_of_lt hab
  unfold Coverage.ofTokens Coverage.lay
  rw [hclamped, sortByStart_of_ordered h.ordered,
    laySorted_eq_foldl (nil length).ordered hsorted h.ordered.2]
  exact foldl_overlay_behind h.ordered

end OfLength

end CodePane.Coverage

import CodePane.Proofs.Theme.Colors
import CodePane.Settings.Check

/-!
# Overrides in settings and in themes

Settings are refused for an override of no class or of no colour; a theme passes over it. Both tell
the same overrides apart, and a theme of accepted ones shows every class in its own colour, since no
name comes twice.

1. `IsOverride`, `Theme.isSome_override?_iff`: the overrides that mean something.
2. `Theme.apply`, `Theme.Ignores`, `Theme.ignores_iff`: one override after the other.
3. `Theme.color_ofOverrides`: the colour of a class.
4. `Settings.problem?_eq_or`, `Settings.problem?_eq_none_iff`: what settings are refused for.
5. `Settings.overrides_agree`: the two together.
-/

namespace CodePane

variable {entry : String × String} {c : TokenClass} {color : Color} {n : String}

theorem TokenClass.ofName?_eq_some_iff : ofName? n = some c ↔ c.name = n := by
  constructor
  · intro h
    unfold ofName? at h
    have hfound := List.find?_some h
    exact beq_iff_eq.mp hfound
  · rintro rfl
    exact ofName?_name c

theorem TokenClass.name_injective {c c' : TokenClass} (h : c.name = c'.name) : c = c' := by
  have hread := ofName?_name c
  rw [h, ofName?_name] at hread
  exact (Option.some.inj hread).symm

/-- An override as it has to be: the name of a class and the text of a colour. -/
structure IsOverride (entry : String × String) : Prop where
  named : ∃ c : TokenClass, c.name = entry.1
  colored : Color.IsText entry.2

namespace Theme

theorem override?_eq_some_iff : override? entry = some (c, color) ↔
    c.name = entry.1 ∧ Color.ofHex? entry.2 = some color := by
  simp only [override?, Option.bind_eq_bind, Option.pure_def, Option.bind_eq_some_iff,
    Option.some.injEq, Prod.mk.injEq, TokenClass.ofName?_eq_some_iff]
  constructor
  · rintro ⟨_, hname, _, hcolor, rfl, rfl⟩
    exact ⟨hname, hcolor⟩
  · rintro ⟨hname, hcolor⟩
    exact ⟨c, hname, color, hcolor, rfl, rfl⟩

theorem isSome_override?_iff : (override? entry).isSome = true ↔ IsOverride entry := by
  constructor
  · intro h
    obtain ⟨⟨c, color⟩, hentry⟩ := Option.isSome_iff_exists.mp h
    obtain ⟨hname, hcolor⟩ := override?_eq_some_iff.mp hentry
    exact ⟨⟨c, hname⟩, Color.isSome_ofHex?_iff.mp (Option.isSome_of_eq_some hcolor)⟩
  · rintro ⟨⟨c, hname⟩, hcolored⟩
    obtain ⟨color, hcolor⟩ := Option.isSome_iff_exists.mp (Color.isSome_ofHex?_iff.mpr hcolored)
    exact Option.isSome_of_eq_some (override?_eq_some_iff.mpr ⟨hname, hcolor⟩)

/-! ## One override after the other -/

/-- The theme with one more override. -/
def apply (t : Theme) (entry : String × String) : Theme :=
  match override? entry with
  | some (c, color) => t.set c color
  | none => t

/-- The override changes no theme. -/
def Ignores (entry : String × String) : Prop := ∀ t : Theme, t.apply entry = t

/-- An override gives its colour to its own class. -/
theorem color_apply (t : Theme) (entry : String × String) (c : TokenClass) :
    (t.apply entry).color c =
      if c.name = entry.1 then (Color.ofHex? entry.2).getD (t.color c) else t.color c := by
  unfold apply
  cases hentry : override? entry with
  | none =>
    show t.color c = _
    split
    · next hname =>
      cases hcolor : Color.ofHex? entry.2 with
      | none => rfl
      | some color =>
        rw [override?_eq_some_iff.mpr ⟨hname, hcolor⟩] at hentry
        cases hentry
    · rfl
  | some value =>
    obtain ⟨own, color⟩ := value
    obtain ⟨hown, hcolor⟩ := override?_eq_some_iff.mp hentry
    rw [hcolor, Option.getD_some, ← hown]
    by_cases hc : c = own
    · rw [if_pos (congrArg TokenClass.name hc)]
      exact if_pos hc
    · rw [if_neg (fun hname => hc (TokenClass.name_injective hname))]
      exact if_neg hc

theorem ignores_iff : Ignores entry ↔ ¬ IsOverride entry := by
  constructor
  · rintro h ⟨⟨c, hname⟩, hcolored⟩
    obtain ⟨color, hcolor⟩ := Option.isSome_iff_exists.mp (Color.isSome_ofHex?_iff.mpr hcolored)
    -- A theme in which the class has another colour than the override gives it.
    have hsame := congrArg (fun t : Theme => t.color c)
      (h ⟨fun _ => ⟨color.red + 1, color.green, color.blue⟩⟩)
    simp only [color_apply, hname, hcolor, if_true, Option.getD_some] at hsame
    have hred := congrArg Color.red hsame
    simp at hred
  · intro h t
    have hnone : override? entry = none := by
      rw [← Option.isNone_iff_eq_none, ← Option.isSome_eq_false_iff, ← Bool.not_eq_true]
      rwa [isSome_override?_iff]
    rw [apply, hnone]

theorem ofOverrides_eq_foldl (o : Overrides) : ofOverrides o = o.entries.foldl apply builtin := by
  unfold ofOverrides
  rw [List.foldl_filterMap]
  congr 1
  funext t entry
  rw [apply]
  cases override? entry <;> rfl

/-! ## The colour of a class -/

/-- Names in increasing order: the entry of a class is the only one to set its colour. -/
theorem color_foldl_apply {entries : List (String × String)}
    (h : entries.Pairwise fun a b => a.1 < b.1) (t : Theme) (c : TokenClass) :
    (entries.foldl apply t).color c =
      ((entries.lookup c.name).bind Color.ofHex?).getD (t.color c) := by
  induction entries generalizing t with
  | nil => rfl
  | cons entry rest ih =>
    obtain ⟨hbehind, hrest⟩ := List.pairwise_cons.mp h
    rw [List.foldl_cons, ih hrest, color_apply, List.lookup_cons]
    by_cases hname : c.name = entry.1
    · have hnone : rest.lookup c.name = none := by
        refine List.lookup_eq_none_iff.mpr fun other hother => bne_iff_ne.mpr ?_
        rw [hname]
        exact String.ne_of_lt (hbehind other hother)
      rw [if_pos hname, hnone, hname, beq_self_eq_true]
      rfl
    · rw [if_neg hname, beq_false_of_ne hname]

/-- **The colour of a class** is the one that its override says, and the built-in one if it has no
override or one that says no colour. -/
theorem color_ofOverrides (o : Overrides) (c : TokenClass) : (ofOverrides o).color c =
    ((o.entries.lookup c.name).bind Color.ofHex?).getD (builtin.color c) := by
  rw [ofOverrides_eq_foldl, color_foldl_apply o.sorted]

end Theme

namespace Settings

/-! ## What settings are refused for -/

theorem overrideProblem?_eq_none_iff : overrideProblem? entry = none ↔ IsOverride entry := by
  rw [← Theme.isSome_override?_iff, overrideProblem?, Theme.override?]
  cases TokenClass.ofName? entry.1 with
  | none => simp
  | some c => cases Color.ofHex? entry.2 <;> simp

theorem problem?_eq_or (s : Settings) : s.problem? =
    ({ s with colors := .empty }.problem?).or (s.colors.entries.findSome? overrideProblem?) := by
  unfold problem?
  split_ifs <;> rfl

theorem problem?_eq_none_iff {s : Settings} (hrest : { s with colors := .empty }.problem? = none) :
    s.problem? = none ↔ ∀ entry ∈ s.colors.entries, IsOverride entry := by
  rw [problem?_eq_or, hrest, Option.none_or, List.findSome?_eq_none_iff]
  exact forall₂_congr fun entry _ => overrideProblem?_eq_none_iff

/-- **Settings and themes agree about overrides.** A theme takes one after the other, and settings
are accepted if it ignores none. -/
theorem overrides_agree {s : Settings} (hrest : { s with colors := .empty }.problem? = none) :
    Theme.ofOverrides s.colors = s.colors.entries.foldl Theme.apply Theme.builtin ∧
      (s.problem? = none ↔ ∀ entry ∈ s.colors.entries, ¬ Theme.Ignores entry) ∧
      (s.problem? = none ↔ ∀ entry ∈ s.colors.entries, IsOverride entry) ∧
      (s.problem? = none → ∀ c, ((Theme.ofOverrides s.colors).color c).hexText =
        ((s.colors.entries.lookup c.name).map String.toLower).getD
          (Theme.builtin.color c).hexText) := by
  have haccepted := problem?_eq_none_iff hrest
  refine ⟨Theme.ofOverrides_eq_foldl s.colors, ?_, haccepted, fun hnone c => ?_⟩
  · rw [haccepted]
    refine forall₂_congr fun entry _ => ?_
    rw [Theme.ignores_iff, not_not]
  · rw [Theme.color_ofOverrides]
    cases hlookup : s.colors.entries.lookup c.name with
    | none => rfl
    | some value =>
      obtain ⟨before, behind, hentries, -⟩ := List.lookup_eq_some_iff.mp hlookup
      have hmem : (c.name, value) ∈ s.colors.entries := by
        rw [hentries]
        exact List.mem_append_right _ List.mem_cons_self
      have hvalid := haccepted.mp hnone _ hmem
      obtain ⟨color, hcolor⟩ := Option.isSome_iff_exists.mp
        (Color.isSome_ofHex?_iff.mpr hvalid.colored)
      rw [Option.bind_some, hcolor, Option.getD_some, Option.map_some, Option.getD_some]
      exact Color.hexText_of_ofHex? hcolor

/-- Two overrides with digits in both cases, and a class without one. -/
theorem overrides_agree_keyword :
    let s : Settings :=
      { colors := (Overrides.empty.insert "label" "#0A0b0C").insert "keyword" "#FF00aB" }
    { s with colors := .empty }.problem? = none ∧ s.problem? = none ∧
      Theme.ofOverrides s.colors = s.colors.entries.foldl Theme.apply Theme.builtin ∧
      (∀ entry ∈ s.colors.entries, ¬ Theme.Ignores entry) ∧
      ((Theme.ofOverrides s.colors).color .keyword).hexText = "#ff00ab" ∧
      ((Theme.ofOverrides s.colors).color .comment).hexText = "#898887" := by
  intro s
  have hrest : { s with colors := .empty }.problem? = none :=
    Option.isNone_iff_eq_none.mp (by decide +kernel)
  have hnone : s.problem? = none := Option.isNone_iff_eq_none.mp (by decide +kernel)
  obtain ⟨hfold, hignored, -, hcolors⟩ := overrides_agree hrest
  exact ⟨hrest, hnone, hfold, hignored.mp hnone, (hcolors hnone .keyword).trans (by decide +kernel),
    (hcolors hnone .comment).trans (by decide +kernel)⟩

end Settings

end CodePane

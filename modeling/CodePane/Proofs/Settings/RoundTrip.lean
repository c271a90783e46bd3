import CodePane.Proofs.Json.RoundTrip
import CodePane.Proofs.Text.Encoding
import CodePane.Settings.Reader
import CodePane.Settings.Writer

/-!
# Settings that are saved and loaded

Every setting is written under the name under which it is read, and in a form that says all of it.
So valid settings come out of their file as they went in. The text of a float alone is no matter of
names and forms: it is asked to be read as the float.

1. `members?_ofMembers`, `member?_of_lookup`: structures as objects of their members.
2. `word?_ofNat`, `Overrides.ofList_entries`: the values of members.
3. `ofJson?_toJson`: the value of settings.
4. `spelled_toJson`, `chars?_toUTF8`, `read_render`: files.
-/

namespace CodePane

/-! ## Overrides -/

theorem insertEntry_append {name value : String} {entries : List (String × String)}
    (h : ∀ e ∈ entries, e.1 < name) :
    insertEntry name value entries = entries ++ [(name, value)] := by
  induction entries with
  | nil => rfl
  | cons head rest ih =>
    obtain ⟨hhead, hrest⟩ := List.forall_mem_cons.mp h
    have hne : name ≠ head.1 := by
      rintro rfl
      exact String.lt_irrefl _ hhead
    rw [insertEntry, if_neg (String.lt_asymm hhead), if_neg hne, ih hrest, List.cons_append]

namespace Overrides

theorem ext {o o' : Overrides} (h : o.entries = o'.entries) : o = o' := by
  cases o
  cases o'
  congr

theorem ofList_entries (o : Overrides) : ofList o.entries = o := by
  have hfold (acc : Overrides) (entries : List (String × String))
      (h : (acc.entries ++ entries).Pairwise fun a b => a.1 < b.1) :
      (entries.foldl (fun o e => o.insert e.1 e.2) acc).entries = acc.entries ++ entries := by
    induction entries generalizing acc with
    | nil => exact (List.append_nil _).symm
    | cons e entries ih =>
      have hlast : ∀ e' ∈ acc.entries, e'.1 < e.1 := fun e' he' =>
        (List.pairwise_append.mp h).2.2 e' he' e List.mem_cons_self
      have hinsert : (acc.insert e.1 e.2).entries = acc.entries ++ [e] := insertEntry_append hlast
      rw [List.append_cons, ← hinsert] at h ⊢
      exact ih _ h
  exact ext (hfold empty o.entries o.sorted)

end Overrides

namespace Settings

open Json (ofMembers)
open Json.Reader (Spelled)

variable {α : Type} {members : List (String × Json)} {name : String} {v : Json}

/-! ## Structures -/

theorem mapM_map_eq_some {β γ : Type} {write : β → γ} {read : γ → Option β}
    (h : ∀ x, read (write x) = some x) (xs : List β) : (xs.map write).mapM read = some xs := by
  induction xs with
  | nil => rfl
  | cons x xs ih =>
    rw [List.map_cons, List.mapM_cons, h, ih]
    rfl

theorem named?_map (members : List (String × Json)) :
    named? (members.map fun (name, value) => (some name, value)) = some members := by
  unfold named?
  exact mapM_map_eq_some (fun _ => by rfl) members

/-- An object with the members of a structure and no others. -/
theorem members?_ofMembers {names : List String} (hnames : members.map Prod.fst = names)
    (hnodup : names.Nodup) : members? names (ofMembers members) = some members := by
  have hknown : members.filter (fun m => names.contains m.1) = members := by
    refine List.filter_eq_self.mpr fun m hm => List.contains_iff_mem.mpr ?_
    rw [← hnames]
    exact List.mem_map_of_mem hm
  have hdistinct : (members.map (·.1)).Nodup := hnames ▸ hnodup
  rw [ofMembers, members?, named?_map]
  simp only [Option.bind_eq_bind, Option.bind_some]
  rw [hknown, if_pos hdistinct]

theorem member?_of_lookup {read : Json → Option α} {default x : α}
    (hlookup : members.lookup name = some v) (hread : read v = some x) :
    member? members name read default = some x := by
  rw [member?, hlookup]
  exact hread

/-! ## Values -/

theorem word?_ofNat (w : UInt32) : word? (Json.ofNat w.toNat) = some w := by
  show ((Decimal.Numeral.ofNat w.toNat).toNat?.filter _).map _ = _
  rw [Decimal.Numeral.toNat?_ofNat, Option.filter_some, if_pos (decide_eq_true w.toNat_lt),
    Option.map_some, UInt32.ofNat_toNat]

theorem colors?_colorsJson (o : Overrides) : colors? (colorsJson o) = some o := by
  rw [colorsJson, ofMembers, colors?, named?_map]
  simp only [Option.bind_eq_bind, Option.bind_some]
  rw [mapM_map_eq_some]
  · simp only [Option.bind_some, Overrides.ofList_entries]
  · intro entry
    rfl

/-! ## Settings -/

theorem scroll?_scrollJson {s : ScrollSettings}
    (hfloat : (floatFormat.numeral s.minFraction).toFloat? = some s.minFraction) :
    scroll? (scrollJson s) = some s := by
  have hnodup : scrollNames.Nodup := by decide
  unfold scroll? scrollJson
  rw [members?_ofMembers (by rfl) hnodup]
  simp only [Option.bind_eq_bind, Option.bind_some]
  rw [member?_of_lookup (by rfl) hfloat, member?_of_lookup (by rfl) (word?_ofNat _),
    member?_of_lookup (by rfl) (word?_ofNat _), member?_of_lookup (by rfl) (word?_ofNat _),
    member?_of_lookup (by rfl) (word?_ofNat _), member?_of_lookup (by rfl) (word?_ofNat _)]
  rfl

theorem gutter?_gutterJson (s : GutterSettings) : gutter? (gutterJson s) = some s := by
  have hnodup : gutterNames.Nodup := by decide
  unfold gutter? gutterJson
  rw [members?_ofMembers (by rfl) hnodup]
  simp only [Option.bind_eq_bind, Option.bind_some]
  rw [member?_of_lookup (by rfl) (by rfl), member?_of_lookup (by rfl) (word?_ofNat _),
    member?_of_lookup (by rfl) (word?_ofNat _)]
  rfl

theorem cell?_cellJson (s : FallbackCell) : cell? (cellJson s) = some s := by
  have hnodup : cellNames.Nodup := by decide
  unfold cell? cellJson
  rw [members?_ofMembers (by rfl) hnodup]
  simp only [Option.bind_eq_bind, Option.bind_some]
  rw [member?_of_lookup (by rfl) (word?_ofNat _), member?_of_lookup (by rfl) (word?_ofNat _)]
  rfl

theorem ofJson?_toJson {s : Settings}
    (hfloat : (floatFormat.numeral s.scroll.minFraction).toFloat? = some s.scroll.minFraction) :
    ofJson? s.toJson = some s := by
  have hnodup : partNames.Nodup := by decide
  unfold ofJson? toJson
  rw [members?_ofMembers (by rfl) hnodup]
  simp only [Option.bind_eq_bind, Option.bind_some]
  rw [member?_of_lookup (by rfl) (scroll?_scrollJson hfloat),
    member?_of_lookup (by rfl) (gutter?_gutterJson _),
    member?_of_lookup (by rfl) (cell?_cellJson _),
    member?_of_lookup (by rfl) (colors?_colorsJson _)]
  rfl

/-! ## Files -/

theorem spelled_ofMembers (h : ∀ m ∈ members, Spelled m.2) : Spelled (ofMembers members) := by
  refine .object (fun m hm => ?_) (fun m hm => ?_)
  · obtain ⟨m, -, rfl⟩ := List.mem_map.mp hm
    exact ⟨m.1, rfl⟩
  · obtain ⟨m, hmem, rfl⟩ := List.mem_map.mp hm
    exact h m hmem

theorem spelled_ofNat (n : Nat) : Spelled (Json.ofNat n) :=
  .number (Decimal.Numeral.grammatical_ofNat n)

theorem spelled_float (x : Float) : Spelled (.number (floatFormat.numeral x)) := by
  refine .number (Decimal.Format.grammatical_numeral ?_ ?_ x)
  · rintro ds ⟨⟩
    exact Decimal.isDigits_zero
  · rintro least ⟨⟩
    decide

theorem spelled_toJson (s : Settings) : Spelled s.toJson := by
  have hscroll : Spelled (scrollJson s.scroll) := by
    refine spelled_ofMembers ?_
    simp only [List.forall_mem_cons, spelled_float, spelled_ofNat, true_and]
    exact List.forall_mem_nil _
  have hgutter : Spelled (gutterJson s.gutter) := by
    refine spelled_ofMembers ?_
    simp only [List.forall_mem_cons, Spelled.bool, spelled_ofNat, true_and]
    exact List.forall_mem_nil _
  have hcell : Spelled (cellJson s.cell) := by
    refine spelled_ofMembers ?_
    simp only [List.forall_mem_cons, spelled_ofNat, true_and]
    exact List.forall_mem_nil _
  have hcolors : Spelled (colorsJson s.colors) := by
    refine spelled_ofMembers fun m hm => ?_
    obtain ⟨entry, -, rfl⟩ := List.mem_map.mp hm
    exact .string entry.2
  refine spelled_ofMembers ?_
  simp only [List.forall_mem_cons, hscroll, hgutter, hcell, hcolors, true_and]
  exact List.forall_mem_nil _

theorem chars?_toUTF8 (text : String) : Text.chars? text.toUTF8.data.toList = some text.toList :=
  Text.chars?_eq_some_iff.mpr (Text.toUTF8_eq_encoded text)

/-- **Valid settings are loaded as they were saved:** every member is found under the name under
which it was written, and says the same, as long as the decimals of the float are read as the
float. -/
theorem read_render {s : Settings} (hvalid : s.problem? = none)
    (hfloat : (floatFormat.numeral s.scroll.minFraction).toFloat? = some s.scroll.minFraction) :
    Settings.read (some s.render.toUTF8.data.toList) = .ok s := by
  have hvalue : (Json.read? s.render.toList).bind ofJson? = some s := by
    rw [render, Json.read?_written (spelled_toJson s), Option.bind_some, ofJson?_toJson hfloat]
  rw [Settings.read, Option.bind_some, chars?_toUTF8]
  simp only
  rw [hvalue]
  simp only
  rw [hvalid]

/-- A gutter that is not shown and an override are kept. -/
theorem read_render_override :
    let s : Settings :=
      { gutter := { enabled := false }, colors := Overrides.empty.insert "comment" "#112233" }
    Settings.read (some s.render.toUTF8.data.toList) = .ok s :=
  read_render (Option.isNone_iff_eq_none.mp (by decide +kernel)) (by decide +kernel)

end Settings

end CodePane

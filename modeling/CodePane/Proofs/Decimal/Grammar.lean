import CodePane.Decimal.Notation
import CodePane.Decimal.Value
import Mathlib.Data.List.Basic
import Mathlib.Data.List.TakeWhile

/-!
# The grammar of numerals

JSON asks for digits before the point, behind it and in the exponent, and it allows no zero before
another digit in front of the point. Natural numbers and floats are written so: the shortest decimal
of a float begins with a digit other than zero, wherever the point comes to stand.

1. `IsDigits`, `Significant`, `Numeral.Grammatical`: digits, and numerals made of them.
2. `significant_toDigits`, `Numeral.grammatical_ofNat`, `Numeral.toNat?_ofNat`: natural numbers.
3. `Dyadic.candidate?_pos`, `shortest_significant`: the digits of a float.
4. `Format.grammatical_numeral`: floats.
-/

namespace CodePane.Decimal

variable {ds xs digits : List Char} {n : Nat} {point power : Int}

/-! ## Digits -/

/-- At least one digit, and nothing else. -/
structure IsDigits (ds : List Char) : Prop where
  nonempty : ds ≠ []
  digit : ∀ c ∈ ds, c.isDigit = true

/-- Digits that do not begin with a zero. -/
structure Significant (ds : List Char) : Prop extends IsDigits ds where
  head : ds.head? ≠ some '0'

/-- A numeral that has digits wherever the grammar asks for them, and no zero before another digit
in front of the point. -/
structure Numeral.Grammatical (n : Numeral) : Prop where
  whole : IsDigits n.whole
  lead : n.whole.head? = some '0' → n.whole = ['0']
  fraction : ∀ ds ∈ n.fraction, IsDigits ds
  exponent : ∀ e ∈ n.exponent, IsDigits e.2

theorem isDigits_zero : IsDigits ['0'] where
  nonempty := List.cons_ne_nil _ _
  digit := List.forall_mem_singleton.mpr rfl

theorem IsDigits.append (h : IsDigits ds) (hxs : ∀ c ∈ xs, c.isDigit = true) :
    IsDigits (ds ++ xs) where
  nonempty := List.append_ne_nil_of_left_ne_nil h.nonempty xs
  digit c hc := (List.mem_append.mp hc).elim (h.digit c) (hxs c)

theorem isDigit_of_mem_zeros {c : Char} (hc : c ∈ List.replicate n '0') : c.isDigit = true := by
  rw [List.eq_of_mem_replicate hc]
  decide

namespace Significant

theorem of_prefix (h : Significant ds) (hbegin : xs <+: ds) (hne : xs ≠ []) : Significant xs where
  nonempty := hne
  digit c hc := h.digit c (hbegin.subset hc)
  head := by
    obtain ⟨tail, rfl⟩ := hbegin
    have hhead := h.head
    rwa [List.head?_append_of_ne_nil xs hne] at hhead

end Significant

/-! ## Natural numbers -/

theorem isDigits_toDigits (n : Nat) : IsDigits (Nat.toDigits 10 n) where
  nonempty := Nat.toDigits_ne_nil
  digit _ hc := Nat.isDigit_of_mem_toDigits (by decide) (by decide) hc

theorem digitChar_ne_zero : ∀ d < 10, 0 < d → Nat.digitChar d ≠ '0' := by decide

theorem significant_toDigits (hn : 0 < n) : Significant (Nat.toDigits 10 n) where
  toIsDigits := isDigits_toDigits n
  head := by
    induction n using Nat.strongRecOn with
    | ind n ih =>
      rw [Nat.toDigits_eq_if (by decide)]
      split
      · next hlt =>
        rw [List.head?_cons]
        exact fun h => digitChar_ne_zero n hlt hn (Option.some.inj h)
      · next hge =>
        rw [List.head?_append_of_ne_nil _ Nat.toDigits_ne_nil]
        exact ih (n / 10) (by omega) (by omega)

namespace Numeral

theorem grammatical_ofNat (n : Nat) : (ofNat n).Grammatical where
  whole := isDigits_toDigits n
  lead h := by
    rcases Nat.eq_zero_or_pos n with rfl | hn
    · rfl
    · exact absurd h (significant_toDigits hn).head
  fraction _ h := by cases h
  exponent _ h := by cases h

theorem digitsValue_eq (digits : List Char) :
    digitsValue digits = Nat.ofDigitChars 10 digits 0 := by
  simp only [digitsValue, digitValue, Nat.ofDigitChars_eq_foldl, Nat.mul_comm 10]
  rfl

theorem toNat?_ofNat (n : Nat) : (ofNat n).toNat? = some n := by
  show some (digitsValue (Nat.toDigits 10 n)) = some n
  rw [digitsValue_eq, Nat.ofDigitChars_ten_toDigits]

end Numeral

/-! ## The digits of a float -/

namespace Dyadic

variable {d : Dyadic} {tie : Tie}

theorem readsBack_zero (hd : 0 < d.mantissa) (power : Int) : d.readsBack 0 power = false := by
  have hquarters : 0 < 4 * d.mantissa - if d.narrowBelow then 1 else 2 := by
    split <;> omega
  have hlow : 0 < d.low := Nat.mul_pos hquarters (Nat.pow_pos (by decide))
  have hunit : 0 < Nat.pow 10 (-power).toNat := Nat.pow_pos (by decide)
  have hpos : 0 < d.low * Nat.pow 10 (-power).toNat := Nat.mul_pos hlow hunit
  unfold readsBack
  simp only [Nat.zero_mul]
  split
  · rw [decide_eq_false (Nat.not_le_of_lt hpos), Bool.false_and]
  · rw [decide_eq_false (Nat.not_lt_zero _), Bool.false_and]

theorem candidate?_pos (hd : 0 < d.mantissa) (h : d.candidate? tie power = some n) : 0 < n := by
  unfold candidate? at h
  simp only at h
  split at h
  · obtain rfl := Option.some.inj h
    exact Nat.succ_pos _
  · split at h
    · next hdown =>
      obtain rfl := Option.some.inj h
      apply Nat.pos_of_ne_zero
      intro hzero
      rw [hzero, readsBack_zero hd] at hdown
      cases hdown
    · cases h

theorem ofBits_mantissa_pos {bits : Nat} (hpos : 0 < bits) (hlt : bits < Nat.pow 2 63) :
    0 < (ofBits bits).mantissa := by
  have hfraction : Nat.pow 2 52 = 4503599627370496 := rfl
  have hfield : Nat.pow 2 11 = 2048 := rfl
  have hmagnitude : Nat.pow 2 63 = 9223372036854775808 := rfl
  unfold ofBits
  simp only [hfraction, hfield, hmagnitude] at hlt ⊢
  split
  · simp only
    omega
  · simp only
    omega

end Dyadic

/-- The zeros at the end are left out, so what remains begins like the whole. -/
theorem Scaled.significant_ofNat (hn : 0 < n) (power : Int) :
    Significant (Scaled.ofNat n power).digits := by
  have hdigits := significant_toDigits hn
  have hbegin : (((Nat.toDigits 10 n).reverse.dropWhile (· == '0')).reverse) <+:
      Nat.toDigits 10 n := by
    rw [← List.reverse_suffix, List.reverse_reverse]
    exact List.dropWhile_suffix _
  refine hdigits.of_prefix hbegin fun hnil => ?_
  have hzeros := List.dropWhile_eq_nil_iff.mp (List.reverse_eq_nil_iff.mp hnil)
  obtain ⟨c, tail, hcons⟩ := List.exists_cons_of_ne_nil hdigits.nonempty
  have hzero := hzeros c (List.mem_reverse.mpr (hcons ▸ List.mem_cons_self))
  have hhead := hdigits.head
  rw [hcons, List.head?_cons, beq_iff_eq.mp hzero] at hhead
  exact hhead rfl

/-- A positive value has significant digits, or none if no grid has a decimal for it. -/
theorem shortest_significant {d : Dyadic} (hd : 0 < d.mantissa) (tie : Dyadic.Tie) :
    Significant (shortest d tie).digits ∨ shortest d tie = ⟨[], 1⟩ := by
  unfold shortest
  simp only
  split
  · next n power hfound =>
    obtain ⟨power', -, hcandidate⟩ := List.exists_of_findSome?_eq_some hfound
    obtain ⟨m, hm, heq⟩ := Option.map_eq_some_iff.mp hcandidate
    obtain ⟨rfl, rfl⟩ := Prod.mk.inj heq
    exact .inl (Scaled.significant_ofNat (Dyadic.candidate?_pos hd hm) _)
  · exact .inr (by decide)

/-! ## Floats -/

namespace Format

variable {f : Format}

theorem grammatical_positional (hf : ∀ ds ∈ f.wholeFraction, IsDigits ds) (negative : Bool)
    (h : Significant digits ∨ digits = [] ∧ point = 1) :
    (f.positional negative digits point).Grammatical := by
  unfold positional
  rcases h with h | ⟨rfl, rfl⟩
  case inr => exact ⟨isDigits_zero, fun _ => rfl, hf, fun _ he => by cases he⟩
  by_cases hpoint : point ≤ 0
  · rw [if_pos hpoint]
    refine ⟨isDigits_zero, fun _ => rfl, ?_, fun _ he => by cases he⟩
    rintro ds ⟨⟩
    refine ⟨List.append_ne_nil_of_right_ne_nil _ h.nonempty, fun c hc => ?_⟩
    exact (List.mem_append.mp hc).elim isDigit_of_mem_zeros (h.digit c)
  rw [if_neg hpoint]
  by_cases hwhole : digits.length ≤ point.toNat
  · rw [if_pos hwhole]
    refine ⟨h.append fun c hc => isDigit_of_mem_zeros hc, fun hlead => ?_, hf,
      fun _ he => by cases he⟩
    simp only [List.head?_append_of_ne_nil digits h.nonempty] at hlead
    exact absurd hlead h.head
  · rw [if_neg hwhole]
    have htake : digits.take point.toNat ≠ [] := by
      rw [Ne, List.take_eq_nil_iff]
      exact not_or.mpr ⟨by omega, h.nonempty⟩
    have hfirst := h.of_prefix (List.take_prefix _ _) htake
    refine ⟨hfirst.toIsDigits, fun hlead => absurd hlead hfirst.head, ?_, fun _ he => by cases he⟩
    rintro ds ⟨⟩
    refine ⟨fun hnil => ?_, fun c hc => h.digit c (List.mem_of_mem_drop hc)⟩
    exact hwhole (List.drop_eq_nil_iff.mp hnil)

theorem grammatical_scientific (negative : Bool) (h : Significant digits) (point : Int) :
    (scientific negative digits point).Grammatical := by
  have htake : digits.take 1 ≠ [] := by
    rw [Ne, List.take_eq_nil_iff]
    exact not_or.mpr ⟨Nat.one_ne_zero, h.nonempty⟩
  have hfirst := h.of_prefix (List.take_prefix _ _) htake
  refine ⟨hfirst.toIsDigits, fun hlead => absurd hlead hfirst.head, ?_, ?_⟩
  · intro ds hds
    unfold scientific at hds
    simp only at hds
    split at hds
    · cases hds
    · next hmore =>
      obtain rfl := Option.some.inj hds
      refine ⟨fun hnil => ?_, fun c hc => h.digit c (List.mem_of_mem_drop hc)⟩
      exact hmore (List.drop_eq_nil_iff.mp hnil)
  · rintro e ⟨⟩
    exact isDigits_toDigits _

/-- **Floats are written as the grammar asks,** whatever their bits are. -/
theorem grammatical_numeral (hf : ∀ ds ∈ f.wholeFraction, IsDigits ds)
    (hleast : ∀ least ∈ f.positionalFrom, least ≤ 1) (x : Float) :
    (f.numeral x).Grammatical := by
  unfold numeral
  simp only
  split
  · exact ⟨isDigits_zero, fun _ => rfl, hf, fun _ he => by cases he⟩
  · next hzero =>
    have hpos := Dyadic.ofBits_mantissa_pos (Nat.pos_of_ne_zero hzero)
      (Nat.mod_lt _ (Nat.pow_pos (by decide)))
    have hdigits := shortest_significant hpos f.tie
    generalize shortest _ f.tie = d at hdigits ⊢
    have hpositional (negative : Bool) :
        (f.positional negative d.digits (d.power + d.digits.length)).Grammatical := by
      refine grammatical_positional hf negative (hdigits.imp_right ?_)
      rintro rfl
      exact ⟨rfl, rfl⟩
    unfold numeralOf
    simp only
    split
    · next least hsome =>
      split
      · exact hpositional _
      · next hbelow =>
        refine grammatical_scientific _ (hdigits.resolve_right ?_) _
        rintro rfl
        exact hbelow (hleast least hsome)
    · exact hpositional _

end Format

end CodePane.Decimal

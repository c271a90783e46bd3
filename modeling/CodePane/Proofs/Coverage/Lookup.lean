import CodePane.Proofs.Coverage.Owner

/-!
# Looking up tokens

A coverage is searched by the ends of its tokens and by their starts. Both are in order whatever has
been laid, so each search has one place to find, and what lies between the two places is exactly
what meets the range.

1. `initial_ended`, `initial_begun`, `touching_eq_filter`: the two searches in a coverage.
2. `Operation`, `ordered_run`, `lookups_exact`: coverages that are kept and changed.
-/

namespace CodePane.Coverage

variable {tokens : List Token} {i start stop : Nat}

/-! ## The two searches -/

theorem initial_ended (h : Ordered tokens) (pos : Nat) : Initial (·.stop ≤ pos) tokens := by
  refine h.1.imp fun {a b} hab hb => ?_
  have hlength : b.start ≤ b.stop := Nat.le_add_right _ _
  simp only [decide_eq_true_eq] at hb ⊢
  omega

theorem initial_begun (h : Ordered tokens) (pos : Nat) : Initial (·.start < pos) tokens := by
  refine h.1.imp fun {a b} hab hb => ?_
  have hlength : a.start ≤ a.stop := Nat.le_add_right _ _
  simp only [decide_eq_true_eq] at hb ⊢
  omega

/-- **What meets a range** are the tokens that end behind its start and begin before its end. -/
theorem touching_eq_filter (h : Ordered tokens) (start stop : Nat) : touching tokens start stop =
    tokens.filter fun t => decide (start < t.stop) && decide (t.start < stop) := by
  have hbegun : Initial (·.start < stop) (tokens.dropWhile (·.stop ≤ start)) :=
    (initial_begun h stop).sublist (List.dropWhile_sublist _)
  rw [touching, hbegun.takeWhile_eq, (initial_ended h start).dropWhile_eq, List.filter_filter]
  refine List.filter_congr fun t _ => ?_
  rw [← decide_not, Bool.and_comm, decide_eq_decide.mpr Nat.not_le]

theorem mem_touching_iff (h : Ordered tokens) {t : Token} :
    t ∈ touching tokens start stop ↔ t ∈ tokens ∧ start < t.stop ∧ t.start < stop := by
  rw [touching_eq_filter h, List.mem_filter, Bool.and_eq_true, decide_eq_true_eq,
    decide_eq_true_eq]

/-- The same tokens stand between the two places that the searches find. If the range ends before it
starts, the second place may come before the first, and nothing is between them. -/
theorem touching_eq_slice (h : Ordered tokens) (hbegun : SplitsAt (·.start < stop) tokens i) :
    touching tokens start stop =
      (tokens.take (max i (endedBy tokens start))).drop (endedBy tokens start) := by
  have hplace : max i (endedBy tokens start) - endedBy tokens start = i - endedBy tokens start := by
    omega
  have hended : SplitsAt (·.stop ≤ start) tokens (endedBy tokens start) :=
    (initial_ended h start).splitsAt
  rw [List.drop_take, hplace, (hbegun.drop _).take_eq, hended.drop_eq, List.filter_filter,
    touching_eq_filter h]
  refine List.filter_congr fun t _ => ?_
  rw [← decide_not, Bool.and_comm, decide_eq_decide.mpr Nat.not_le]

/-! ## Coverages that are kept -/

/-- What can be done to a coverage that is kept. -/
inductive Operation where
  | ofTokens (incoming : List Token) (length : Nat)
  | lay (incoming : List Token) (length : Nat)
  | replace (incoming : List Token) (length : Nat)
  | clear
  deriving DecidableEq, Repr

/-- The coverage after an operation. To replace a coverage is to lay tokens over none. -/
def perform (tokens : List Token) : Operation → List Token
  | .ofTokens incoming length => Coverage.ofTokens incoming length
  | .lay incoming length => Coverage.lay tokens incoming length
  | .replace incoming length => Coverage.lay [] incoming length
  | .clear => []

def run (operations : List Operation) : List Token := operations.foldl perform []

theorem ordered_nil : Ordered [] := ⟨List.Pairwise.nil, List.forall_mem_nil _⟩

theorem ordered_perform (h : Ordered tokens) (op : Operation) : Ordered (perform tokens op) := by
  cases op with
  | ofTokens incoming length => exact ordered_lay ordered_nil incoming length
  | lay incoming length => exact ordered_lay h incoming length
  | replace incoming length => exact ordered_lay ordered_nil incoming length
  | clear => exact ordered_nil

theorem ordered_run (operations : List Operation) : Ordered (run operations) :=
  List.foldlRecOn operations perform ordered_nil fun _ h op _ => ordered_perform h op

/-- **Lookups.** Whatever has been done to a coverage, what meets a range are the tokens that end
behind its start and begin before its end, in their order, and as many tokens have ended by an
offset as end there or before. Halving finds the same: the tokens that have ended come first, and so
do those that have begun, and what meets the range stands between the two places. -/
theorem lookups_exact (operations : List Operation) (start stop : Nat) :
    let tokens := run operations
    (touching tokens start stop =
        tokens.filter fun t => decide (start < t.stop) && decide (t.start < stop)) ∧
      endedBy tokens start = tokens.countP (·.stop ≤ start) ∧
      SplitsAt (·.stop ≤ start) tokens (endedBy tokens start) ∧
      ∃ begun, SplitsAt (·.start < stop) tokens begun ∧ touching tokens start stop =
        (tokens.take (max begun (endedBy tokens start))).drop (endedBy tokens start) := by
  intro tokens
  have h : Ordered tokens := ordered_run operations
  have hended : SplitsAt (·.stop ≤ start) tokens (endedBy tokens start) :=
    (initial_ended h start).splitsAt
  have hbegun := (initial_begun h stop).splitsAt
  exact ⟨touching_eq_filter h start stop, hended.eq_countP, hended, _, hbegun,
    touching_eq_slice h hbegun⟩

end CodePane.Coverage

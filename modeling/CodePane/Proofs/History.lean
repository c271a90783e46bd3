import Mathlib.Data.List.Induction

/-!
# Histories

What a state remembers is often one event of the past, for as long as nothing has made it forget.

1. `Since`: an event that all later steps keep.
2. `since_concat`: one more step.
3. `since_run`: a fact about states that some steps establish and others destroy, after a whole run.
-/

namespace CodePane

variable {α σ : Type} {keeps : α → Prop} {happens : List α → α → Prop}

/-- In a history something happened with one of its steps, and all steps behind that one keep it.
What happens may depend on the steps before. -/
def Since (keeps : α → Prop) (happens : List α → α → Prop) (history : List α) : Prop :=
  ∃ before x after, history = before ++ x :: after ∧ happens before x ∧ ∀ y ∈ after, keeps y

theorem not_since_nil : ¬ Since keeps happens [] := by
  rintro ⟨before, x, after, heq, -⟩
  exact List.append_ne_nil_of_right_ne_nil before (List.cons_ne_nil x after) heq.symm

/-- Either it happens with the last step, or that one keeps what happened before it. -/
theorem since_concat (history : List α) (last : α) :
    Since keeps happens (history ++ [last]) ↔
      happens history last ∨ keeps last ∧ Since keeps happens history := by
  constructor
  · rintro ⟨before, x, after, heq, hx, hafter⟩
    rcases List.eq_nil_or_concat after with rfl | ⟨after, y, rfl⟩
    · obtain ⟨rfl, hlast⟩ := List.append_inj' heq rfl
      obtain rfl := List.singleton_inj.mp hlast
      exact .inl hx
    · rw [List.concat_eq_append, ← List.cons_append, ← List.append_assoc] at heq
      obtain ⟨rfl, hlast⟩ := List.append_inj' heq rfl
      obtain rfl := List.singleton_inj.mp hlast
      rw [List.concat_eq_append] at hafter
      obtain ⟨hafter, hkeep⟩ := List.forall_mem_append.mp hafter
      exact .inr ⟨hkeep _ List.mem_cons_self, before, x, after, rfl, hx, hafter⟩
  · rintro (hlast | ⟨hkeep, before, x, after, rfl, hx, hafter⟩)
    · exact ⟨history, last, [], rfl, hlast, fun y hy => absurd hy List.not_mem_nil⟩
    · refine ⟨before, x, after ++ [last], by rw [List.append_assoc, List.cons_append], hx, ?_⟩
      exact List.forall_mem_append.mpr
        ⟨hafter, fun y hy => List.mem_singleton.mp hy ▸ hkeep⟩

/-- **From one step to a run.** A fact that does not hold at the start, and holds after a step if
the step establishes it or keeps it, holds after a run if it was established and kept since. -/
theorem since_run {step : σ → α → σ} {start : σ} (holds : σ → Prop) (sets : σ → α → Prop)
    (hstart : ¬ holds start)
    (hstep : ∀ s a, holds (step s a) ↔ sets s a ∨ keeps a ∧ holds s) (history : List α) :
    holds (history.foldl step start) ↔
      Since keeps (fun before a => sets (before.foldl step start) a) history := by
  induction history using List.reverseRecOn with
  | nil => exact iff_of_false hstart not_since_nil
  | append_singleton history last ih =>
    rw [since_concat, ← ih, List.foldl_append]
    exact hstep _ last

end CodePane

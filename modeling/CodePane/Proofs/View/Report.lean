import CodePane.Proofs.View.Reload
import CodePane.Text.WidthTable

/-!
# Every change of the scrolling is told once

A client that asks now and then where the content is scrolled to is told a place exactly when it
differs from the place that it was told last. What operations come in between does not matter, nor
by which of them the place changed, since none of them touches what was told last.

1. `Reply.lastPlace`, `View.replies`: the place that a client holds, and the answers of a run.
2. `View.reported_perform`, `View.reported_run`: what a view has told last is what its client holds.
3. `View.reports_changes`: the next answer.
-/

namespace CodePane

/-! ## What a client holds -/

namespace Reply

/-- The place that an answer tells. -/
def place? : Reply → Option Scroll
  | .change place => place
  | _ => none

/-- The place that was told last, at first the start of the content. -/
def lastPlace (replies : List Reply) : Scroll := (replies.filterMap place?).getLast?.getD .zero

end Reply

namespace View

/-! ## Answers -/

theorem reply_reportScroll (v : View) :
    v.reply .reportScroll =
      .change (if v.window.scroll = v.window.reported then none else some v.window.scroll) := by
  show Reply.change v.window.reportScroll.1 = _
  unfold Window.reportScroll
  split <;> rfl

theorem place?_reply {op : Operation} (v : View) (hop : op ≠ .reportScroll) :
    (v.reply op).place? = none := by
  cases op with
  | reportScroll => exact absurd rfl hop
  | _ => rfl

section

variable [CharWidths]

def replies (v : View) : List Operation → List Reply
  | [] => []
  | op :: ops => v.reply op :: (v.perform op).replies ops

/-! ## What was told last -/

theorem reported_reportScroll (v : View) :
    (v.perform .reportScroll).window.reported = v.window.scroll := by
  rw [perform_reportScroll]
  rfl

/-- One operation: what was told last changes only by telling a place, and then to that place. -/
theorem reported_perform (v : View) (op : Operation) :
    (v.perform op).window.reported = (v.reply op).place?.getD v.window.reported := by
  by_cases hop : op = .reportScroll
  · rw [hop, reported_reportScroll, reply_reportScroll]
    split
    · next hsame => exact hsame
    · rfl
  · have hkept : v.perform op = (v.perform op).told v.window.reported :=
      v.perform_told v.window.reported hop
    rw [v.place?_reply hop, hkept]
    rfl

theorem reported_run (v : View) (ops : List Operation) :
    (v.run ops).window.reported =
      ((v.replies ops).filterMap Reply.place?).getLast?.getD v.window.reported := by
  induction ops generalizing v with
  | nil => rfl
  | cons op ops ih =>
    have hstep := v.reported_perform op
    show ((v.perform op).run ops).window.reported = _
    rw [ih, replies, List.filterMap_cons]
    cases hplace : (v.reply op).place? with
    | none => rw [hstep, hplace, Option.getD_none]
    | some place =>
      rw [hstep, hplace, List.getLast?_cons, Option.getD_some, Option.getD_some]

/-! ## The next answer -/

/-- **No change of the scrolling is lost or told twice.** Whenever a client asks, it is told where
the content is scrolled to if that differs from the place it was told last, or from the start of
the content if it was told none, and nothing otherwise. So a client that keeps the place it was told
last knows the true one each time that it has asked. -/
theorem reports_changes (s : Settings) (ops : List Operation) :
    let v := (ofSettings s).run ops
    let held := Reply.lastPlace ((ofSettings s).replies ops)
    let asked := ops ++ [.reportScroll]
    v.reply .reportScroll =
        .change (if v.window.scroll = held then none else some v.window.scroll) ∧
      Reply.lastPlace ((ofSettings s).replies asked) =
        ((ofSettings s).run asked).window.scroll := by
  intro v held asked
  have hheld : v.window.reported = held := (ofSettings s).reported_run ops
  have hasked : (ofSettings s).run asked = v.perform .reportScroll := run_concat _ ops _
  refine ⟨hheld ▸ v.reply_reportScroll, ?_⟩
  calc Reply.lastPlace ((ofSettings s).replies asked)
      = ((ofSettings s).run asked).window.reported := ((ofSettings s).reported_run asked).symm
    _ = v.window.scroll := by rw [hasked, reported_reportScroll]
    _ = ((ofSettings s).run asked).window.scroll := by rw [hasked, perform_reportScroll]; rfl

end

/-- Away and back between two answers is no change. A taller window is one, though nothing scrolled
by itself: the last lines fill it. -/
example :
    let text : Text := [0x61, 0x0A, 0x62, 0x0A, 0x63]
    (ofSettings {}).replies [.load text .plain, .scrollToLine 2, .reportScroll, .scrollToLine 0,
      .scrollToLine 2, .reportScroll, .resize 60 40, .reportScroll] =
      [.nothing, .nothing, .change (some ⟨2, 0⟩), .nothing, .nothing, .change none, .nothing,
        .change (some ⟨1, 0⟩)] := by
  decide +kernel

end View

end CodePane

import CodePane.Proofs.View.Subject
import CodePane.Text.WidthTable

/-!
# Loading a text forgets the past

Apart from its settings, cells, gutter, colours and size, nothing of a view survives that another
text is loaded: tokens, scrolling, caret, selection, a drag in progress and the goal of vertical
moves are as in a new view. One thing does survive, the place that the client was told last, and it
shows in nothing but the next answer to that question.

1. `View.told`: a view whose client was told another place.
2. `View.Appearance`, `View.appearance_told`: what a client can read off a view, and off that one;
   `View.exists_run_told`: what operations make of it.
3. `View.setup`: what no operation changes.
4. `View.load_eq_told`, `View.load_forgets`: after a text is loaded.
-/

namespace CodePane.View

/-! ## What was told last -/

/-- The view, had its client been told another place last. -/
def told (v : View) (r : Scroll) : View := { v with window := { v.window with reported := r } }

/-- What was told last shows in the answer of one operation only. -/
theorem reply_told {op : Operation} (v : View) (r : Scroll) (hop : op ≠ .reportScroll) :
    (v.told r).reply op = v.reply op := by
  cases op with
  | reportScroll => exact absurd rfl hop
  | _ => rfl

theorem scrollByPixels_told (v : View) (r : Scroll) (delta : Int) :
    (v.told r).scrollByPixels delta = (v.scrollByPixels delta).told r := by
  unfold scrollByPixels
  rw [apply_ite (told · r)]
  rfl

theorem turnWheel_told (v : View) (r : Scroll) (d : Direction) (m : Modifiers) :
    (v.told r).turnWheel d m = (v.turnWheel d m).told r := by
  unfold turnWheel
  simp only [apply_ite (told · r), ← scrollByPixels_told]
  rfl

section

variable [CharWidths] {v w : View} {op : Operation}

/-! ## What a client can read -/

/-- All that a client can read off a view. -/
structure Appearance where
  text : Text
  kind : TextKind
  tokens : List Token
  grid : Grid
  theme : Theme
  size : Int × Int
  visible : Nat × Nat
  content : Int × Int
  scroll : Scroll
  bars : Scrollbar × Scrollbar
  cursor : Cursor
  selection : Option (Nat × Nat)
  selectedBytes : Text
  topPosition : Nat
  wordAround : Nat → Nat × Nat
  pixelOf : Nat → Point
  windowPixelOf : Nat → Point
  positionAt : Point → Nat
  windowPositionAt : Point → Nat
  draw : Rect → Drawing

/-- What a client reads off a view. -/
def appearance (v : View) : Appearance where
  text := v.text
  kind := v.kind
  tokens := v.tokens
  grid := v.grid
  theme := v.theme
  size := (v.window.width, v.window.height)
  visible := (v.columns, v.rows)
  content := (v.contentWidth, v.contentHeight)
  scroll := v.window.scroll
  bars := (v.verticalBar, v.horizontalBar)
  cursor := v.cursor
  selection := v.selection
  selectedBytes := v.selectedBytes
  topPosition := v.topPosition
  wordAround := Text.wordAround v.text
  pixelOf := v.pixelOf
  windowPixelOf := v.windowPixelOf
  positionAt := v.positionAt
  windowPositionAt := v.windowPositionAt
  draw := v.draw

theorem appearance_told (v : View) (r : Scroll) : (v.told r).appearance = v.appearance := rfl

theorem perform_reportScroll (v : View) :
    v.perform .reportScroll = v.told v.window.scroll := by
  show { v with window := v.window.reportScroll.2 } = v.told v.window.scroll
  unfold Window.reportScroll told
  split
  · next hsame => rw [hsame]
  · rfl

section Told

variable (v : View) (r : Scroll)

theorem pointerMoved_told (p : Point) :
    (v.told r).pointerMoved p = (v.pointerMoved p).told r := by
  unfold pointerMoved
  rw [apply_ite (told · r)]
  rfl

theorem pointerUp_told (p : Point) : (v.told r).pointerUp p = (v.pointerUp p).told r := by
  unfold pointerUp
  rw [apply_ite (told · r)]
  rfl

theorem act_told (a : KeyAction) : (v.told r).act a = (v.act a).told r := by
  cases a <;> rfl

theorem key_told (k : Key) (m : Modifiers) :
    (v.told r).perform (.key k m) = (v.perform (.key k m)).told r := by
  show ((KeyAction.ofKey? k m).map (v.told r).act).getD (v.told r) =
    (((KeyAction.ofKey? k m).map v.act).getD v).told r
  cases KeyAction.ofKey? k m with
  | none => rfl
  | some a => exact v.act_told r a

theorem perform_told (hop : op ≠ .reportScroll) :
    (v.told r).perform op = (v.perform op).told r := by
  cases op with
  | reportScroll => exact absurd rfl hop
  | scrollByPixels delta => exact v.scrollByPixels_told r delta
  | turnWheel d m => exact v.turnWheel_told r d m
  | pointerMoved p => exact v.pointerMoved_told r p
  | pointerUp p => exact v.pointerUp_told r p
  | act a => exact v.act_told r a
  | key k m => exact v.key_told r k m
  | _ => rfl

/-- One operation: no operation reads what was told last but the one that tells, and that one
replaces it. -/
theorem exists_perform_told (op : Operation) :
    ∃ r', (v.told r).perform op = (v.perform op).told r' := by
  by_cases hop : op = .reportScroll
  · rw [hop, perform_reportScroll, perform_reportScroll]
    exact ⟨v.window.scroll, rfl⟩
  · exact ⟨r, v.perform_told r hop⟩

/-- **However a view goes on, what was told last does not matter**, up to what was told last. -/
theorem exists_run_told (ops : List Operation) :
    ∃ r', (v.told r).run ops = (v.run ops).told r' := by
  induction ops generalizing v r with
  | nil => exact ⟨r, rfl⟩
  | cons op ops ih =>
    obtain ⟨r', hstep⟩ := v.exists_perform_told r op
    obtain ⟨r'', hrest⟩ := ih (v.perform op) r'
    refine ⟨r'', ?_⟩
    show ((v.told r).perform op).run ops = ((v.perform op).run ops).told r''
    rw [hstep, hrest]

end Told

/-! ## What never changes -/

/-- The settings, and the gutter apart from whether it is shown. -/
def setup (v : View) : Settings × GutterSettings :=
  (v.settings, { v.grid.gutter with enabled := true })

theorem setup_perform (v : View) (op : Operation) : (v.perform op).setup = v.setup := by
  cases hop : op.changesSubject with
  | false =>
    show (v.perform op).subject.setup = v.setup
    rw [v.subject_perform hop]
    rfl
  | true =>
    cases op with
    | load _ _ | recolor _ | highlight _ | withTheme _ => rfl
    | withCells _ | fitFont _ | showGutter _ => rfl
    | _ => cases hop

theorem setup_run (v : View) (ops : List Operation) : (v.run ops).setup = v.setup := by
  induction ops generalizing v with
  | nil => rfl
  | cons op ops ih => exact (ih (v.perform op)).trans (v.setup_perform op)

/-! ## After a text is loaded -/

/-- Views that agree on how they show texts. -/
structure ShowsLike (v w : View) : Prop where
  cell : v.grid.cell = w.grid.cell
  gutter : v.grid.gutter.enabled = w.grid.gutter.enabled
  theme : v.theme = w.theme
  width : v.window.width = w.window.width
  height : v.window.height = w.window.height

theorem load_eq (v : View) (text : Text) (kind : TextKind) :
    v.load text kind = {
      text := text
      kind := kind
      tokens := Coverage.ofTokens (kind.tokenize text) text.length
      grid := v.grid
      contentWidth := v.grid.contentWidth text
      theme := v.theme
      settings := v.settings
      window := ⟨v.window.width, v.window.height, .zero, v.window.reported⟩
      cursor := .initial } := rfl

/-- A text is loaded into views that agree on the settings and on how they show texts: all that is
left of what the views were is what was told last. -/
theorem load_eq_told (hsetup : w.setup = v.setup) (h : ShowsLike v w) (text : Text)
    (kind : TextKind) : w.load text kind = (v.load text kind).told w.window.reported := by
  obtain ⟨hcell, henabled, htheme, hwidth, hheight⟩ := h
  have hsettings : w.settings = v.settings := congrArg Prod.fst hsetup
  have hgutter : w.grid.gutter = v.grid.gutter := calc
    w.grid.gutter = { w.grid.gutter with enabled := v.grid.gutter.enabled } := by rw [henabled]
    _ = v.grid.gutter :=
      congrArg (fun p => { p.2 with enabled := v.grid.gutter.enabled }) hsetup
  have hgrid : w.grid = v.grid := by
    show Grid.mk w.grid.cell w.grid.gutter = Grid.mk v.grid.cell v.grid.gutter
    rw [hcell, hgutter]
  rw [load_eq, load_eq, hgrid, hsettings, ← htheme, ← hwidth, ← hheight]
  rfl

/-- **Loading a text forgets the past.** Two views come from the same settings, by whatever
operations, and agree on the cells, the gutter, the colours and the size. From the moment that the
same text is loaded into both, the same operations keep all that can be read off them the same, and
every operation but the one that tells the place answers the same. -/
theorem load_forgets {s : Settings} {past past' : List Operation}
    (h : ShowsLike ((ofSettings s).run past) ((ofSettings s).run past')) (text : Text)
    (kind : TextKind) (ops : List Operation) :
    let v := (((ofSettings s).run past).load text kind).run ops
    let w := (((ofSettings s).run past').load text kind).run ops
    w.appearance = v.appearance ∧ ∀ op, op ≠ .reportScroll → w.reply op = v.reply op := by
  intro v w
  have hsetup : ((ofSettings s).run past').setup = ((ofSettings s).run past).setup :=
    (setup_run _ past').trans (setup_run _ past).symm
  obtain ⟨r, hrun⟩ := exists_run_told (((ofSettings s).run past).load text kind)
    ((ofSettings s).run past').window.reported ops
  rw [← load_eq_told hsetup h] at hrun
  have hw : w = v.told r := hrun
  rw [hw]
  exact ⟨v.appearance_told r, fun op hop => v.reply_told r hop⟩

end

/-- One view is scrolled, and its client knows; a drag is in progress and vertical moves have a
goal. The other one is new, but for its gutter that was hidden for a while. The answer that may
differ does so. -/
theorem load_forgets_drag :
    let past : List Operation := [.load [0x61, 0x0A, 0x62, 0x0A, 0x63, 0x64] .plain, .resize 60 16,
      .highlight [⟨0, 3, .keyword, .boldOnly⟩], .scrollToLine 2,
      .pointerDown ⟨40, 0⟩, .moveByLines (-1) true, .reportScroll]
    let past' : List Operation := [.showGutter false, .resize 60 16, .showGutter true]
    let ops : List Operation := [.pointerMoved ⟨50, 8⟩, .moveByLines 1 true]
    let before := (ofSettings {}).run past
    let before' := (ofSettings {}).run past'
    let v := (before.load [0x65, 0x0A, 0x66] .plain).run ops
    let w := (before'.load [0x65, 0x0A, 0x66] .plain).run ops
    ShowsLike before before' ∧ before.cursor.dragging = true ∧ before.cursor.goal = some 40 ∧
      before.window.scroll = ⟨1, 0⟩ ∧
      (w.appearance = v.appearance ∧ ∀ op, op ≠ .reportScroll → w.reply op = v.reply op) ∧
      v.cursor = ⟨2, ⟨0, 0, 2, true⟩, none, some 32⟩ ∧
      v.reply .reportScroll = .change none ∧ w.reply .reportScroll = .change (some ⟨1, 0⟩) := by
  intro past past' ops before before' v w
  have hshows : ShowsLike before before' :=
    ⟨rfl, rfl, rfl, by decide +kernel, by decide +kernel⟩
  refine ⟨hshows, by decide +kernel, by decide +kernel, by decide +kernel,
    load_forgets hshows [0x65, 0x0A, 0x66] .plain ops, by decide +kernel, by decide +kernel,
    by decide +kernel⟩

end CodePane.View

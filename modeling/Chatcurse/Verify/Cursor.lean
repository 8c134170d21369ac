import Chatcurse.Verify.System

/-!
# The cursors stay inside their panes

Each pane keeps a cursor of its own. A key moves the cursor of the focused pane only and keeps it on
the pane (`paneKey_cursor`); a resize that is accepted moves all three onto the new windows, and one
that is rejected changes no window (`resize_cursorsIn`). So all three are inside their windows in
every state of a run, if ncurses leaves the sizes of the windows alone (`cursors_inPanes`).
-/

namespace Chatcurse

/-- A place inside the window, relative to its first cell; there is no window to be inside of if the
window was deleted. -/
structure Inside (w : Option Window) (pos : Int × Int) : Prop where
  row_nonneg : 0 ≤ pos.1
  col_nonneg : 0 ≤ pos.2
  lt : ∀ v ∈ w, pos.1 < v.lines ∧ pos.2 < v.cols

/-- `g` is the only prefix key. -/
def InputState.PrefixIsG (i : InputState) : Prop :=
  i.state = .S_KEY_PREF → i.prefKey = 'g'.toNat

theorem InputState.prefixIsG_reset (i : InputState) : i.reset.PrefixIsG := nofun

namespace Client

/-- All three cursors. -/
def CursorsIn (c : Client) : Prop := ∀ pan, Inside (c.window pan) (c.cursorPositions pan)

theorem init_cursorsIn (s : Screen) : (init s).CursorsIn :=
  fun _ => ⟨Int.le_refl 0, Int.le_refl 0, fun v _ => ⟨v.lines_pos, v.cols_pos⟩⟩

/-- What a key does to the cursor of the focused pane, and to the prefix. -/
structure CursorMoves (c c' : Client) (pos : Int × Int) : Prop where
  layout : c'.layout = c.layout
  currentPan : c'.currentPan = c.currentPan
  cursor : c'.cursorPositions = Function.update c.cursorPositions c.currentPan pos
  prefixed : c.inputState.PrefixIsG → c'.inputState.PrefixIsG
  row_nonneg : 0 ≤ c.cursor.1 → 0 ≤ pos.1
  row_lt : ∀ v ∈ c.window c.currentPan, c.cursor.1 < v.lines → pos.1 < v.lines
  col_nonneg : 0 ≤ c.cursor.2 → 0 ≤ pos.2
  col_lt : ∀ v ∈ c.window c.currentPan, c.cursor.2 < v.cols → pos.2 < v.cols

theorem CursorMoves.still {c c' : Client} (hl : c'.layout = c.layout)
    (hp : c'.currentPan = c.currentPan) (hc : c'.cursorPositions = c.cursorPositions)
    (hg : c.inputState.PrefixIsG → c'.inputState.PrefixIsG) : CursorMoves c c' c.cursor :=
  ⟨hl, hp, by rw [hc]; exact (Function.update_eq_self _ _).symm, hg, id, fun _ _ => id, id,
    fun _ _ => id⟩

/-- The cursor goes to another row of its column. -/
theorem CursorMoves.row {c c' : Client} {y : Int} (hl : c'.layout = c.layout)
    (hp : c'.currentPan = c.currentPan)
    (hc : c'.cursorPositions = Function.update c.cursorPositions c.currentPan (y, c.cursor.2))
    (hg : c.inputState.PrefixIsG → c'.inputState.PrefixIsG) (hnonneg : 0 ≤ c.cursor.1 → 0 ≤ y)
    (hlt : ∀ v ∈ c.window c.currentPan, c.cursor.1 < v.lines → y < v.lines) :
    CursorMoves c c' (y, c.cursor.2) :=
  ⟨hl, hp, hc, hg, hnonneg, hlt, id, fun _ _ => id⟩

/-- The cursor goes to the last row. -/
theorem CursorMoves.last {c c' : Client} (hw : c.window c.currentPan = some w)
    (hl : c'.layout = c.layout) (hp : c'.currentPan = c.currentPan)
    (hc : c'.cursorPositions =
      Function.update c.cursorPositions c.currentPan (w.lines - 1, c.cursor.2))
    (hg : c.inputState.PrefixIsG → c'.inputState.PrefixIsG) :
    CursorMoves c c' (w.lines - 1, c.cursor.2) := by
  have hlines := w.lines_pos
  refine .row hl hp hc hg (fun _ => by omega) fun v hv _ => ?_
  obtain rfl : w = v := Option.some.inj (hw.symm.trans hv)
  exact Int.sub_one_lt_iff.mpr (Int.le_refl _)

/-- The cursor goes to the first row. -/
theorem CursorMoves.first {c c' : Client} (hl : c'.layout = c.layout)
    (hp : c'.currentPan = c.currentPan)
    (hc : c'.cursorPositions = Function.update c.cursorPositions c.currentPan (0, c.cursor.2))
    (hg : c.inputState.PrefixIsG → c'.inputState.PrefixIsG) : CursorMoves c c' (0, c.cursor.2) :=
  .row hl hp hc hg (fun _ => Int.le_refl 0) fun v _ _ => v.lines_pos

/-- **A key** moves the cursor of the focused pane, on its rows and on its columns. -/
theorem paneKey_cursor {c c' : Client} (h : c.paneKey key = some (c', calls)) :
    ∃ pos, CursorMoves c c' pos := by
  cases PaneKeys.of_paneKey h with
  | still | opens => exact ⟨_, .still rfl rfl rfl id⟩
  | left =>
    refine ⟨_, rfl, rfl, rfl, id, id, fun _ _ => id, fun _ => Int.le_max_right _ _, ?_⟩
    intro v _ hx
    exact Int.max_lt.mpr ⟨by omega, v.cols_pos⟩
  | @right w hw =>
    have hcols := w.cols_pos
    refine ⟨_, rfl, rfl, rfl, id, id, fun _ _ => id, fun hx => ?_, fun v hv _ => ?_⟩
    · exact Int.le_min.mpr ⟨by omega, by omega⟩
    · obtain rfl : w = v := Option.some.inj (hw.symm.trans hv)
      exact Int.lt_of_le_of_lt (Int.min_le_right _ _) (by omega)
  | @down w hw hlt =>
    refine ⟨_, .row rfl rfl rfl id (fun _ => by omega) fun v hv _ => ?_⟩
    obtain rfl : w = v := Option.some.inj (hw.symm.trans hv)
    omega
  | up hpos => exact ⟨_, .row rfl rfl rfl id (fun _ => by omega) fun v hv _ => by omega⟩
  | atLast hw => exact ⟨_, .last hw rfl rfl rfl id⟩
  | atFirst => exact ⟨_, .first rfl rfl rfl id⟩
  | prefixFirst => exact ⟨_, .still rfl rfl rfl fun _ _ => rfl⟩
  | prefixTwice => exact ⟨_, .first rfl rfl rfl fun _ => c.inputState.prefixIsG_reset⟩
  | prefixOther => exact ⟨_, .still rfl rfl rfl fun _ => c.inputState.prefixIsG_reset⟩

theorem CursorMoves.cursorsIn {c c' : Client} (h : CursorMoves c c' pos) (hin : c.CursorsIn) :
    c'.CursorsIn := by
  intro pan
  have hw : c'.window pan = c.window pan := by rw [window, h.layout, ← window]
  rw [hw, h.cursor]
  rcases eq_or_ne pan c.currentPan with rfl | hne
  · rw [Function.update_self]
    obtain ⟨hy, hx, hlt⟩ := hin c.currentPan
    exact ⟨h.row_nonneg hy, h.col_nonneg hx,
      fun v hv => ⟨h.row_lt v hv (hlt v hv).1, h.col_lt v hv (hlt v hv).2⟩⟩
  · rw [Function.update_of_ne hne]
    exact hin pan

/-! ## Resizing -/

/-- A cursor is not left of or above its pane. -/
def Nonneg (pos : Int × Int) : Prop := 0 ≤ pos.1 ∧ 0 ≤ pos.2

/-- `resize` moves the cursor of one pane inside and leaves the others. -/
theorem clampCursor_spec {c c' : Client} (h : c.clampCursor pan = some c')
    (hpos : ∀ p, Nonneg (c.cursorPositions p)) :
    (∀ p, Nonneg (c'.cursorPositions p)) ∧
      ∀ p, p = pan ∨ Inside (c.window p) (c.cursorPositions p) →
        Inside (c'.window p) (c'.cursorPositions p) := by
  obtain ⟨w, hw, rfl⟩ := Option.map_eq_some_iff.mp h
  have hlines := w.lines_pos
  have hcols := w.cols_pos
  obtain ⟨hy, hx⟩ := hpos pan
  have hself : Inside (c.window pan) (min (c.cursorPositions pan).1 (w.lines - 1),
      min (c.cursorPositions pan).2 (w.cols - 1)) := by
    refine ⟨by simp only; omega, by simp only; omega, fun v hv => ?_⟩
    obtain rfl : w = v := Option.some.inj (hw.symm.trans hv)
    exact ⟨by simp only; omega, by simp only; omega⟩
  refine ⟨fun p => ?_, fun p hp => ?_⟩
  · rcases eq_or_ne p pan with rfl | hne
    · simp only [setCursor, Function.update_self]
      exact ⟨hself.row_nonneg, hself.col_nonneg⟩
    · simp only [setCursor, Function.update_of_ne hne]
      exact hpos p
  · rcases eq_or_ne p pan with rfl | hne
    · simp only [setCursor, Function.update_self]
      exact hself
    · simp only [setCursor, Function.update_of_ne hne]
      exact hp.resolve_left hne

theorem resize_cursorsIn {c c' : Client} (h : c.resize newSideW newComposerH = some (c', calls))
    (hin : c.CursorsIn) : c'.CursorsIn := by
  rcases resize_cases h with ⟨rfl, -, -⟩ | ⟨c₁, c₂, h₁, h₂, h₃, -⟩
  · exact hin
  · have hpos : ∀ p, Nonneg (c.cursorPositions p) :=
      fun p => ⟨(hin p).row_nonneg, (hin p).col_nonneg⟩
    obtain ⟨hpos₁, hin₁⟩ := clampCursor_spec h₁ hpos
    obtain ⟨hpos₂, hin₂⟩ := clampCursor_spec h₂ hpos₁
    obtain ⟨-, hin₃⟩ := clampCursor_spec h₃ hpos₂
    intro pan
    cases pan with
    | side => exact hin₃ _ (.inr (hin₂ _ (.inr (hin₁ _ (.inl rfl)))))
    | main => exact hin₃ _ (.inr (hin₂ _ (.inl rfl)))
    | comp => exact hin₃ _ (.inl rfl)

/-- ncurses keeps the sizes of the windows of the panes when the terminal changes. -/
def KeepsSizes (c : Client) (adjust : Window → Window) : Prop :=
  ∀ pan, ∀ w ∈ c.window pan, (adjust w).lines = w.lines ∧ (adjust w).cols = w.cols

theorem processInput_cursorsIn {c c' : Client} (h : c.processInput k = some (c', calls))
    (hk : ∀ s adjust, k = .resize s adjust → c.KeepsSizes adjust) (hin : c.CursorsIn) :
    c'.CursorsIn := by
  cases k with
  | mouse m =>
    cases m with
    | none =>
      cases h
      exact hin
    | some m =>
      simp only [processInput] at h
      split at h
      · exact resize_cursorsIn h hin
      · cases h
        exact hin
  | resize s adjust =>
    refine resize_cursorsIn h fun pan => ⟨(hin pan).row_nonneg, (hin pan).col_nonneg, ?_⟩
    intro v hv
    obtain ⟨w, hw, rfl⟩ := Option.map_eq_some_iff.mp hv
    obtain ⟨hlines, hcols⟩ := hk s adjust rfl pan w hw
    rw [hlines, hcols]
    exact (hin pan).lt w hw
  | ctrlQ | tab | err =>
    cases h
    exact hin
  | char key =>
    obtain ⟨pos, hmoves⟩ := paneKey_cursor h
    exact hmoves.cursorsIn hin

theorem processEvent_cursorsIn {c c' : Client} (h : c.processEvent e = some (c', calls))
    (hin : c.CursorsIn) : c'.CursorsIn := by
  cases e with
  | eventResize sideW compH => exact resize_cursorsIn h hin
  | eventQuit | eventChatlist | eventCyclePanel | eventMessages =>
    cases h
    exact hin

end Client

namespace System
open Client

/-- The windows of the panes change size in `resize` only. -/
def ResizeOnly (s : System) : Label → Prop
  | .input (.resize _ adjust) => s.client.KeepsSizes adjust
  | _ => True

theorem step_cursorsIn {s s' : System} (hin : s.client.CursorsIn) (hl : s.ResizeOnly l)
    (hs : s.step l = some s') : s'.client.CursorsIn := by
  cases Steps.of_step hs with
  | input hui hc =>
    refine processInput_cursorsIn hc ?_ hin
    rintro screen adjust rfl
    exact hl
  | popSome hui hq he => exact processEvent_cursorsIn he hin
  | write htg ha =>
    rw [TgAction.run_eq ha]
    exact hin
  | drawSide | drawMain | getChatHistory | popNone | update | answer | lock | unlock => exact hin

/-- **The cursors** of the three panes are inside their windows in every state of a run. -/
theorem cursors_inPanes (hg : Run.Guarded step ResizeOnly (init screen) ls) :
    Run.Always step (fun s => s.client.CursorsIn) (init screen) ls :=
  .of_guarded (fun _ _ _ hin hl hs => step_cursorsIn hin hl hs) (init_cursorsIn screen) hg

/-- The cursor goes to the last row, and then the terminal shrinks to four rows. -/
def shrunk : List Label :=
  [.ui, .ui, key 'G', .ui, .ui,
    .input (.resize ⟨4, 4, screen5x4.cols_pos, screen5x4.cols_pos⟩ id), .ui, .ui, .ui]

theorem cursors_inPanes_shrunk :
    Run.Always step (fun s => s.client.CursorsIn) (init screen5x4) shrunk ∧
      ∃ s, Run.exec step (init screen5x4) shrunk = some s ∧
        s.client.cursorPositions .side = (1, 0) := by
  refine ⟨cursors_inPanes (Run.guarded_of_forall (fun l hl s => ?_) _), _, rfl, by decide⟩
  simp only [shrunk, key, List.mem_cons, List.not_mem_nil, or_false] at hl
  rcases hl with rfl | rfl | rfl | rfl | rfl | rfl | rfl | rfl | rfl
  case inr.inr.inr.inr.inr.inl => exact fun pan w _ => ⟨rfl, rfl⟩
  all_goals trivial

end System
end Chatcurse

import Chatcurse.Theory.Viewport
import Chatcurse.Verify.Cursor

/-!
# Moving through the panes

A pane shows a list through a `Viewport`. In the side pane rows are counted from the first one of
the window, and `j`, `k`, `G` and `gg` are the four motions (`side_refines`).
-/

namespace Chatcurse
namespace Client
open Viewport (Motion)

/-- A key is pressed. -/
def press (c : Client) (key : Char) : Option Client := (c.processInput (.char key)).map (·.1)

/-- The pane is focused, has the window `w`, and its cursor is on a row of it. -/
structure Focused (pan : Pane) (w : Window) (c : Client) : Prop where
  currentPan : c.currentPan = pan
  window : c.window pan = some w
  row_nonneg : 0 ≤ c.cursor.1
  row_lt : c.cursor.1 < w.lines
  prefixed : c.inputState.PrefixIsG

theorem Focused.press {c c' : Client} (h : c.Focused pan w) (hp : c.press key = some c') :
    c'.Focused pan w ∧ SameData c c' := by
  obtain ⟨⟨_, calls⟩, hkey, rfl⟩ := Option.map_eq_some_iff.mp hp
  obtain ⟨hcur, hw, hy, hlt, hg⟩ := h
  obtain ⟨pos, hmoves⟩ := paneKey_cursor hkey
  refine ⟨⟨hmoves.currentPan.trans hcur, ?_, ?_, ?_, hmoves.prefixed hg⟩, (paneKey_effect hkey).1⟩
  · rw [Client.window, hmoves.layout]
    exact hw
  · rw [cursor, hmoves.currentPan, hmoves.cursor, Function.update_self]
    exact hmoves.row_nonneg hy
  · rw [cursor, hmoves.currentPan, hmoves.cursor, Function.update_self]
    exact hmoves.row_lt w (hcur ▸ hw) hlt

/-- A pane that has a window knows what to do with every key. -/
theorem exists_press {c : Client} (h : c.Focused pan w) (key : Char) :
    ∃ c', c.press key = some c' := by
  have hw : c.window c.currentPan = some w := by rw [h.currentPan, h.window]
  suffices hkey : ∃ r, c.paneKey key = some r by
    obtain ⟨r, hr⟩ := hkey
    exact ⟨r.1, congrArg (Option.map Prod.fst) hr⟩
  unfold paneKey
  split
  · exact ⟨_, rfl⟩
  · exact ⟨_, rfl⟩
  · simp [keyRight, hw]
  · simp [sideDown, hw]
  · exact ⟨_, rfl⟩
  · simp [mainDown, hw]
  · unfold mainUp
    split
    · simp [hw]
    · exact ⟨_, rfl⟩
  · simp [keyEnd, hw]
  · exact ⟨_, rfl⟩
  · exact ⟨_, rfl⟩
  · exact ⟨_, rfl⟩

theorem exists_exec_press {c : Client} (h : c.Focused pan w) (keys : List Char) :
    ∃ c', Run.exec Client.press c keys = some c' := by
  induction keys generalizing c with
  | nil => exact ⟨c, rfl⟩
  | cons key keys ih =>
    obtain ⟨c₁, h₁⟩ := exists_press h key
    obtain ⟨c', hc'⟩ := ih (h.press h₁).1
    exact ⟨c', Run.exec_cons_eq_some.mpr ⟨c₁, h₁, hc'⟩⟩

@[simp] theorem offset_setRow (c : Client) (y : Int) : (c.setRow y).offset = c.offset := rfl

@[simp] theorem cursor_setRow (c : Client) (y : Int) : (c.setRow y).cursor = (y, c.cursor.2) :=
  Function.update_self ..

@[simp] theorem offset_setColumn (c : Client) (x : Int) : (c.setColumn x).offset = c.offset := rfl

@[simp] theorem cursor_setColumn (c : Client) (x : Int) :
    (c.setColumn x).cursor = (c.cursor.1, x) := Function.update_self ..

@[simp] theorem offset_setOffset (c : Client) (n : Nat) : (c.setOffset n).offset = n :=
  Function.update_self ..

@[simp] theorem cursor_setOffset (c : Client) (n : Nat) : (c.setOffset n).cursor = c.cursor := rfl

theorem keyPrefix_top {c : Client} (hpref : c.inputState.state = .S_KEY_PREF)
    (hg : c.inputState.PrefixIsG) : c.keyPrefix =
      (({ c with inputState := c.inputState.reset }.setOffset 0).setRow 0, [.drawSide]) := by
  simp only [keyPrefix, if_pos hpref, if_pos (hg hpref)]

theorem keyPrefix_first {c : Client} (hpref : c.inputState.state ≠ .S_KEY_PREF) : c.keyPrefix =
    ({ c with inputState :=
        { c.inputState with state := .S_KEY_PREF, prefKey := 'g'.toNat } }, []) := by
  simp only [keyPrefix, if_neg hpref]

/-- **The prefix key** goes to the top when it is pressed the second time. -/
theorem keyPrefix_cases {c : Client} (hg : c.inputState.PrefixIsG) :
    (c.inputState.state = .S_KEY_PREF ∧ c.keyPrefix.1.inputState.state = .S_NONE ∧
      c.keyPrefix.1.offset = 0 ∧ c.keyPrefix.1.cursor = (0, c.cursor.2)) ∨
    (c.inputState.state ≠ .S_KEY_PREF ∧ c.keyPrefix.1.inputState.state = .S_KEY_PREF ∧
      c.keyPrefix.1.offset = c.offset ∧ c.keyPrefix.1.cursor = c.cursor) := by
  by_cases hpref : c.inputState.state = .S_KEY_PREF
  · refine .inl ⟨hpref, ?_⟩
    rw [keyPrefix_top hpref hg, offset_setRow, offset_setOffset, cursor_setRow]
    exact ⟨rfl, rfl, rfl⟩
  · refine .inr ⟨hpref, ?_⟩
    rw [keyPrefix_first hpref]
    exact ⟨rfl, rfl, rfl⟩

/-! ## The side pane -/

/-- The list as the side pane shows it. -/
def sideViewport (c : Client) : Viewport := ⟨c.offset, c.cursor.1.toNat⟩

/-- The motion of a key in the side pane. -/
def sideMotion (c : Client) : Char → Option Motion
  | 'j' => some .next
  | 'k' => some .prev
  | 'G' => some .toEnd
  | 'g' => if c.inputState.state = .S_KEY_PREF then some .toStart else none
  | _ => none

def sideMove (w : Window) (c : Client) : Option Motion → Viewport
  | some m => c.sideViewport.move w.lines.toNat c.chatlist.size m
  | none => c.sideViewport

theorem maxOffset_eq (size : Nat) (w : Window) :
    maxOffset size w = max size w.lines.toNat - w.lines.toNat := by
  rw [maxOffset, Nat.max_comm]

theorem sideDown_viewport {c : Client} (h : c.Focused .side w) :
    c.sideDown.map (·.1.sideViewport) = some (c.sideMove w (some .next)) := by
  obtain ⟨hcur, hw, hy, hlt, -⟩ := h
  simp only [sideDown, hcur, hw, Option.map_some, sideMove, Option.some.injEq]
  split
  next hlast =>
    have hrow : w.lines.toNat - 1 ≤ c.sideViewport.row := by
      simp only [sideViewport]
      omega
    rw [Viewport.move_next_last hrow]
    simp [sideViewport, maxOffset_eq]
  next hinner =>
    have hrow : c.sideViewport.row < w.lines.toNat - 1 := by
      simp only [sideViewport]
      omega
    rw [Viewport.move_next_inner hrow]
    simp only [sideViewport, offset_setRow, cursor_setRow]
    ext
    · rfl
    · simp only
      omega

theorem sideUp_viewport {c : Client} (h : c.Focused .side w) :
    c.sideUp.1.sideViewport = c.sideMove w (some .prev) := by
  have hy := h.row_nonneg
  simp only [sideUp, sideMove]
  split
  next hfirst =>
    have hrow : c.sideViewport.row = 0 := Int.toNat_of_nonpos hfirst
    rw [Viewport.move_prev_first hrow]
    simp [sideViewport]
  next hinner =>
    have hrow : c.sideViewport.row ≠ 0 := by
      simp only [sideViewport]
      omega
    rw [Viewport.move_prev_inner hrow]
    simp only [sideViewport, offset_setRow, cursor_setRow]
    ext
    · rfl
    · simp only
      omega

theorem sideEnd_viewport {c : Client} (h : c.Focused .side w) :
    c.keyEnd.map (·.1.sideViewport) = some (c.sideMove w (some .toEnd)) := by
  obtain ⟨hcur, hw, -, -, -⟩ := h
  simp only [keyEnd, hcur, hw, Option.map_some, sideMove, Viewport.move, Option.some.injEq]
  simp [sideViewport, maxOffset_eq]

theorem sidePrefix_viewport {c : Client} (h : c.Focused .side w) :
    c.keyPrefix.1.sideViewport = c.sideMove w (c.sideMotion 'g') := by
  rcases keyPrefix_cases h.prefixed with ⟨hpref, -, hoff, hcur⟩ | ⟨hpref, -, hoff, hcur⟩
  · simp only [sideMotion, if_pos hpref, sideViewport, hoff, hcur]
    rfl
  · simp only [sideMotion, if_neg hpref, sideViewport, hoff, hcur]
    rfl

/-- **A key in the side pane** is its motion. -/
theorem press_side {c : Client} (h : c.Focused .side w) (key : Char) :
    (c.press key).map sideViewport = some (c.sideMove w (c.sideMotion key)) := by
  have hcur := h.currentPan
  have hw := h.window
  rw [press, Option.map_map]
  simp only [processInput, paneKey]
  split
  next hpan => rw [hpan] at hcur; cases hcur
  next => simp [keyLeft, sideMotion, sideMove, sideViewport]
  next =>
    simp [keyRight, hcur, hw, sideMotion, sideMove, sideViewport]
  next => exact sideDown_viewport h
  next => exact congrArg some (sideUp_viewport h)
  next hpan => rw [hpan] at hcur; cases hcur
  next hpan => rw [hpan] at hcur; cases hcur
  next => exact sideEnd_viewport h
  next => exact congrArg some (sidePrefix_viewport h)
  next =>
    unfold keyOpen
    split <;> rfl
  next key _ _ _ _ hG hg _ _ hj hk _ _ =>
    have hnone : c.sideMotion key = none := by
      unfold sideMotion
      split
      · exact (hj hcur rfl).elim
      · exact (hk hcur rfl).elim
      · exact (hG rfl).elim
      · exact (hg rfl).elim
      · rfl
    rw [hnone]
    rfl

/-- The keys of a motion in the side pane. -/
def sideKeys : Motion → List Char
  | .next => ['j']
  | .prev => ['k']
  | .toEnd => ['G']
  | .toStart => ['g', 'g']

/-- The cursor of the side pane is on a row, and no more rows than need be are empty. -/
structure SideInRange (w : Window) (c : Client) : Prop where
  focused : c.Focused .side w
  offset_le : c.scrollOffset .side ≤ max c.chatlist.size w.lines.toNat - w.lines.toNat

theorem SideInRange.valid {c : Client} (h : c.SideInRange w) :
    c.sideViewport.Valid w.lines.toNat c.chatlist.size := by
  obtain ⟨⟨hcur, -, hy, hlt, -⟩, hoff⟩ := h
  refine ⟨?_, ?_⟩
  · simp only [sideViewport]
    omega
  · rw [sideViewport, offset, hcur]
    exact hoff

theorem SideInRange.press {c c' : Client} (h : c.SideInRange w) (hp : c.press key = some c') :
    c'.SideInRange w ∧ c'.chatlist = c.chatlist ∧
      c'.sideViewport = c.sideMove w (c.sideMotion key) := by
  obtain ⟨hfocused, hd⟩ := h.focused.press hp
  have hview := press_side h.focused key
  rw [hp, Option.map_some, Option.some.injEq] at hview
  have hvalid : c'.sideViewport.Valid w.lines.toNat c.chatlist.size := by
    rw [hview]
    cases c.sideMotion key with
    | none => exact h.valid
    | some m => exact Viewport.valid_move h.valid m
  have hoff := hvalid.offset_le
  rw [sideViewport, offset, hfocused.currentPan, ← hd.chatlist_eq] at hoff
  exact ⟨⟨hfocused, hoff⟩, hd.chatlist_eq, hview⟩

theorem press_g {c : Client} (h : c.Focused pan w) (hpan : pan ≠ .comp) :
    c.press 'g' = some c.keyPrefix.1 := by
  rw [← h.currentPan] at hpan
  simp only [press, processInput, paneKey, Option.map_some]

theorem exec_sideKey {c : Client} (h : c.SideInRange w) (hm : c.sideMotion key = some m) :
    ∃ c', Run.exec Client.press c [key] = some c' ∧ c'.SideInRange w ∧
      c'.chatlist = c.chatlist ∧ c'.sideViewport = c.sideMove w (some m) := by
  obtain ⟨c', hc'⟩ := exists_press h.focused key
  refine ⟨c', ?_, hm ▸ h.press hc'⟩
  rw [Run.exec_cons, hc', Option.bind_some, Run.exec_nil]

/-- The keys of a motion move the viewport, whether or not a prefix was pending. -/
theorem exec_sideKeys {c : Client} (h : c.SideInRange w) (m : Motion) :
    ∃ c', Run.exec Client.press c (sideKeys m) = some c' ∧ c'.SideInRange w ∧
      c'.chatlist = c.chatlist ∧ c'.sideViewport = c.sideMove w (some m) := by
  cases m with
  | next => exact exec_sideKey h rfl
  | prev => exact exec_sideKey h rfl
  | toEnd => exact exec_sideKey h rfl
  | toStart =>
    obtain ⟨c₁, h₁⟩ := exists_press h.focused 'g'
    obtain ⟨hin₁, hlist₁, hview₁⟩ := h.press h₁
    obtain ⟨c₂, h₂⟩ := exists_press hin₁.focused 'g'
    obtain ⟨hin₂, hlist₂, hview₂⟩ := hin₁.press h₂
    have hfirst : c₁ = c.keyPrefix.1 :=
      Option.some.inj (h₁.symm.trans (press_g h.focused (by decide)))
    refine ⟨c₂, ?_, hin₂, hlist₂.trans hlist₁, ?_⟩
    · simp only [sideKeys, Run.exec_cons, h₁, h₂, Option.bind_some, Run.exec_nil]
    rcases keyPrefix_cases h.focused.prefixed with ⟨hpref, hnone, -⟩ | ⟨hpref, hset, -⟩
    · have hm : c.sideMotion 'g' = some .toStart := if_pos hpref
      have hm₁ : c₁.sideMotion 'g' = none := if_neg (by rw [hfirst, hnone]; decide)
      have hsame : c₂.sideViewport = c₁.sideViewport := by rw [hview₂, hm₁, sideMove]
      rw [hsame, hview₁, hm]
    · have hm₁ : c₁.sideMotion 'g' = some .toStart := if_pos (by rw [hfirst, hset])
      rw [hview₂, hm₁]
      rfl

/-- The place of the list that the cursor of the side pane is on. -/
def sideIndex (c : Client) : Nat :=
  c.scrollOffset .side + (c.cursorPositions .side).1.toNat

theorem SideInRange.index_eq {c : Client} (h : c.SideInRange w) :
    c.sideIndex = c.sideViewport.index := by
  rw [sideIndex, Viewport.index, sideViewport, offset, cursor, h.focused.currentPan]

theorem exec_sideMotions {c : Client} (h : c.SideInRange w) (ms : List Motion) :
    ∃ c', Run.exec Client.press c (ms.flatMap sideKeys) = some c' ∧ c'.SideInRange w ∧
      c'.chatlist = c.chatlist ∧
      c'.sideIndex = Motion.targets (max c.chatlist.size w.lines.toNat) c.sideIndex ms := by
  induction ms generalizing c with
  | nil => exact ⟨c, rfl, h, rfl, rfl⟩
  | cons m ms ih =>
    obtain ⟨c₁, h₁, hin₁, hlist₁, hview₁⟩ := exec_sideKeys h m
    obtain ⟨c₂, h₂, hin₂, hlist₂, hindex₂⟩ := ih hin₁
    have hindex₁ : c₁.sideIndex =
        m.target (max c.chatlist.size w.lines.toNat) c.sideIndex := by
      rw [hin₁.index_eq, hview₁, h.index_eq]
      exact Viewport.index_move h.valid m
    refine ⟨c₂, ?_, hin₂, hlist₂.trans hlist₁, ?_⟩
    · rw [List.flatMap_cons, Run.exec_append, h₁, Option.bind_some, h₂]
    · rw [hindex₂, hindex₁, hlist₁]
      rfl

end Client

/-! ## The prefix -/

theorem processB1Pressed_state (i : InputState) (l : Layout) (m : MEvent) :
    (i.processB1Pressed l m).state ≠ .S_KEY_PREF := by
  unfold InputState.processB1Pressed
  extract_lets place pressed
  obtain ⟨edge, pane⟩ := place
  cases edge <;> exact nofun

theorem InputState.PrefixIsG.processMouse {i : InputState} (h : i.PrefixIsG) (l : Layout)
    (m : MEvent) : (i.processMouse l m).1.PrefixIsG := by
  unfold InputState.processMouse
  split
  · exact fun hpref => (processB1Pressed_state i l m hpref).elim
  split
  · exact nofun
  split <;> exact h

namespace Client

theorem processInput_prefixIsG {c c' : Client} (h : c.processInput k = some (c', calls))
    (hg : c.inputState.PrefixIsG) : c'.inputState.PrefixIsG := by
  cases k with
  | mouse m =>
    cases m with
    | none =>
      cases h
      exact hg
    | some m =>
      rw [processInput_mouse_inputState h]
      exact hg.processMouse _ _
  | resize s adjust =>
    have hframe := congrArg Frame.input (processInput_resize_frame h)
    change c'.inputState = c.inputState at hframe
    rw [hframe]
    exact hg
  | ctrlQ | tab | err =>
    cases h
    exact hg
  | char key =>
    obtain ⟨pos, hmoves⟩ := paneKey_cursor h
    exact hmoves.prefixed hg

theorem processEvent_inputState {c c' : Client} (h : c.processEvent e = some (c', calls)) :
    c'.inputState = c.inputState := by
  cases e with
  | eventResize sideW compH =>
    obtain ⟨-, -, -, hframe⟩ := resize_frame h
    exact congrArg Frame.input hframe
  | eventQuit | eventChatlist | eventCyclePanel | eventMessages =>
    cases h
    rfl

end Client

namespace System
open Client

theorem prefixIsG_step {s s' : System} (hg : s.client.inputState.PrefixIsG)
    (hs : s.step l = some s') : s'.client.inputState.PrefixIsG := by
  cases Steps.of_step hs with
  | input hui hc => exact processInput_prefixIsG hc hg
  | popSome hui hq he =>
    have hsame := processEvent_inputState he
    simp only at hsame ⊢
    rw [hsame]
    exact hg
  | write htg ha =>
    rw [TgAction.run_eq ha]
    exact hg
  | drawSide | drawMain | getChatHistory | popNone | update | answer | lock | unlock => exact hg

/-- **The prefix key** that is pending is `g` in every reachable state. -/
theorem prefixIsG_of_exec (h : Run.exec step (init screen) ls = some s) :
    s.client.inputState.PrefixIsG :=
  Run.exec_inv (P := fun s => s.client.inputState.PrefixIsG) (fun _ _ _ => prefixIsG_step) nofun h

end System

namespace Client
open Viewport (Motion)

/-- An input state of some run of the client. -/
def InputReachable (i : InputState) : Prop :=
  ∃ screen ls s, Run.exec System.step (System.init screen) ls = some s ∧ s.client.inputState = i

theorem InputReachable.prefixIsG {i : InputState} (h : InputReachable i) : i.PrefixIsG := by
  obtain ⟨screen, ls, s, hs, rfl⟩ := h
  exact System.prefixIsG_of_exec hs

/-- **The side pane** is navigated by `j`, `k`, `G` and `gg` as a list of as many places as it has
chats or the pane has rows: the keys move the place of the cursor as their motions do, after each of
them the cursor and the offset are in range, and they lead to every place. -/
theorem side_refines {c : Client} (hpan : c.currentPan = .side) (hw : c.window .side = some w)
    (hoff : c.scrollOffset .side ≤ max c.chatlist.size w.lines.toNat - w.lines.toNat)
    (hrow : 0 ≤ (c.cursorPositions .side).1 ∧ (c.cursorPositions .side).1 < w.lines)
    (hinput : InputReachable c.inputState) :
    (∀ ms : List Motion, Run.Always press (SideInRange w) c (ms.flatMap sideKeys) ∧
      ∃ c', Run.exec press c (ms.flatMap sideKeys) = some c' ∧ c'.sideIndex =
        Motion.targets (max c.chatlist.size w.lines.toNat) c.sideIndex ms) ∧
    ∀ i < max c.chatlist.size w.lines.toNat, ∃ (ms : List Motion) (c' : Client),
      Run.exec press c (ms.flatMap sideKeys) = some c' ∧ c'.sideIndex = i := by
  have hin : c.SideInRange w :=
    ⟨⟨hpan, hw, by rw [cursor, hpan]; exact hrow.1, by rw [cursor, hpan]; exact hrow.2,
      hinput.prefixIsG⟩, hoff⟩
  refine ⟨fun ms => ⟨?_, ?_⟩, fun i hi => ?_⟩
  · exact .of_inv (fun _ _ _ h hp => (h.press hp).1) hin
  · obtain ⟨c', hc', -, -, hindex⟩ := exec_sideMotions hin ms
    exact ⟨c', hc', hindex⟩
  · obtain ⟨ms, hms⟩ := Viewport.exists_targets hi c.sideIndex
    obtain ⟨c', hc', -, -, hindex⟩ := exec_sideMotions hin ms
    exact ⟨ms, c', hc', hindex.trans hms⟩

/-- Five chats in a pane of three rows. -/
def fiveChats : Client :=
  { init System.screen5x4 with
    store := [5, 4, 3, 2, 1].foldl (fun s chatId =>
      s.processUpdateNewChat ⟨chatId, ascii "a", none, [], [.chatListMain]⟩) ChatStore.empty }

theorem side_refines_fiveChats : ∃ w c', fiveChats.window .side = some w ∧ w.lines = 3 ∧
    Run.exec press fiveChats (List.flatMap sideKeys [.next, .next, .next, .next, .prev]) =
      some c' ∧ c'.sideIndex = 3 := by
  have hinput : InputReachable fiveChats.inputState := ⟨System.screen5x4, [], _, rfl, rfl⟩
  obtain ⟨hkeys, -⟩ := side_refines (c := fiveChats) rfl rfl (by decide) (by decide) hinput
  obtain ⟨-, c', hc', hindex⟩ := hkeys [.next, .next, .next, .next, .prev]
  exact ⟨_, c', rfl, by decide, hc', hindex.trans (by decide)⟩

end Client
end Chatcurse

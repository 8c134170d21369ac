import Chatcurse.Verify.Layout

/-!
# The mouse and the windows agree

`process_B1_pressed` finds the window that a cell belongs to, on every cell and for every pair of
sizes (`processB1Pressed_place`). A report during a drag asks for the sizes that bring each border
of the dragged edge to the pointer and leaves the other border alone (`Follows`), so that a corner
stays under the pointer (`hits_and_follows`).
-/

namespace Chatcurse
open Layout

/-- What a press should find in a window: whether it is on an edge, and the pane or the edge. -/
def PanelId.place (sideW x : Int) : PanelId → Bool × Nat
  | .side => (false, ID_SIDE)
  | .main => (false, ID_MAIN)
  | .comp => (false, ID_COMP)
  | .eSideMain => (true, ID_E_SIDE_MAIN)
  | .cSideMainComp => (true, if x = sideW then ID_C_SIDE_MAIN_COMP else ID_E_COMP_TOP)

instance (s : Screen) (sideW composerH : Int) : Decidable (InRange s sideW composerH) :=
  inferInstanceAs (Decidable (_ ∧ _))

/-- The windows that `init_layout` and `resize` make for these sizes. -/
def Layout.ofSizes (s : Screen) (sideW composerH : Int) : Layout :=
  ⟨s, sideW, composerH, newWindows s sideW composerH⟩

namespace InputState

/-- What a press finds. -/
def place (i : InputState) : Bool × Nat := (i.mbufEdge, i.mbufWhere)

/-- **A press** finds the window that owns the cell, whatever the sizes are. -/
theorem processB1Pressed_place (i : InputState) (l : Layout) (m : MEvent) :
    (i.processB1Pressed l m).place =
      (owner l.screen l.sideW l.composerH m.y m.x).place l.sideW m.x := by
  unfold processB1Pressed owner
  split
  next =>
    split
    next => rfl
    next =>
      split
      next hx =>
        have hborder : ¬m.x = l.sideW := by omega
        rw [if_neg hborder]
        rfl
      next hx hx' =>
        have hborder : m.x = l.sideW := by omega
        rw [if_pos hborder]
        rfl
  next =>
    split
    next =>
      have hborder : ¬m.y = l.screen.LINES - l.composerH - 1 := by omega
      rw [if_neg hborder]
      rfl
    next =>
      have hborder : m.y = l.screen.LINES - l.composerH - 1 := by omega
      rw [if_pos hborder]
      split
      next hx =>
        simp only [PanelId.place, if_pos hx]
        rfl
      next hx =>
        simp only [PanelId.place, if_neg hx]
        rfl

/-- A press on an edge begins a drag. -/
theorem processB1Pressed_drag {i : InputState} (h : (i.processB1Pressed l m).mbufEdge = true) :
    (i.processB1Pressed l m).state = .S_MOUSE_DRAG := by
  revert h
  unfold processB1Pressed
  extract_lets place pressed
  obtain ⟨edge, pane⟩ := place
  cases edge with
  | false => exact nofun
  | true => exact fun _ => rfl

end InputState

namespace Frame

/-- A report of the pointer's position, no press and no release. -/
def Reports (m : MEvent) : Prop :=
  m.button1Pressed = false ∧ m.button1Released = false ∧ m.reportMousePosition = true

instance (m : MEvent) : Decidable (Reports m) := inferInstanceAs (Decidable (_ ∧ _))

/-- The borders of a layout after a report, beside those of the layout before. -/
structure Follows (l l' : Layout) (edge : Nat) (m : MEvent) : Prop where
  vertical : ∀ v ∈ l.panels .eSideMain, ∃ v' ∈ l'.panels .eSideMain,
    v'.cols = 1 ∧ v'.begX = if edge &&& ID_E_SIDE_MAIN ≠ 0 then m.x else v.begX
  horizontal : ∀ v ∈ l.panels .cSideMainComp, ∃ v' ∈ l'.panels .cSideMainComp,
    v'.lines = 1 ∧ v'.begY = if edge &&& ID_E_COMP_TOP ≠ 0 then m.y else v.begY
  /-- A press where the corner was dragged to is on the corner. -/
  corner : edge = ID_C_SIDE_MAIN_COMP → ∀ (i : InputState) (m' : MEvent), m'.y = m.y → m'.x = m.x →
    (i.processB1Pressed l' m').place = (true, ID_C_SIDE_MAIN_COMP)

/-- A frame in a drag that began in the layout `l`. -/
structure Dragging (l : Layout) (i : InputState) (f : Frame) : Prop where
  input : f.input = i
  screen : f.layout.screen = l.screen
  sideW : i.mbufWhere &&& ID_E_SIDE_MAIN = 0 → f.layout.sideW = l.sideW
  composerH : i.mbufWhere &&& ID_E_COMP_TOP = 0 → f.layout.composerH = l.composerH

theorem handle_press (l : Layout) (i : InputState) (h : m.button1Pressed = true) :
    (Frame.mk l i).handle (.mouse m) = ⟨l, i.processB1Pressed l m⟩ := by
  simp only [handle, InputState.processMouse, if_pos h]

theorem handle_report_input {f : Frame} (h : Reports m) :
    (f.handle (.mouse m)).input = f.input := by
  obtain ⟨hp, hr, hm⟩ := h
  simp [handle, InputState.processMouse, hp, hr, hm]

theorem handle_report_layout {f : Frame} (hd : f.input.state = .S_MOUSE_DRAG) (h : Reports m) :
    (f.handle (.mouse m)).layout =
      f.layout.resize (f.input.dragSizes f.layout m).1 (f.input.dragSizes f.layout m).2 := by
  rw [handle_mouse_layout, if_pos ⟨hd, h⟩]

/-- A report leaves the border alone that is not dragged, also where its sizes are rejected. -/
theorem Dragging.report {f : Frame} (h : Dragging l i f) (hd : i.state = .S_MOUSE_DRAG)
    (hm : Reports m) : Dragging l i (f.handle (.mouse m)) := by
  obtain ⟨rfl, hscreen, hside, hcomp⟩ := h
  have hlayout := handle_report_layout hd hm
  refine ⟨handle_report_input hm, ?_, fun h0 => ?_, fun h0 => ?_⟩
  · rw [hlayout, resize_screen, hscreen]
  · have hkeeps : (f.input.dragSizes f.layout m).1 = f.layout.sideW := if_neg (not_not.mpr h0)
    rw [hlayout, hkeeps, resize_sideW, hside h0]
  · have hkeeps : (f.input.dragSizes f.layout m).2 = f.layout.composerH := if_neg (not_not.mpr h0)
    rw [hlayout, hkeeps, resize_composerH, hcomp h0]

theorem Dragging.reports {f : Frame} {ms : List MEvent} (h : Dragging l i f)
    (hd : i.state = .S_MOUSE_DRAG) (hms : ∀ m ∈ ms, Reports m) :
    Dragging l i (ms.foldl (fun f m => f.handle (.mouse m)) f) := by
  induction ms generalizing f with
  | nil => exact h
  | cons m ms ih =>
    obtain ⟨hm, hms⟩ := List.forall_mem_cons.mp hms
    exact ih (h.report hd hm) hms

/-- A report on the screen lays the windows out for the sizes it asks for. -/
theorem Dragging.layout_eq {f : Frame} (h : Dragging (ofSizes s w n) i f) (hr : InRange s w n)
    (hd : i.state = .S_MOUSE_DRAG) (hm : Reports m) (ho : f.Occurs (.mouse m)) :
    (f.handle (.mouse m)).layout =
      ofSizes s (if i.mbufWhere &&& ID_E_SIDE_MAIN ≠ 0 then m.x else w)
        (if i.mbufWhere &&& ID_E_COMP_TOP ≠ 0 then s.LINES - m.y - 1 else n) := by
  obtain ⟨rfl, hscreen, hside, hcomp⟩ := h
  change f.layout.screen = s at hscreen
  subst hscreen
  obtain ⟨hw, hw', hn, hn'⟩ := hr
  obtain ⟨hy, hy', hx, hx'⟩ := ho
  have hsizes : f.input.dragSizes f.layout m =
      (if f.input.mbufWhere &&& ID_E_SIDE_MAIN ≠ 0 then m.x else w,
        if f.input.mbufWhere &&& ID_E_COMP_TOP ≠ 0 then f.layout.screen.LINES - m.y - 1
        else n) := by
    unfold InputState.dragSizes
    congr 1
    · split
      · rfl
      next h0 => exact hside (not_not.mp h0)
    · split
      · rfl
      next h0 => exact hcomp (not_not.mp h0)
  rw [handle_report_layout hd hm, hsizes]
  refine resize_eq ?_ ?_
  · split <;> omega
  · split <;> omega

/-- The two borders of a layout in range. -/
theorem borders (hr : InRange s w n) :
    (∃ v ∈ newWindows s w n .eSideMain, v.cols = 1 ∧ v.begX = w) ∧
      ∃ v ∈ newWindows s w n .cSideMainComp, v.lines = 1 ∧ v.begY = s.LINES - n - 1 := by
  obtain ⟨hw, hw', hn, hn'⟩ := hr
  have hcols := s.cols_pos
  exact ⟨⟨_, s.newwin_of_pos (by omega) (by omega) (by omega) (by omega), rfl, rfl⟩,
    ⟨_, s.newwin_of_pos (by omega) (by omega) (by omega) (by omega), rfl, rfl⟩⟩

/-- Sizes in range whose dragged parts are the pointer's put the borders where they should be. -/
theorem follows_of_sizes (hr : InRange s w n) (hr' : InRange s w' n')
    (hw : w' = if edge &&& ID_E_SIDE_MAIN ≠ 0 then m.x else w)
    (hn : n' = if edge &&& ID_E_COMP_TOP ≠ 0 then s.LINES - m.y - 1 else n) :
    Follows (ofSizes s w n) (ofSizes s w' n') edge m := by
  obtain ⟨⟨v, hv, -, hx⟩, ⟨t, ht, -, hy⟩⟩ := borders hr
  obtain ⟨⟨v', hv', hcols, hx'⟩, ⟨t', ht', hlines, hy'⟩⟩ := borders hr'
  refine ⟨fun u hu => ⟨v', hv', hcols, ?_⟩, fun u hu => ⟨t', ht', hlines, ?_⟩, ?_⟩
  · obtain rfl : v = u := Option.some.inj (hv.symm.trans hu)
    rw [hx', hx, hw]
  · obtain rfl : t = u := Option.some.inj (ht.symm.trans hu)
    rw [hy', hy, hn]
    split <;> omega
  · intro hedge i m' hmy hmx
    have hcx : w' = m.x := by rw [hw, hedge]; rfl
    have hcy : n' = s.LINES - m.y - 1 := by rw [hn, hedge]; rfl
    have hown : owner s w' n' m'.y m'.x = .cSideMainComp := by
      unfold owner
      rw [if_neg (by omega), if_pos (by omega)]
    rw [InputState.processB1Pressed_place]
    change (owner s w' n' m'.y m'.x).place w' m'.x = _
    rw [hown, PanelId.place, if_pos (by omega)]

/-- **Hit test and drag.** Each cell of the screen is covered by one of the windows, and a press
there finds that window. From a press on an edge on, a report whose sizes are in range brings the
dragged borders to the pointer, whatever was reported before it. -/
theorem hits_and_follows (i : InputState) (hr : InRange s w n)
    (ho : (Frame.mk (ofSizes s w n) i).Occurs (.mouse m)) :
    let l := ofSizes s w n
    (∃! id, ∃ win ∈ l.panels id, win.Covers m.y m.x) ∧
      (∀ id, ∀ win ∈ l.panels id, win.Covers m.y m.x →
        (i.processB1Pressed l m).place = id.place w m.x) ∧
      ∀ (ms : List MEvent) (m' : MEvent),
        let f := ms.foldl (fun f m => f.handle (.mouse m)) ((Frame.mk l i).handle (.mouse m))
        let l' := (f.handle (.mouse m')).layout
        m.button1Pressed = true → (i.processB1Pressed l m).mbufEdge = true →
        (∀ m ∈ ms, Reports m) → Reports m' → f.Occurs (.mouse m') →
        InRange s l'.sideW l'.composerH →
        Follows l l' (i.processB1Pressed l m).mbufWhere m' := by
  obtain ⟨hy, hy', hx, hx'⟩ := ho
  have hcovers := hr.covers_iff hy hy' hx hx'
  refine ⟨⟨_, (hcovers _).mpr rfl, fun id hid => (hcovers id).mp hid⟩, ?_, ?_⟩
  · intro id win hwin hc
    obtain rfl := (hcovers id).mp ⟨win, hwin, hc⟩
    exact InputState.processB1Pressed_place i _ m
  · intro ms m' f l' hp hedge hms hm' ho' hr'
    have hd := InputState.processB1Pressed_drag hedge
    have hpress : Dragging (ofSizes s w n) (i.processB1Pressed (ofSizes s w n) m)
        ((Frame.mk (ofSizes s w n) i).handle (.mouse m)) := by
      rw [handle_press _ _ hp]
      exact ⟨rfl, rfl, fun _ => rfl, fun _ => rfl⟩
    have hl' := (hpress.reports hd hms).layout_eq hr hd hm' ho'
    change l' = _ at hl'
    rw [hl'] at hr' ⊢
    exact follows_of_sizes hr hr' rfl rfl

/-- The corner is dragged down to the left and then to the middle of the screen. -/
theorem hits_and_follows_corner :
    let l := ofSizes screen24x80 20 3
    Follows l (ofSizes screen24x80 40 13) ID_C_SIDE_MAIN_COMP ⟨false, false, true, 10, 40⟩ :=
  (hits_and_follows {} (s := screen24x80) (w := 20) (n := 3)
    (m := ⟨true, false, false, 20, 20⟩) (by decide) (by decide)).2.2
    [⟨false, false, true, 22, 1⟩] ⟨false, false, true, 10, 40⟩ rfl rfl (by decide) (by decide)
    (by decide) (by decide)

end Frame
end Chatcurse

import Chatcurse.Verify.KeyPrefix

/-!
# Typing and dragging

A run is compared with the client that gets the same inputs without the typed keys (`SameDrag`). The
mouse and a `KEY_RESIZE` do the same to both (`SameDrag.processInput`), and of the typed keys only a
`g` writes the field that says that an edge is being dragged. So the sizes, and the sizes that the
next report asks for, are those of the other client exactly as long as no `g` is pressed in the side
or the main pane during a drag (`sizes_iff_keepsDrag`).
-/

namespace Chatcurse

/-- A press asks nothing of the input state it finds. -/
theorem InputState.processB1Pressed_congr (i j : InputState) (l : Layout) (m : MEvent) :
    (i.processB1Pressed l m).mbufWhere = (j.processB1Pressed l m).mbufWhere ∧
      ((i.processB1Pressed l m).state = .S_MOUSE_DRAG ↔
        (j.processB1Pressed l m).state = .S_MOUSE_DRAG) := by
  unfold processB1Pressed
  extract_lets place pressed pressed'
  obtain ⟨edge, pane⟩ := place
  cases edge <;> exact ⟨rfl, Iff.rfl⟩

namespace Client

/-- The keys that are typed; the terminal sends a `KEY_RESIZE`. -/
def Key.typed : Key → Bool
  | .char _ | .tab => true
  | .mouse _ | .resize .. | .ctrlQ | .err => false

/-- The windows are the same, and the same edge is being dragged or none is. -/
structure SameDrag (c d : Client) : Prop where
  layout : d.layout = c.layout
  mbufWhere : d.inputState.mbufWhere = c.inputState.mbufWhere
  drag : d.inputState.state = .S_MOUSE_DRAG ↔ c.inputState.state = .S_MOUSE_DRAG

theorem SameDrag.of_focus {c c' d : Client} (h : SameDrag c d) (hc : SameFocus c c') :
    SameDrag c' d :=
  ⟨h.layout.trans hc.layout.symm, by rw [hc.inputState]; exact h.mbufWhere,
    by rw [hc.inputState]; exact h.drag⟩

/-- The sizes that a report asks for, if it asks for any. -/
def asks (c : Client) (m : MEvent) : Option (Int × Int) :=
  (c.inputState.processMouse c.layout m).2

theorem SameDrag.processMouse {c d : Client} (h : SameDrag c d) (m : MEvent) :
    d.asks m = c.asks m ∧
      (d.inputState.processMouse d.layout m).1.mbufWhere =
        (c.inputState.processMouse c.layout m).1.mbufWhere ∧
      ((d.inputState.processMouse d.layout m).1.state = .S_MOUSE_DRAG ↔
        (c.inputState.processMouse c.layout m).1.state = .S_MOUSE_DRAG) := by
  obtain ⟨hl, hw, hd⟩ := h
  unfold asks InputState.processMouse
  rw [hl]
  split
  · exact ⟨rfl, InputState.processB1Pressed_congr _ _ _ _⟩
  split
  · exact ⟨rfl, hw, iff_of_false nofun nofun⟩
  split
  · refine ⟨?_, hw, hd⟩
    simp only [hd, InputState.dragSizes, hw]
  · exact ⟨rfl, hw, hd⟩

theorem clampCursor_defined {c c' d : Client} (hl : d.layout = c.layout)
    (h : c.clampCursor pan = some c') :
    ∃ d', d.clampCursor pan = some d' ∧ d'.layout = c'.layout := by
  obtain ⟨w, hw, rfl⟩ := Option.map_eq_some_iff.mp h
  have hw' : d.window pan = some w := by
    rw [window, hl]
    exact hw
  exact ⟨_, Option.map_eq_some_iff.mpr ⟨w, hw', rfl⟩, hl⟩

/-- Where the windows are the same a resize is defined for both. -/
theorem resize_defined {c d : Client} (hl : d.layout = c.layout)
    (h : c.resize w n = some (c', calls)) : ∃ d', d.resize w n = some (d', calls) := by
  unfold resize at h ⊢
  rw [hl]
  split at h
  next hw =>
    cases h
    exact ⟨d, if_pos hw⟩
  next hw =>
    rw [if_neg hw]
    split at h
    next hn =>
      cases h
      exact ⟨d, if_pos hn⟩
    next hn =>
      rw [if_neg hn]
      obtain ⟨c₁, h₁, h⟩ := Option.bind_eq_some_iff.mp h
      obtain ⟨c₂, h₂, h⟩ := Option.bind_eq_some_iff.mp h
      obtain ⟨c₃, h₃, h⟩ := Option.map_eq_some_iff.mp h
      cases h
      have hl₀ : ({ d with layout := c.layout.resize w n } : Client).layout =
          ({ c with layout := c.layout.resize w n } : Client).layout := rfl
      obtain ⟨d₁, g₁, hl₁⟩ := clampCursor_defined hl₀ h₁
      obtain ⟨d₂, g₂, hl₂⟩ := clampCursor_defined hl₁ h₂
      obtain ⟨d₃, g₃, -⟩ := clampCursor_defined hl₂ h₃
      exact ⟨d₃, Option.bind_eq_some_iff.mpr ⟨d₁, g₁, Option.bind_eq_some_iff.mpr ⟨d₂, g₂,
        Option.map_eq_some_iff.mpr ⟨d₃, g₃, rfl⟩⟩⟩⟩

theorem SameDrag.handle {c d : Client} (h : SameDrag c d) (e : FrameEvent) :
    (d.frame.handle e).layout = (c.frame.handle e).layout ∧
      (d.frame.handle e).input.mbufWhere = (c.frame.handle e).input.mbufWhere ∧
      ((d.frame.handle e).input.state = .S_MOUSE_DRAG ↔
        (c.frame.handle e).input.state = .S_MOUSE_DRAG) := by
  cases e with
  | resize s adjust =>
    refine ⟨?_, h.mbufWhere, h.drag⟩
    simp only [Frame.handle, frame, h.layout]
  | mouse m =>
    obtain ⟨hasks, hinput⟩ := h.processMouse m
    unfold asks at hasks
    refine ⟨?_, hinput⟩
    simp only [Frame.handle, frame, hasks]
    rw [h.layout]

theorem SameDrag.of_frame {c c' d d' : Client} (h : SameDrag c d)
    (hc : c'.frame = c.frame.handle e) (hd : d'.frame = d.frame.handle e) : SameDrag c' d' := by
  have hsame := h.handle e
  rw [← hc, ← hd] at hsame
  exact ⟨hsame.1, hsame.2.1, hsame.2.2⟩

/-- **An input that is not typed** does the same to both. -/
theorem SameDrag.processInput {c c' d : Client} (h : SameDrag c d) (hk : k.typed = false)
    (hc : c.processInput k = some (c', calls)) :
    ∃ d', d.processInput k = some (d', calls) ∧ SameDrag c' d' := by
  cases k with
  | char | tab => cases hk
  | ctrlQ | err =>
    cases hc
    exact ⟨_, rfl, h.layout, h.mbufWhere, h.drag⟩
  | resize s adjust =>
    suffices hdef : ∃ d', d.processInput (.resize s adjust) = some (d', calls) by
      obtain ⟨d', hd'⟩ := hdef
      exact ⟨d', hd', h.of_frame (processInput_resize_frame hc) (processInput_resize_frame hd')⟩
    have hl : ({ d with layout := c.layout.resizeTerm s adjust } : Client).layout =
        ({ c with layout := c.layout.resizeTerm s adjust } : Client).layout := rfl
    simp only [Client.processInput, h.layout] at hc ⊢
    exact resize_defined hl hc
  | mouse m =>
    cases m with
    | none =>
      cases hc
      exact ⟨_, rfl, h⟩
    | some m =>
      suffices hdef : ∃ d', d.processInput (.mouse (some m)) = some (d', calls) by
        obtain ⟨d', hd'⟩ := hdef
        exact ⟨d', hd', h.of_frame (processInput_mouse_frame hc) (processInput_mouse_frame hd')⟩
      have hasks : (d.inputState.processMouse d.layout m).2 =
          (c.inputState.processMouse c.layout m).2 := (h.processMouse m).1
      simp only [Client.processInput, hasks] at hc ⊢
      split at hc
      next =>
        have hl : ({ d with inputState := (d.inputState.processMouse d.layout m).1 } :
            Client).layout = ({ c with inputState := (c.inputState.processMouse c.layout m).1 } :
            Client).layout := h.layout
        exact resize_defined hl hc
      next =>
        cases hc
        exact ⟨_, rfl⟩

/-- A `g` overwrites what a press on an edge left in `state`. -/
theorem keyPrefix_drag (c : Client) :
    c.keyPrefix.1.inputState.mbufWhere = c.inputState.mbufWhere ∧
      c.keyPrefix.1.inputState.state ≠ .S_MOUSE_DRAG := by
  unfold keyPrefix
  split
  · split <;> exact ⟨rfl, nofun⟩
  · exact ⟨rfl, nofun⟩

/-- During a drag no `g` is pressed in the side or in the main pane. -/
def KeepsDrag (c : Client) : Key → Prop
  | .char key => key = 'g' → c.inputState.state = .S_MOUSE_DRAG → c.currentPan = .comp
  | .tab | .mouse _ | .resize .. | .ctrlQ | .err => True

theorem SameDrag.typed {c c' d : Client} (h : SameDrag c d) (hk : k.typed = true)
    (hok : c.KeepsDrag k) (hc : c.processInput k = some (c', calls)) : SameDrag c' d := by
  cases k with
  | mouse | resize | ctrlQ | err => cases hk
  | tab =>
    cases hc
    exact ⟨h.layout, h.mbufWhere, h.drag⟩
  | char key =>
    rcases eq_or_ne c.currentPan .comp with hpan | hpan
    · exact h.of_focus (paneKey_focus hc (.inl hpan))
    rcases eq_or_ne key 'g' with rfl | hkey
    · obtain ⟨hwhere, hnot⟩ := c.keyPrefix_drag
      obtain ⟨pos, hmoves⟩ := paneKey_cursor hc
      have heq := keyPrefix_of_g hpan hc
      rw [heq] at hwhere hnot
      have hstate : c.inputState.state ≠ .S_MOUSE_DRAG := fun hdrag => hpan (hok rfl hdrag)
      exact ⟨h.layout.trans hmoves.layout.symm, h.mbufWhere.trans hwhere.symm,
        iff_of_false (mt h.drag.mp hstate) hnot⟩
    · exact h.of_focus (paneKey_focus hc (.inr hkey))

/-- The sizes are the same, and so are those that the mouse asks for next. -/
structure SameSizes (c d : Client) : Prop where
  sideW : d.layout.sideW = c.layout.sideW
  composerH : d.layout.composerH = c.layout.composerH
  asks : ∀ m, d.asks m = c.asks m

theorem SameDrag.sameSizes {c d : Client} (h : SameDrag c d) : SameSizes c d :=
  ⟨by rw [h.layout], by rw [h.layout], fun m => (h.processMouse m).1⟩

/-- A `g` during a drag loses the next report. -/
theorem SameSizes.keepsDrag {c c' d : Client} (h : SameDrag c d) (hs : SameSizes c' d)
    (hc : c.processInput k = some (c', calls)) (hk : k.typed = true) : c.KeepsDrag k := by
  cases k with
  | mouse | resize | ctrlQ | err => cases hk
  | tab => trivial
  | char key =>
    rintro rfl hdrag
    refine not_not.mp fun hpan => ?_
    have heq := keyPrefix_of_g hpan hc
    obtain ⟨-, hnot⟩ := c.keyPrefix_drag
    rw [heq] at hnot
    have hasks := hs.asks ⟨false, false, true, 0, 0⟩
    simp [Client.asks, InputState.processMouse, h.drag.mpr hdrag, hnot] at hasks

end Client

namespace System
open Client

/-- The client that gets the inputs so far without the typed keys. -/
def noteUntyped (_ : System) (l : Label) (_ : System) (other : Option Client) : Option Client :=
  match l with
  | .input k => if k.typed then other else other.bind fun d => (d.processInput k).map (·.1)
  | .ui | .update _ | .answer .. | .tg => other

def KeepsDrag (s : System) : Label → Prop
  | .input k => s.client.KeepsDrag k
  | .ui | .update _ | .answer .. | .tg => True

/-- The invariant of a run beside the client without the typed keys. -/
structure Beside (x : System × Option Client) : Prop where
  quiet : x.1.Quiet
  same : ∃ d ∈ x.2, SameDrag x.1.client d

theorem Beside.step {s s' : System} (h : Beside (s, other)) (hs : s.step l = some s') :
    ((∃ d ∈ noteUntyped s l s' other, SameSizes s'.client d) → s.KeepsDrag l) ∧
      (s.KeepsDrag l → Beside (s', noteUntyped s l s' other)) := by
  obtain ⟨hq, d, hd, hsame⟩ := h
  change other = some d at hd
  subst hd
  have hq' := hq.step hs
  cases l with
  | input k =>
    obtain ⟨-, hs⟩ := Option.ite_none_right_eq_some.mp hs
    obtain ⟨⟨c, calls⟩, hc, rfl⟩ := Option.map_eq_some_iff.mp hs
    cases hk : k.typed with
    | true =>
      simp only [noteUntyped, hk, if_true]
      refine ⟨fun ⟨d', hd', hsizes⟩ => ?_, fun hok => ⟨hq', d, rfl, hsame.typed hk hok hc⟩⟩
      cases hd'
      exact hsizes.keepsDrag hsame hc hk
    | false =>
      obtain ⟨d', hd', hsame'⟩ := hsame.processInput hk hc
      have hnote : noteUntyped s (.input k) s (some d) = some d' := by
        simp only [noteUntyped, hk, hd', Option.bind_some, Option.map_some, Bool.false_eq_true,
          if_false]
      refine ⟨fun _ => ?_, fun _ => ⟨hq', d', hnote, hsame'⟩⟩
      cases k with
      | char | tab => cases hk
      | mouse | resize | ctrlQ | err => trivial
  | ui | update | answer | tg =>
    have hfocus : SameFocus s.client s'.client := by
      refine hq.focus ?_ hs
      exact nofun
    exact ⟨fun _ => trivial, fun _ => ⟨hq', d, rfl, hsame.of_focus hfocus⟩⟩

/-- **Typing leaves a drag alone** all along a run exactly if no `g` is pressed in the side or main
pane during a drag. -/
theorem sizes_iff_keepsDrag (screen : Screen) (ls : List Label) :
    Run.Always (Run.observed step noteUntyped) (fun x => ∃ d ∈ x.2, SameSizes x.1.client d)
      (init screen, some (.init screen)) ls ↔ Run.Guarded step KeepsDrag (init screen) ls := by
  refine (Run.always_iff_guarded_of_inv (I := Beside) ?_ ?_ ⟨init_quiet screen, _, rfl, ?_⟩).trans
    (Run.guarded_observed _)
  · rintro x ⟨-, d, hd, hsame⟩
    exact ⟨d, hd, hsame.sameSizes⟩
  · intro x l x' h hx
    obtain ⟨s', hs, rfl⟩ := Option.map_eq_some_iff.mp hx
    exact h.step hs
  · exact ⟨rfl, rfl, Iff.rfl⟩

/-- The side border is dragged one column to the right, and a `g` comes before the report. -/
def typedDrag : List Label :=
  [.ui, .ui, .input (.mouse (some ⟨true, false, false, 0, 1⟩)), .ui, key 'g', .ui,
    .input (.mouse (some ⟨false, false, true, 0, 2⟩))]

/-- The border stays where it is; without the `g` it goes with the pointer. -/
theorem typedDrag_loses_report :
    (∃ x, Run.exec (Run.observed step noteUntyped) (init screen5x4, some (.init screen5x4))
        typedDrag = some x ∧
      x.1.client.layout.sideW = 1 ∧ x.2.map (·.layout.sideW) = some 2) ∧
    ¬Run.Always (Run.observed step noteUntyped) (fun x => ∃ d ∈ x.2, SameSizes x.1.client d)
      (init screen5x4, some (.init screen5x4)) typedDrag := by
  refine ⟨⟨_, rfl, by decide, by decide⟩, fun h => ?_⟩
  obtain ⟨d, hd, hsizes⟩ := h.last rfl
  cases hd
  exact absurd hsizes.sideW (by decide)

end System
end Chatcurse

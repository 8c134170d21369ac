import Chatcurse.Verify.Navigation

/-!
# The prefix that waits

`input_state` is one field for all panes and for the mouse. A first `g` sets it, and then only a
second `g` or a button of the mouse ends the waiting: every other key leaves it as it is, and so
does a change of the pane. So the jump to the top does not need two consecutive `g` keys; it needs
them exactly as long as no other key comes while a prefix waits
(`jumpsTwice_iff_undisturbed`).

What the Telegram thread writes is no part of this. It queues events that draw and no others
(`Quiet`), so only an input changes the windows, the focused pane or `input_state`
(`Quiet.focus`).
-/

namespace Chatcurse

/-- The other events resize, quit or change the pane. -/
def Event.Redraws : Event → Prop
  | .eventChatlist | .eventMessages _ => True
  | .eventQuit | .eventResize .. | .eventCyclePanel => False

theorem Update.redraws_of_push {u : Update} (h : .push e ∈ u.program) : e.Redraws := by
  cases u <;> simp [Update.program] at h <;> subst h <;> trivial

theorem Answer.redraws_of_push {a : Answer} (hp : a.program = some p) (h : .push e ∈ p) :
    e.Redraws := by
  rcases mem_program hp h with hb | ⟨_, _, hb⟩ | ⟨_, hb⟩ | hb <;> cases hb
  trivial

namespace Client

/-- The windows, the focused pane, the input state and `cont` are the same. -/
structure SameFocus (c c' : Client) : Prop where
  layout : c'.layout = c.layout
  currentPan : c'.currentPan = c.currentPan
  inputState : c'.inputState = c.inputState
  cont : c'.cont = c.cont

theorem SameFocus.refl (c : Client) : SameFocus c c := ⟨rfl, rfl, rfl, rfl⟩

theorem processEvent_redraws {c c' : Client} (he : e.Redraws)
    (h : c.processEvent e = some (c', calls)) : c' = c := by
  cases e with
  | eventChatlist | eventMessages =>
    cases h
    rfl
  | eventQuit | eventResize | eventCyclePanel => cases he

/-- A key writes the input state if it is a `g`, and never `cont`. -/
theorem paneKey_still {c c' : Client} (h : c.paneKey key = some (c', calls)) :
    c'.cont = c.cont ∧ (c.currentPan = .comp ∨ key ≠ 'g' → c'.inputState = c.inputState) := by
  cases PaneKeys.of_paneKey h with
  | still | left | right | down | up | atLast | atFirst | opens => exact ⟨rfl, fun _ => rfl⟩
  | prefixFirst hpan | prefixTwice hpan | prefixOther hpan =>
    exact ⟨rfl, fun hg => (hg.elim hpan fun hne => hne rfl).elim⟩

/-- The mouse does not change the focused pane. -/
theorem processInput_mouse_pan {c c' : Client} (h : c.processInput (.mouse m) = some (c', calls)) :
    c'.currentPan = c.currentPan ∧ c'.cont = c.cont := by
  cases m with
  | none =>
    cases h
    exact ⟨rfl, rfl⟩
  | some m =>
    simp only [processInput] at h
    split at h
    · rw [(resize_writes h).1]
      exact ⟨rfl, rfl⟩
    · cases h
      exact ⟨rfl, rfl⟩

theorem paneKey_focus {c c' : Client} (h : c.paneKey key = some (c', calls))
    (hg : c.currentPan = .comp ∨ key ≠ 'g') : SameFocus c c' := by
  obtain ⟨hcont, hinput⟩ := paneKey_still h
  obtain ⟨pos, hmoves⟩ := paneKey_cursor h
  exact ⟨hmoves.layout, hmoves.currentPan, hinput hg, hcont⟩

end Client

/-! ## Only an input moves the focus -/

namespace System
open Client

/-- Nothing is queued, or going to be queued, that does more than draw. -/
structure Quiet (s : System) : Prop where
  queued : ∀ t, ∀ e ∈ s.client.eventQueue.eventMap t, e.Redraws
  pushed : ∀ e, .push e ∈ s.tg → e.Redraws

theorem init_quiet (screen : Screen) : (init screen).Quiet := ⟨nofun, nofun⟩

theorem redraws_update {m : Int → Option Event} (hm : ∀ t, ∀ e ∈ m t, e.Redraws)
    (hv : ∀ e ∈ v, e.Redraws) (a : Int) : ∀ t, ∀ e ∈ Function.update m a v t, e.Redraws := by
  intro t e he
  rcases eq_or_ne t a with rfl | hne
  · rw [Function.update_self] at he
    exact hv e he
  · rw [Function.update_of_ne hne] at he
    exact hm t e he

theorem redraws_popAndGet {q q' : EventQueue Event} (hq : ∀ t, ∀ e ∈ q.eventMap t, e.Redraws)
    (h : q.popAndGet = some (q', res)) :
    (∀ t, ∀ e ∈ q'.eventMap t, e.Redraws) ∧ ∀ e ∈ res, e.Redraws := by
  rcases EventQueue.popAndGet_cases h with ⟨-, rfl, rfl⟩ | ⟨front, queue, e, -, he, rfl, rfl⟩
  · exact ⟨hq, nofun⟩
  · refine ⟨redraws_update hq (v := none) nofun front, fun e' he' => ?_⟩
    cases he'
    exact hq front e he

theorem redraws_push {q : EventQueue Event} (hq : ∀ t, ∀ e ∈ q.eventMap t, e.Redraws)
    (he : e.Redraws) : ∀ t, ∀ e' ∈ (q.push e).eventMap t, e'.Redraws := by
  refine redraws_update hq (fun e' he' => ?_) _
  cases he'
  exact he

theorem Quiet.step {s s' : System} (h : s.Quiet) (hs : s.step l = some s') : s'.Quiet := by
  obtain ⟨hqueued, hpushed⟩ := h
  cases Steps.of_step hs with
  | input hui hc =>
    refine ⟨?_, hpushed⟩
    rw [(processInput_cases hc).1.eventQueue]
    exact hqueued
  | popNone hui hq => exact ⟨(redraws_popAndGet hqueued hq).1, hpushed⟩
  | popSome hui hq he =>
    obtain ⟨hqueued', hres⟩ := redraws_popAndGet hqueued hq
    cases processEvent_redraws (hres _ rfl) he
    exact ⟨hqueued', hpushed⟩
  | update htg => exact ⟨hqueued, fun e he => Update.redraws_of_push he⟩
  | answer htg hi hp => exact ⟨hqueued, fun e he => Answer.redraws_of_push hp he⟩
  | lock htg | unlock htg =>
    exact ⟨hqueued, fun e he => hpushed e (htg ▸ List.mem_cons_of_mem _ he)⟩
  | @write a rest c htg ha =>
    refine ⟨?_, fun e he => hpushed e (htg ▸ List.mem_cons_of_mem _ he)⟩
    cases a with
    | push e =>
      cases ha
      exact redraws_push hqueued (hpushed e (htg ▸ List.mem_cons_self))
    | setLastMessage | emplace =>
      obtain ⟨_, -, rfl⟩ := Option.map_eq_some_iff.mp ha
      exact hqueued
    | lock | unlock | addToList | updatePosition | setChat =>
      cases ha
      exact hqueued
  | drawSide | drawMain | getChatHistory => exact ⟨hqueued, hpushed⟩

/-- **Only an input** changes the windows, the focused pane, the input state or `cont`. -/
theorem Quiet.focus {s s' : System} (h : s.Quiet) (hl : ∀ k, l ≠ .input k)
    (hs : s.step l = some s') : SameFocus s.client s'.client := by
  cases Steps.of_step hs with
  | input hui hc => exact (hl _ rfl).elim
  | popSome hui hq he =>
    cases processEvent_redraws ((redraws_popAndGet h.queued hq).2 _ rfl) he
    exact ⟨rfl, rfl, rfl, rfl⟩
  | write htg ha =>
    rw [TgAction.run_eq ha]
    exact ⟨rfl, rfl, rfl, rfl⟩
  | popNone => exact ⟨rfl, rfl, rfl, rfl⟩
  | drawSide | drawMain | getChatHistory | update | answer | lock | unlock => exact .refl _

end System

/-! ## Two consecutive presses -/

namespace Client

/-- A `g` pressed now goes to the top of the focused pane. -/
def jumps (c : Client) : Bool :=
  match c.processInput (.char 'g') with
  | some (c', calls) => c'.offset = 0 ∧ c'.cursor.1 = 0 ∧ calls = [.drawSide]
  | none => false

theorem processInput_g {c : Client} (hpan : c.currentPan ≠ .comp) :
    c.processInput (.char 'g') = some c.keyPrefix := by
  simp only [processInput, paneKey]

theorem keyPrefix_of_g {c : Client} (hpan : c.currentPan ≠ .comp)
    (h : c.processInput (.char 'g') = some r) : c.keyPrefix = r :=
  Option.some.inj ((processInput_g hpan).symm.trans h)

theorem jumps_iff {c : Client} (hg : c.inputState.PrefixIsG) :
    c.jumps = true ↔ c.currentPan ≠ .comp ∧ c.inputState.state = .S_KEY_PREF := by
  rcases eq_or_ne c.currentPan .comp with hpan | hpan
  · simp [jumps, processInput, paneKey, hpan]
  · rw [jumps, processInput_g hpan]
    rcases eq_or_ne c.inputState.state .S_KEY_PREF with hpref | hpref
    · rw [keyPrefix_top hpref hg]
      simp [hpan, hpref]
    · rw [keyPrefix_first hpref]
      simp [hpref]

/-- The pane a `g` was pressed in, if that was the last key and did not go to the top. Polls and the
mouse are no keys. -/
def lastPrefix (c : Client) (k : Key) (last : Option Pane) : Option Pane :=
  match k with
  | .char key => if key = 'g' ∧ c.jumps = false then some c.currentPan else none
  | .tab | .ctrlQ | .resize .. => none
  | .mouse _ | .err => last

/-- While a prefix waits, no key but `g` is pressed in the side or in the main pane, and a change of
the pane leads to the composer. -/
def Undisturbed (c : Client) : Key → Prop
  | .char key => c.inputState.state = .S_KEY_PREF → c.currentPan ≠ .comp → key = 'g'
  | .tab => c.inputState.state = .S_KEY_PREF → c.currentPan.cycle = .comp
  | .resize .. => c.inputState.state = .S_KEY_PREF → c.currentPan = .comp
  | .mouse _ | .ctrlQ | .err => True

/-- A `g` pressed now goes to the top only if the last key was a `g` pressed in the same pane that
did not. -/
def JumpsTwice (c : Client) (last : Option Pane) : Prop :=
  c.cont = true → c.jumps = true → last = some c.currentPan

theorem jumpsTwice_congr {c c' : Client} (hg : c.inputState.PrefixIsG)
    (h : SameFocus c c') : JumpsTwice c' last ↔ JumpsTwice c last := by
  have hg' : c'.inputState.PrefixIsG := by
    rw [h.inputState]
    exact hg
  have hjumps : c'.jumps = c.jumps := by
    rw [Bool.eq_iff_iff, jumps_iff hg', jumps_iff hg, h.inputState, h.currentPan]
  rw [JumpsTwice, JumpsTwice, hjumps, h.currentPan, h.cont]

/-- Where the last key was no first `g`, no prefix may wait in a pane that has one. -/
theorem jumpsTwice_none {c : Client} (hg : c.inputState.PrefixIsG) (hcont : c.cont = true) :
    JumpsTwice c none ↔ (c.inputState.state = .S_KEY_PREF → c.currentPan = .comp) := by
  rw [JumpsTwice, jumps_iff hg]
  constructor
  · intro h hpref
    refine not_not.mp fun hpan => ?_
    exact nomatch h hcont ⟨hpan, hpref⟩
  · intro h _ ⟨hpan, hpref⟩
    exact (hpan (h hpref)).elim

theorem processMouse_pending {i : InputState}
    (h : (i.processMouse l m).1.state = .S_KEY_PREF) : i.state = .S_KEY_PREF := by
  unfold InputState.processMouse at h
  split at h
  · exact (processB1Pressed_state i l m h).elim
  split at h
  · cases h
  split at h <;> exact h

theorem jumpsTwice_mouse {c c' : Client} (hg : c.inputState.PrefixIsG) (hcont : c.cont = true)
    (hj : JumpsTwice c last) (h : c.processInput (.mouse m) = some (c', calls)) :
    JumpsTwice c' last := by
  intro _ hjumps
  obtain ⟨hpan, hpref⟩ := (jumps_iff (processInput_prefixIsG h hg)).mp hjumps
  obtain ⟨hsame, -⟩ := processInput_mouse_pan h
  rw [hsame] at hpan ⊢
  refine hj hcont ((jumps_iff hg).mpr ⟨hpan, ?_⟩)
  cases m with
  | none =>
    cases h
    exact hpref
  | some m =>
    rw [processInput_mouse_inputState h] at hpref
    exact processMouse_pending hpref

/-- A prefix that waits after a `g` was set by it. -/
theorem jumpsTwice_g {c c' : Client} (hg : c.inputState.PrefixIsG) (hpan : c.currentPan ≠ .comp)
    (h : c.processInput (.char 'g') = some (c', calls)) :
    JumpsTwice c' (c.lastPrefix (.char 'g') last) := by
  intro _ hjumps
  obtain ⟨pos, hmoves⟩ := paneKey_cursor h
  have heq := keyPrefix_of_g hpan h
  obtain ⟨-, hpref'⟩ := (jumps_iff (processInput_prefixIsG h hg)).mp hjumps
  rcases keyPrefix_cases hg with ⟨-, hnone, -⟩ | ⟨hpref, -⟩
  · rw [heq] at hnone
    rw [hnone] at hpref'
    cases hpref'
  · have hfirst : c.jumps = false := Bool.eq_false_iff.mpr fun hj => hpref ((jumps_iff hg).mp hj).2
    rw [hmoves.currentPan]
    exact if_pos ⟨rfl, hfirst⟩

/-- **One key.** What a key leaves behind needs two presses exactly if the key does not disturb the
prefix. -/
theorem jumpsTwice_input {c c' : Client} (hg : c.inputState.PrefixIsG) (hcont : c.cont = true)
    (hj : JumpsTwice c last) (h : c.processInput k = some (c', calls)) :
    JumpsTwice c' (c.lastPrefix k last) ↔ c.Undisturbed k := by
  have hg' := processInput_prefixIsG h hg
  cases k with
  | mouse m => exact iff_of_true (jumpsTwice_mouse hg hcont hj h) trivial
  | err =>
    cases h
    exact iff_of_true hj trivial
  | ctrlQ =>
    cases h
    exact iff_of_true nofun trivial
  | tab =>
    cases h
    exact jumpsTwice_none hg' hcont
  | resize s adjust =>
    have hpan : c'.currentPan = c.currentPan ∧ c'.cont = c.cont ∧
        c'.inputState = c.inputState := by
      rw [(resize_writes h).1]
      exact ⟨rfl, rfl, rfl⟩
    obtain ⟨hpan, hcont', hinput⟩ := hpan
    apply (jumpsTwice_none hg' (hcont'.trans hcont)).trans
    rw [hpan, hinput]
    rfl
  | char key =>
    rcases eq_or_ne c.currentPan .comp with hpan | hpan
    · obtain ⟨pos, hmoves⟩ := paneKey_cursor h
      refine iff_of_true (fun _ hjumps => ?_) fun _ hne => (hne hpan).elim
      obtain ⟨hne, -⟩ := (jumps_iff hg').mp hjumps
      exact (hne (hmoves.currentPan.trans hpan)).elim
    rcases eq_or_ne key 'g' with rfl | hkey
    · exact iff_of_true (jumpsTwice_g hg hpan h) fun _ _ => rfl
    · have hfocus := paneKey_focus h (.inr hkey)
      have hlast : c.lastPrefix (.char key) last = none := if_neg fun hg => hkey hg.1
      rw [hlast, jumpsTwice_none hg' (hfocus.cont.trans hcont), hfocus.inputState,
        hfocus.currentPan]
      exact ⟨fun h hpref hne => (hne (h hpref)).elim,
        fun h hpref => not_not.mp fun hne => hkey (h hpref hne)⟩

end Client

namespace System
open Client

/-- `lastPrefix` along a run. -/
def notePrefix (s : System) (l : Label) (_ : System) (last : Option Pane) : Option Pane :=
  match l with
  | .input k => s.client.lastPrefix k last
  | .ui | .update _ | .answer .. | .tg => last

def Undisturbed (s : System) : Label → Prop
  | .input k => s.client.Undisturbed k
  | .ui | .update _ | .answer .. | .tg => True

theorem jumpsTwice_step {s s' : System} (hq : s.Quiet) (hg : s.client.inputState.PrefixIsG)
    (hj : s.client.JumpsTwice last) (hs : s.step l = some s') :
    s'.client.JumpsTwice (notePrefix s l s' last) ↔ s.Undisturbed l := by
  cases l with
  | input k =>
    obtain ⟨⟨hcont, -⟩, hs⟩ := Option.ite_none_right_eq_some.mp hs
    obtain ⟨⟨c, calls⟩, hkey, rfl⟩ := Option.map_eq_some_iff.mp hs
    exact jumpsTwice_input hg hcont hj hkey
  | ui | update | answer | tg =>
    have hfocus : SameFocus s.client s'.client := by
      refine hq.focus ?_ hs
      exact nofun
    exact iff_of_true ((jumpsTwice_congr hg hfocus).mpr hj) trivial

/-- **Two presses.** All along a run a `g` goes to the top only as the second of two consecutive
ones exactly if no other key comes while a prefix waits. -/
theorem jumpsTwice_iff_undisturbed (screen : Screen) (ls : List Label) :
    Run.Always (Run.observed step notePrefix) (fun x => x.1.client.JumpsTwice x.2)
      (init screen, none) ls ↔ Run.Guarded step Undisturbed (init screen) ls := by
  have hinit : (init screen).client.inputState.PrefixIsG := nofun
  refine (Run.always_iff_guarded_of_inv
    (I := fun x : System × Option Pane =>
      x.1.Quiet ∧ x.1.client.inputState.PrefixIsG ∧ x.1.client.JumpsTwice x.2)
    (fun _ h => h.2.2) ?_ ⟨init_quiet screen, hinit, ?_⟩).trans (Run.guarded_observed none)
  · intro x l x' ⟨hq, hg, hj⟩ hx
    obtain ⟨s', hs, rfl⟩ := Option.map_eq_some_iff.mp hx
    have hstep := jumpsTwice_step hq hg hj hs
    exact ⟨hstep.mp, fun hok => ⟨hq.step hs, prefixIsG_step hg hs, hstep.mpr hok⟩⟩
  · exact (jumpsTwice_none hinit rfl).mpr nofun

/-- `g`, `j` and `g` in the side pane, up to the second `g`. -/
def prefixAcross : List Label := [.ui, .ui, key 'g', .ui, key 'j', .ui]

/-- The cursor goes down with `j`, and then up again with the one `g` that comes after it. -/
theorem prefixAcross_jumps :
    (∃ s s', Run.exec step (init screen5x4) prefixAcross = some s ∧
      s.step (key 'g') = some s' ∧ s.client.cursor.1 = 1 ∧ s'.client.cursor.1 = 0) ∧
    ¬Run.Always (Run.observed step notePrefix) (fun x => x.1.client.JumpsTwice x.2)
      (init screen5x4, none) prefixAcross := by
  refine ⟨⟨_, _, rfl, rfl, by decide, by decide⟩, fun h => ?_⟩
  have hlast := h.last rfl
  exact nomatch hlast rfl (by decide)

end System
end Chatcurse

import Chatcurse.Verify.Locking

/-!
# The side pane shows the state of now

`draw_side` shows the chat lists, the chats, the offset of the side pane and the chosen chat. A
history variable says whether one of them changed after `draw_side` ran last. The keys that change
one draw the pane themselves. A handler writes inside a critical section that pushes `ET_CHATLIST`,
and as long as it holds the mutex the drawing that the event leads to has to wait: whenever the pane
is out of date or a handler holds the mutex, a drawing is `ListDue` (`Listed`). Nothing is due when
both threads rest, so the pane is up to date then, in every run (`list_upToDate`).
-/

namespace Chatcurse
namespace System
open Client

/-- What `draw_side` shows is the same. -/
structure SameList (c c' : Client) : Prop where
  positionSets : c'.store.positionSets = c.store.positionSets
  idToChat : c'.store.idToChat = c.store.idToChat
  scrollOffset : c'.scrollOffset .side = c.scrollOffset .side
  chosenChatId : c'.chosenChatId = c.chosenChatId

/-- Whether what `draw_side` shows has changed since it ran last. -/
def noteList (s : System) (l : Label) (s' : System) (stale : Prop) : Prop :=
  match l, s.ui with
  | .ui, .drawSide :: _ => False
  | _, _ => stale ∨ ¬SameList s.client s'.client

/-- Nothing is queued, no handler holds the mutex, and the UI thread is between two rounds. -/
def ListAtRest (s : System) : Prop :=
  s.client.eventQueue.queue = [] ∧ s.held .chatboxes = false ∧ s.ui = []

/-- A call of `draw_side` is to come, or something that leads to one. -/
def ListDue (s : System) : Prop :=
  .drawSide ∈ s.ui ∨ Event.ET_CHATLIST ∈ s.client.eventQueue.queue ∨
    s.held .chatboxes = true ∧ ∃ a ∈ s.tg, a.announcesList

/-- A pane that is not up to date, or may not be when the mutex is released, will be drawn. -/
structure Listed (s : System) (stale : Prop) : Prop where
  queue : ∃ p, EventQueue.Refines s.client.eventQueue p
  critical : Critical (s.held .chatboxes) s.tg
  due : stale ∨ s.held .chatboxes = true → s.ListDue

theorem SameList.refl (c : Client) : SameList c c := ⟨rfl, rfl, rfl, rfl⟩

theorem SameList.of_view {c c' : Client} (hd : SameData c c') (hv : SameView c c') :
    SameList c c' :=
  ⟨by rw [hd.store], by rw [hd.store], by rw [hv.scrollOffset], hv.chosenChatId⟩

theorem stale_of_noteList {s s' : System} (h : s.noteList l s' stale) :
    stale ∨ ¬SameList s.client s'.client := by
  unfold noteList at h
  split at h
  · cases h
  · exact h

theorem init_listed (screen : Screen) : Listed (init screen) True where
  queue := ⟨[], EventQueue.empty_refines⟩
  critical := rfl
  due _ := .inl (by simp [init])

theorem Listed.input {s : System} (h : s.Listed stale) (hui : s.ui = [])
    (hc : s.client.processInput k = some (c, calls)) :
    let s' : System := { s with client := c, ui := calls ++ [.popAndGet] }
    s'.Listed (s.noteList (.input k) s' stale) := by
  intro s'
  obtain ⟨hd, he⟩ := processInput_cases hc
  have hkeep : s.ListDue → s'.ListDue := by
    rintro (hmem | hqueue | htg)
    · simp [hui] at hmem
    · exact .inr (.inl (hd.eventQueue ▸ hqueue))
    · exact .inr (.inr htg)
  have hcall : .drawSide ∈ calls → s'.ListDue := fun hmem => .inl (List.mem_append_left _ hmem)
  have hsame : SameList s.client c →
      s.noteList (.input k) s' stale ∨ s.held .chatboxes = true → s'.ListDue := by
    rintro hsame (hst | hheld)
    · exact hkeep (h.due (.inl ((stale_of_noteList hst).resolve_right fun hne => hne hsame)))
    · exact hkeep (h.due (.inr hheld))
  refine ⟨hd.eventQueue ▸ h.queue, h.critical, fun hst => ?_⟩
  cases he with
  | still hv => exact hsame (.of_view hd hv) hst
  | opens chatId hkey hpan hchat hchosen hoffset hcalls => exact hcall (by simp [hcalls])
  | scrolls key n hkey hn hchosen hoffset =>
    rcases scrolled_offset hoffset .side with ⟨hpan, -⟩ | ⟨-, heq⟩
    · cases hn with
      | mainDown hmain | mainUp hmain =>
        rw [hmain] at hpan
        contradiction
      | sideDown | sideUp | toEnd | toTop => exact hcall (by simp)
    · exact hsame ⟨by rw [hd.store], by rw [hd.store], heq, hchosen⟩ hst

/-- The calls of the UI thread besides `draw_side` and the pop leave what is due. -/
theorem ListDue.of_tail {s : System} {a : Call} (h : s.ListDue) (hui : s.ui = a :: rest)
    (hne : a ≠ .drawSide) (outstanding : List Int) :
    ListDue { s with ui := rest, outstanding := outstanding } := by
  refine h.imp_left fun hmem => ?_
  rw [hui] at hmem
  exact (List.mem_cons.mp hmem).resolve_left hne.symm

/-- So do the actions of a handler besides its push and its release. -/
theorem ListDue.of_rest {s s' : System} {a : TgAction} (h : s.ListDue) (htg : s.tg = a :: s'.tg)
    (hna : a.announcesList = false) (hui : s'.ui = s.ui)
    (hqueue : s'.client.eventQueue = s.client.eventQueue)
    (hheld : s'.held .chatboxes = s.held .chatboxes) : s'.ListDue := by
  rcases h with hmem | hq | ⟨hh, b, hb, hann⟩
  · exact .inl (hui ▸ hmem)
  · exact .inr (.inl (hqueue ▸ hq))
  · refine .inr (.inr ⟨hheld.trans hh, b, ?_, hann⟩)
    rw [htg] at hb
    refine (List.mem_cons.mp hb).resolve_left fun heq => ?_
    simp [heq, hna] at hann

/-- A write by a handler that holds the mutex, or its push. -/
theorem Listed.write {s : System} (h : s.Listed stale) (htg : s.tg = a :: rest)
    (ha : a.run s.client = some c)
    (hcritical : Critical (s.held .chatboxes) rest) :
    let s' : System := { s with client := c, tg := rest }
    s'.Listed (s.noteList .tg s' stale) := by
  intro s'
  have hrefines := TgAction.run_refines ha h.queue
  have hcrit : Critical (s.held .chatboxes) (a :: rest) := htg ▸ h.critical
  have hkeep : c.eventQueue = s.client.eventQueue → a.announcesList = false →
      s.ListDue → s'.ListDue := fun hqueue hna hdue => hdue.of_rest htg hna rfl hqueue rfl
  have hsame : SameList s.client c → (s.ListDue → s'.ListDue) →
      s.noteList .tg s' stale ∨ s.held .chatboxes = true → s'.ListDue := by
    rintro hsame hdue (hst | hheld)
    · exact hdue (h.due (.inl ((stale_of_noteList hst).resolve_right fun hne => hne hsame)))
    · exact hdue (h.due (.inr hheld))
  have hheld : a.writesStore → s.held .chatboxes = true := by
    intro hw
    refine ((critical_cons ?_).mp hcrit).1 hw
    cases a <;> first | rfl | cases hw
  cases a with
  | push e =>
    cases ha
    obtain ⟨p, hp⟩ := h.queue
    refine ⟨hrefines, hcritical, hsame ⟨rfl, rfl, rfl, rfl⟩ ?_⟩
    rintro (hmem | hq | ⟨hheld, b, hb, hann⟩)
    · exact .inl hmem
    · exact .inr (.inl (EventQueue.mem_push_queue _ hq e))
    · rw [htg] at hb
      rcases List.mem_cons.mp hb with rfl | hb
      · cases e with
        | eventChatlist => exact .inr (.inl (hp.type_mem_push .eventChatlist))
        | eventQuit | eventResize | eventCyclePanel | eventMessages => cases hann
      · exact .inr (.inr ⟨hheld, b, hb, hann⟩)
  | emplace chatId m =>
    obtain ⟨_, -, rfl⟩ := Option.map_eq_some_iff.mp ha
    exact ⟨h.queue, hcritical, hsame ⟨rfl, rfl, rfl, rfl⟩ (hkeep rfl rfl)⟩
  | setLastMessage chatId m =>
    obtain ⟨_, -, rfl⟩ := Option.map_eq_some_iff.mp ha
    exact ⟨h.queue, hcritical, fun _ => hkeep rfl rfl (h.due (.inr (hheld rfl)))⟩
  | addToList | updatePosition | setChat =>
    cases ha
    exact ⟨h.queue, hcritical, fun _ => hkeep rfl rfl (h.due (.inr (hheld rfl)))⟩
  | lock | unlock =>
    cases ha
    exact ⟨h.queue, hcritical, hsame (.refl _) (hkeep rfl rfl)⟩

theorem Listed.step {s s' : System} (h : s.Listed stale) (hs : s.step l = some s') :
    s'.Listed (s.noteList l s' stale) := by
  have hcritical := critical_step h.critical hs
  have hrefines := refines_step h.queue hs
  have hsame : SameList s.client s'.client → (s.ListDue → s'.ListDue) →
      s'.held .chatboxes = s.held .chatboxes →
      s.noteList l s' stale ∨ s'.held .chatboxes = true → s'.ListDue := by
    rintro hsame hdue heq (hst | hheld)
    · exact hdue (h.due (.inl ((stale_of_noteList hst).resolve_right fun hne => hne hsame)))
    · exact hdue (h.due (.inr (heq ▸ hheld)))
  cases Steps.of_step hs with
  | input hui hc => exact h.input hui hc
  | write htg ha => exact h.write htg ha hcritical
  | drawSide hui hfree =>
    refine ⟨h.queue, h.critical, fun hst => ?_⟩
    simp [noteList, hui, hfree] at hst
  | drawMain hui =>
    exact ⟨h.queue, h.critical, hsame (.refl _) (·.of_tail hui nofun _) rfl⟩
  | getChatHistory hui =>
    exact ⟨h.queue, h.critical, hsame (.refl _) (·.of_tail hui nofun _) rfl⟩
  | popNone hui hq =>
    obtain ⟨-, rfl⟩ := EventQueue.popAndGet_none hq
    exact ⟨hrefines, h.critical, hsame (.refl _) (·.of_tail hui nofun _) rfl⟩
  | @popSome rest q e c calls hui hq he =>
    obtain ⟨hd, hv⟩ := processEvent_frame he
    have hce : c.eventQueue = q := hd.eventQueue
    obtain ⟨p, hp⟩ := h.queue
    refine ⟨hrefines, h.critical, hsame ⟨?_, ?_, ?_, ?_⟩ ?_ rfl⟩
    · rw [hd.store]
    · rw [hd.store]
    · rw [hv.scrollOffset]
    · rw [hv.chosenChatId]
    rintro (hmem | hqueue | htg)
    · rw [hui] at hmem
      exact .inl (List.mem_append_right _ ((List.mem_cons.mp hmem).resolve_left nofun))
    · rcases hp.type_or_mem hq hqueue with htype | hqueue
      · refine .inl (List.mem_append_left _ ?_)
        simp [(processEvent_calls he).1 htype]
      · exact .inr (.inl (hce ▸ hqueue))
    · exact .inr (.inr htg)
  | update htg =>
    refine ⟨h.queue, hcritical, hsame (.refl _) ?_ rfl⟩
    exact Or.imp_right (Or.imp_right fun ⟨_, b, hb, _⟩ => by simp [htg] at hb)
  | answer htg hi hp =>
    refine ⟨h.queue, hcritical, hsame (.refl _) ?_ rfl⟩
    exact Or.imp_right (Or.imp_right fun ⟨_, b, hb, _⟩ => by simp [htg] at hb)
  | @lock rest m htg =>
    have hcrit := h.critical
    rw [htg] at hcrit
    cases m with
    | chatboxes => exact ⟨h.queue, hcritical, fun _ => .inr (.inr ⟨rfl, hcrit.2.1⟩)⟩
    | messages =>
      exact ⟨h.queue, hcritical, hsame (.refl _) (·.of_rest htg rfl rfl rfl rfl) rfl⟩
  | @unlock rest m htg =>
    have hcrit := h.critical
    rw [htg] at hcrit
    cases m with
    | chatboxes =>
      -- the handler is done, so its push is not to come
      refine ⟨h.queue, hcritical, fun hst => ?_⟩
      have hstale : stale := by
        rcases hst with hst | hheld
        · exact (stale_of_noteList hst).resolve_right fun hne => hne (.refl _)
        · cases hheld
      refine (h.due (.inl hstale)).imp_right (Or.imp_right fun ⟨_, b, hb, hann⟩ => ?_)
      rw [htg, hcrit.2] at hb
      simp [List.mem_singleton.mp hb, TgAction.announcesList] at hann
    | messages =>
      exact ⟨h.queue, hcritical, hsame (.refl _) (·.of_rest htg rfl rfl rfl rfl) rfl⟩

/-- **The side pane is up to date** whenever both threads rest, in every run. -/
theorem list_upToDate (screen : Screen) (ls : List Label) :
    Run.Always (Run.observed step noteList) (fun x => x.1.ListAtRest → ¬x.2)
      (init screen, True) ls := by
  have ha : Run.Always (Run.observed step noteList) (fun x => x.1.Listed x.2)
      (init screen, True) ls := by
    refine Run.Always.of_inv (fun x l x' hx hs => ?_) (init_listed screen)
    obtain ⟨s', hs', rfl⟩ := Option.map_eq_some_iff.mp hs
    exact hx.step hs'
  refine ha.mono fun x hx hrest hst => ?_
  obtain ⟨hqueue, hheld, hui⟩ := hrest
  have hdue := hx.due (.inl hst)
  simp [ListDue, hqueue, hheld, hui] at hdue

end System
end Chatcurse

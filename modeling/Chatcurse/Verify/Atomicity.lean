import Chatcurse.Theory.Atomic
import Chatcurse.Verify.ChatTable
import Chatcurse.Verify.History
import Chatcurse.Verify.MessagePane

/-!
# The handlers take effect at once

The Telegram thread writes the chat lists and the messages one entry at a time, and the UI thread
takes steps in between. `Guards` says what a mutex is for: the handlers of what it guards write in
sections of it, and nobody else writes. The data it guards are then, while it is free, those of the
handlers run from beginning to end, one after the other (`store_atomic`, `messages_atomic`).
-/

namespace Chatcurse

namespace TgAction

/-- What an action does to the chat lists' store. -/
def onStore (store : ChatStore) : TgAction → Option ChatStore
  | addToList listId chatId => some (store.addToList listId chatId)
  | updatePosition chatId u => some (store.updatePosition chatId u)
  | setChat chat => some (store.setChat chat)
  | setLastMessage chatId m => store.setLastMessage chatId m
  | lock _ | unlock _ | emplace .. | push _ => some store

/-- What an action does to the messages. -/
def onMessages (messages : MessageStore) : TgAction → Option MessageStore
  | emplace chatId m => emplaceMessage messages chatId m
  | addToList .. | updatePosition .. | setChat _ | setLastMessage .. | lock _ | unlock _ | push _ =>
    some messages

theorem run_store (c : Client) {a : TgAction} (ha : ∀ chatId m, a ≠ emplace chatId m) :
    (a.run c).map (·.store) = onStore c.store a := by
  cases a with
  | emplace chatId m => exact absurd rfl (ha chatId m)
  | setLastMessage chatId m => simp [run, onStore, Function.comp_def]
  | lock | unlock | addToList | updatePosition | setChat | push => rfl

theorem run_messages (c : Client) {a : TgAction} (ha : ∀ chatId m, a ≠ setLastMessage chatId m) :
    (a.run c).map (·.messages) = onMessages c.messages a := by
  cases a with
  | setLastMessage chatId m => exact absurd rfl (ha chatId m)
  | emplace chatId m => simp [run, onMessages, Function.comp_def]
  | lock | unlock | addToList | updatePosition | setChat | push => rfl

theorem onStore_of_run {c c' : Client} {a : TgAction} (h : a.run c = some c') :
    onStore c.store a = some c'.store := by
  cases a with
  | emplace =>
    obtain ⟨_, -, rfl⟩ := Option.map_eq_some_iff.mp h
    rfl
  | lock | unlock | addToList | updatePosition | setChat | setLastMessage | push =>
    rw [← run_store c (by simp), h, Option.map_some]

theorem onMessages_of_run {c c' : Client} {a : TgAction} (h : a.run c = some c') :
    onMessages c.messages a = some c'.messages := by
  cases a with
  | setLastMessage =>
    obtain ⟨_, -, rfl⟩ := Option.map_eq_some_iff.mp h
    rfl
  | lock | unlock | addToList | updatePosition | setChat | emplace | push =>
    rw [← run_messages c (by simp), h, Option.map_some]

end TgAction

theorem runAll_section (c : Client) (m : Mutex) (as : List TgAction) :
    runAll c (.lock m :: (as ++ [.unlock m])) = runAll c as := by
  simp only [runAll, TgAction.run, Option.bind_some, runAll_append]
  exact Option.bind_fun_some _

/-- A part of the state that the actions write by themselves. -/
theorem runAll_map {get : Client → δ} {run : δ → TgAction → Option δ}
    (has : ∀ a ∈ as, ∀ c : Client, (a.run c).map get = run (get c) a) (c : Client) :
    (runAll c as).map get = Run.exec run (get c) as := by
  induction as generalizing c with
  | nil => rfl
  | cons a as ih =>
    obtain ⟨ha, has⟩ := List.forall_mem_cons.mp has
    rw [Run.exec_cons, ← ha c, runAll]
    cases a.run c with
    | none => rfl
    | some c' => exact ih has c'

/-- The handler of an update keeps its actions on the store between its first and its last. -/
theorem Update.performs (u : Update) : Atomic.Performs TgAction.onStore ChatStore.processUpdate
    (.lock .chatboxes) (.unlock .chatboxes) u u.section where
  exec_run store := by
    let c : Client := { Client.init System.screen5x4 with store := store }
    have hstore : ∀ a ∈ u.section, ∀ c : Client, (a.run c).map (·.store) = a.onStore c.store := by
      intro a ha c
      apply TgAction.run_store c
      rintro chatId m rfl
      cases u <;> simp [Update.section] at ha
    have hrun : runAll c u.section = _ := (runAll_section c ..).symm.trans
      (u.program_eq ▸ runAll_updateProgram c u)
    rw [← runAll_map hstore c, hrun, Option.map_map]
    exact Option.map_id'
  inside a ha := by
    have hswitch : a.switches = false := Update.switches_of_mem_section ha
    constructor <;> rintro rfl <;> cases hswitch

/-- The messages after a history answer. -/
def historyAnswered (messages : MessageStore) (received : Messages) : Option MessageStore :=
  (processGetChatHistory messages received).map (·.1)

/-- What the handler of a history answer does while it holds the mutex. -/
def emplaceAll (chatId : Int) (ms : List (Option Message)) : List TgAction :=
  ms.map (.emplace chatId) ++ [.push (.eventMessages chatId)]

theorem Answer.program_messages {received : Messages}
    (h : Answer.program (.messages received) = some p) :
    p = [] ∧ received.totalCount = 0 ∨
      ∃ chatId ms, p = .lock .messages :: (emplaceAll chatId ms ++ [.unlock .messages]) := by
  rcases eq_or_ne received.totalCount 0 with h0 | h0
  · rw [program, if_pos h0] at h
    cases h
    exact .inl ⟨rfl, h0⟩
  · rw [program, if_neg h0] at h
    split at h <;> cases h
    next m ms hms => exact .inr ⟨m.chatId, received.messages, by simp [emplaceAll]⟩

theorem Answer.performs {received : Messages}
    (h : Answer.program (.messages received) =
      some (.lock .messages :: (emplaceAll chatId ms ++ [.unlock .messages]))) :
    Atomic.Performs TgAction.onMessages historyAnswered (.lock .messages) (.unlock .messages)
      received (emplaceAll chatId ms) where
  exec_run messages := by
    let c : Client := { Client.init System.screen5x4 with messages := messages }
    have hmessages : ∀ a ∈ emplaceAll chatId ms, ∀ c : Client,
        (a.run c).map (·.messages) = a.onMessages c.messages := by
      intro a ha c
      apply TgAction.run_messages c
      rintro id m rfl
      simp [emplaceAll] at ha
    have hrun := runAll_answerProgram c received
    rw [h, Option.bind_some, runAll_section] at hrun
    rw [← runAll_map hmessages c, hrun, Option.map_map]
    rfl
  inside a ha := by
    simp only [emplaceAll, List.mem_append, List.mem_map, List.mem_singleton] at ha
    rcases ha with ⟨m, -, rfl⟩ | rfl <;> exact ⟨by simp, by simp⟩

namespace System
open Atomic

/-- The data that `get` finds are guarded by the mutex: the handlers write them in its sections, and
a section does what `op` does with what is received. -/
structure Guards (m : Mutex) (get : Client → δ) (run : δ → TgAction → Option δ)
    (op : δ → ο → Option δ) (received : Label → Option ο) : Prop where
  run_get : ∀ c c' a, TgAction.run c a = some c' → run (get c) a = some (get c')
  frame : ∀ c c' : Client, c'.store = c.store → c'.messages = c.messages → get c' = get c
  update : ∀ os d₀ d held u, Phase run op (.lock m) (.unlock m) os d₀ d held [] →
    Phase run op (.lock m) (.unlock m) (os ++ (received (.update u)).toList) d₀ d held u.program
  answer : ∀ os d₀ d held i a p, a.program = some p →
    Phase run op (.lock m) (.unlock m) os d₀ d held [] →
      Phase run op (.lock m) (.unlock m) (os ++ (received (.answer i a)).toList) d₀ d held p
  input : ∀ k, received (.input k) = none
  ui : received .ui = none
  tg : received .tg = none

namespace Guards

variable {m : Mutex} {get : Client → δ} {run : δ → TgAction → Option δ} {op : δ → ο → Option δ}
  {received : Label → Option ο} {os : List ο} {d₀ : δ}

theorem act {s s' : System} (hg : Guards m get run op received)
    (h : Phase run op (.lock m) (.unlock m) os d₀ (get s.client) (s.held m) (a :: rest))
    (hs : s.act rest a = some s') :
    Phase run op (.lock m) (.unlock m) os d₀ (get s'.client) (s'.held m) s'.tg := by
  obtain ⟨c, hc, hs⟩ := Option.bind_eq_some_iff.mp hs
  have hrun : run (get s.client) a = some (get c) := hg.run_get _ _ a hc
  cases a with
  | lock n =>
    obtain ⟨-, hs⟩ := Option.ite_none_left_eq_some.mp hs
    cases hs
    rcases eq_or_ne m n with rfl | hne
    · cases hc
      simpa [hold] using h.of_lock (by simp)
    · have hphase := h.act (fun heq => hne (TgAction.lock.inj heq).symm) (by simp) hrun
      simpa [hold, Function.update_of_ne hne] using hphase
  | unlock n =>
    cases hs
    rcases eq_or_ne m n with rfl | hne
    · cases hc
      simpa [hold] using h.of_unlock (by simp)
    · have hphase := h.act (by simp) (fun heq => hne (TgAction.unlock.inj heq).symm) hrun
      simpa [hold, Function.update_of_ne hne] using hphase
  | addToList | updatePosition | setChat | setLastMessage | emplace | push =>
    cases hs
    exact h.act (by simp) (by simp) hrun

/-- The steps of the UI thread write nothing that a mutex guards. -/
theorem ui_client {s s' : System} (hs : s.step .ui = some s') :
    s'.client.store = s.client.store ∧ s'.client.messages = s.client.messages ∧
      s'.held = s.held ∧ s'.tg = s.tg := by
  cases Steps.of_step hs with
  | drawSide | drawMain | getChatHistory | popNone => exact ⟨rfl, rfl, rfl, rfl⟩
  | popSome hui hq he =>
    obtain ⟨hd, -⟩ := Client.processEvent_frame he
    exact ⟨hd.store, hd.messages, rfl, rfl⟩

theorem step {s s' : System} (hg : Guards m get run op received)
    (h : Phase run op (.lock m) (.unlock m) os d₀ (get s.client) (s.held m) s.tg)
    (hs : s.step l = some s') :
    Phase run op (.lock m) (.unlock m) (os ++ (received l).toList) d₀ (get s'.client)
      (s'.held m) s'.tg := by
  cases l with
  | input k =>
    cases Steps.of_step hs with
    | input hui hc =>
      obtain ⟨hd, -⟩ := Client.processInput_cases hc
      simpa [hg.input, hg.frame _ _ hd.store hd.messages] using h
  | ui =>
    obtain ⟨hstore, hmessages, hheld, htg⟩ := ui_client hs
    simpa [hg.ui, hg.frame _ _ hstore hmessages, hheld, htg] using h
  | update u =>
    obtain ⟨htg, hs⟩ := Option.ite_none_right_eq_some.mp hs
    cases hs
    exact hg.update _ _ _ _ u (htg ▸ h)
  | answer i a =>
    obtain ⟨⟨htg, -⟩, hs⟩ := Option.ite_none_right_eq_some.mp hs
    obtain ⟨p, hp, rfl⟩ := Option.map_eq_some_iff.mp hs
    exact hg.answer _ _ _ _ i a p hp (htg ▸ h)
  | tg =>
    rw [hg.tg, Option.toList_none, List.append_nil]
    simp only [System.step] at hs
    split at hs
    next => cases hs
    next a rest htg => exact hg.act (htg ▸ h) hs

/-- Every run keeps the sections of a mutex apart. -/
theorem phase (hg : Guards m get run op received)
    (hrun : Run.exec System.step (init screen) ls = some s) :
    Phase run op (.lock m) (.unlock m) (ls.filterMap received) (get (.init screen))
      (get s.client) (s.held m) s.tg := by
  refine Run.exec_log (I := fun ls s => Phase run op (.lock m) (.unlock m) (ls.filterMap received)
    (get (.init screen)) (get s.client) (s.held m) s.tg) (fun ls s l s' h hs => ?_) ?_ hrun
  · have hlog : (ls ++ [l]).filterMap received = ls.filterMap received ++ (received l).toList := by
      rw [List.filterMap_append]
      cases hl : received l <;> simp [hl]
    rw [hlog]
    exact hg.step h hs
  · exact .idle rfl (List.forall_mem_nil _)

/-- Between two handlers. -/
theorem quiet (hg : Guards m get run op received)
    (hrun : Run.exec System.step (init screen) ls = some s) (hquiet : s.tg = []) :
    s.held m = false ∧
      Run.exec op (get (.init screen)) (ls.filterMap received) = some (get s.client) := by
  have hphase := hg.phase hrun
  rw [hquiet] at hphase
  exact hphase.done

/-- A handler finds the mutex free that it takes. -/
theorem held_of_lock (hg : Guards m get run op received)
    (hrun : Run.exec System.step (init screen) ls = some s) (htg : s.tg = .lock m :: rest) :
    s.held m = false := by
  have hphase := hg.phase hrun
  rw [htg] at hphase
  exact hphase.held_of_lock (by simp)

end Guards

/-! ## The two mutexes -/

/-- The update that the Telegram thread receives. -/
def received : Label → Option Update
  | .update u => some u
  | .input _ | .ui | .answer .. | .tg => none

/-- The history that the Telegram thread receives. -/
def answered : Label → Option Messages
  | .answer _ (.messages r) => some r
  | .input _ | .ui | .update _ | .answer _ .other | .tg => none

theorem updates_eq (ls : List Label) : updates ls = ls.filterMap received :=
  List.filterMap_congr fun l _ => by cases l <;> rfl

theorem guards_chatboxes :
    Guards .chatboxes (·.store) TgAction.onStore ChatStore.processUpdate received where
  run_get _ _ _ h := TgAction.onStore_of_run h
  frame _ _ hstore _ := hstore
  update os d₀ d held u h := by
    rw [u.program_eq]
    exact h.begin u.performs
  answer os d₀ d held i a p hp h := by
    rw [show received (.answer i a) = none from rfl, Option.toList_none, List.append_nil]
    apply h.other
    intro b hb
    rcases Answer.mem_program hp hb with rfl | ⟨chatId, m, rfl⟩ | ⟨chatId, rfl⟩ | rfl <;>
      exact ⟨by simp, by simp, fun _ => rfl⟩
  input _ := rfl
  ui := rfl
  tg := rfl

theorem silent_of_mem_program {u : Update} (ha : a ∈ u.program) :
    Silent TgAction.onMessages (.lock .messages) (.unlock .messages) a := by
  rw [u.program_eq, List.mem_cons, List.mem_append, List.mem_singleton] at ha
  rcases ha with rfl | ha | rfl
  · exact ⟨by simp, by simp, fun _ => rfl⟩
  · cases a with
    | emplace | lock | unlock => cases u <;> simp [Update.section] at ha
    | addToList | updatePosition | setChat | setLastMessage | push =>
      exact ⟨by simp, by simp, fun _ => rfl⟩
  · exact ⟨by simp, by simp, fun _ => rfl⟩

theorem guards_messages :
    Guards .messages (·.messages) TgAction.onMessages historyAnswered answered where
  run_get _ _ _ h := TgAction.onMessages_of_run h
  frame _ _ _ hmessages := hmessages
  update os d₀ d held u h := by
    rw [show answered (.update u) = none from rfl, Option.toList_none, List.append_nil]
    exact h.other fun a ha => silent_of_mem_program ha
  answer os d₀ d held i a p hp h := by
    cases a with
    | other =>
      cases hp
      rw [show answered (.answer i .other) = none from rfl, Option.toList_none, List.append_nil]
      exact h
    | messages r =>
      rcases Answer.program_messages hp with ⟨rfl, h0⟩ | ⟨chatId, ms, rfl⟩
      · exact h.skip (by simp [historyAnswered, processGetChatHistory, h0])
      · exact h.begin (Answer.performs hp)
  input _ := rfl
  ui := rfl
  tg := rfl

/-- **The updates take effect at once**: while `_id_chatboxes` is free, as it is when `draw_side`
reads them, the chat lists are those of `process_update` called for one update after the other, all
that were received but one whose handler has not locked the mutex. -/
theorem store_atomic (hrun : Run.exec step (init screen) ls = some s)
    (hfree : s.held .chatboxes = false) :
    ∃ us, Run.exec ChatStore.processUpdate ChatStore.empty us = some s.client.store ∧
      (us = updates ls ∨
        ∃ u, updates ls = us ++ [u] ∧ s.tg.head? = some (.lock .chatboxes)) := by
  have hphase := guards_chatboxes.phase hrun
  rw [hfree, ← updates_eq] at hphase
  exact hphase.free

theorem store_atomic_openAndUpdate :
    ∃ s us, Run.exec step (init screen5x4) openAndUpdate = some s ∧
      Run.exec ChatStore.processUpdate ChatStore.empty us = some s.client.store ∧
      (us = updates openAndUpdate ∨ ∃ u, updates openAndUpdate = us ++ [u] ∧
        s.tg.head? = some (.lock .chatboxes)) := by
  have hrun : Run.exec step (init screen5x4) openAndUpdate = some _ := rfl
  obtain ⟨us, hus⟩ := store_atomic hrun rfl
  exact ⟨_, us, hrun, hus⟩

/-- **The answers take effect at once**: while `_id_messages` is free, as it is when `draw_main`
reads them, the messages are those of `process_get_chat_history` called for one answer after the
other, all that were received but one whose handler has not locked the mutex. -/
theorem messages_atomic (hrun : Run.exec step (init screen) ls = some s)
    (hfree : s.held .messages = false) :
    ∃ rs, Run.exec historyAnswered (fun _ => ∅) rs = some s.client.messages ∧
      (rs = ls.filterMap answered ∨
        ∃ r, ls.filterMap answered = rs ++ [r] ∧ s.tg.head? = some (.lock .messages)) := by
  have hphase := guards_messages.phase hrun
  rw [hfree] at hphase
  exact hphase.free

theorem messages_atomic_openAndScroll :
    ∃ s rs, Run.exec step (init screen5x4) openAndScroll = some s ∧
      Run.exec historyAnswered (fun _ => ∅) rs = some s.client.messages ∧
      (rs = openAndScroll.filterMap answered ∨
        ∃ r, openAndScroll.filterMap answered = rs ++ [r] ∧
          s.tg.head? = some (.lock .messages)) := by
  have hrun : Run.exec step (init screen5x4) openAndScroll = some _ := rfl
  obtain ⟨rs, hrs⟩ := messages_atomic hrun rfl
  exact ⟨_, rs, hrun, hrs⟩

/-! ## The history that the threads have -/

/-- The step of the history store that a label takes. -/
def historyEvent : Label → Option HistoryEvent
  | .answer i a => some (.answer i a)
  | .input _ | .ui | .update _ | .tg => none

def isAnswer : HistoryEvent → Bool
  | .answer .. => true
  | .request _ => false

theorem answered_of_historyEvent (h : historyEvent l = none) : answered l = none := by
  cases l with
  | answer => cases h
  | input | ui | update | tg => rfl

/-- The requests that are outstanding after a step. -/
theorem step_outstanding {s s' : System} (hs : s.step l = some s') :
    historyEvent l = none ∧ (s'.outstanding = s.outstanding ∨
        ∃ chatId, s'.outstanding = s.outstanding ++ [chatId]) ∨
      ∃ i a, l = .answer i a ∧ i < s.outstanding.length ∧
        s'.outstanding = s.outstanding.eraseIdx i := by
  cases Steps.of_step hs with
  | @getChatHistory _ chatId => exact .inl ⟨rfl, .inr ⟨chatId, rfl⟩⟩
  | answer htg hi hp => exact .inr ⟨_, _, rfl, hi, rfl⟩
  | input | drawSide | drawMain | popNone | popSome | update | lock | unlock | write =>
    exact .inl ⟨rfl, .inl rfl⟩

/-- The history store has run along with the threads, ahead of the handler that still writes. -/
def RunsAlong (ls : List Label) (s : System) : Prop :=
  ∀ messages, Run.exec historyAnswered (fun _ => ∅) (ls.filterMap answered) = some messages →
    ∃ es, Run.exec History.step History.empty es = some ⟨messages, s.outstanding⟩ ∧
      es.filter isAnswer = ls.filterMap historyEvent

theorem RunsAlong.other {s s' : System} (h : RunsAlong ls s) (hl : historyEvent l = none)
    (hout : s'.outstanding = s.outstanding ∨
      ∃ chatId, s'.outstanding = s.outstanding ++ [chatId]) : RunsAlong (ls ++ [l]) s' := by
  intro messages hm
  rw [List.filterMap_append, List.filterMap_cons_none (answered_of_historyEvent hl),
    List.filterMap_nil, List.append_nil] at hm
  rw [List.filterMap_append, List.filterMap_cons_none hl, List.filterMap_nil, List.append_nil]
  obtain ⟨es, hes, hanswers⟩ := h messages hm
  rcases hout with hout | ⟨chatId, hout⟩
  · exact ⟨es, hout ▸ hes, hanswers⟩
  · refine ⟨es ++ [.request chatId], ?_, by simp [hanswers, isAnswer]⟩
    rw [Run.exec_concat_eq_some]
    exact ⟨_, hes, by rw [hout]; rfl⟩

theorem RunsAlong.answer {s s' : System} {a : Answer} (h : RunsAlong ls s)
    (hi : i < s.outstanding.length) (hout : s'.outstanding = s.outstanding.eraseIdx i) :
    RunsAlong (ls ++ [.answer i a]) s' := by
  intro messages hm
  have hstep : ∃ before,
      Run.exec historyAnswered (fun _ => ∅) (ls.filterMap answered) = some before ∧
      History.step ⟨before, s.outstanding⟩ (.answer i a) = some ⟨messages, s'.outstanding⟩ := by
    rw [List.filterMap_append] at hm
    cases a with
    | other =>
      rw [List.filterMap_cons_none rfl, List.filterMap_nil, List.append_nil] at hm
      exact ⟨messages, hm, by simp [History.step, hi, hout]⟩
    | messages r =>
      obtain ⟨before, hbefore, hr⟩ := Run.exec_concat_eq_some.mp hm
      obtain ⟨x, hx, rfl⟩ := Option.map_eq_some_iff.mp hr
      exact ⟨before, hbefore, by simp [History.step, hi, hx, hout]⟩
  obtain ⟨before, hbefore, hstep⟩ := hstep
  obtain ⟨es, hes, hanswers⟩ := h before hbefore
  refine ⟨es ++ [.answer i a], Run.exec_concat_eq_some.mpr ⟨_, hes, hstep⟩, ?_⟩
  simp [hanswers, isAnswer, historyEvent]

theorem runsAlong (hrun : Run.exec step (init screen) ls = some s) : RunsAlong ls s := by
  refine Run.exec_log (I := RunsAlong) (fun ls s l s' h hs => ?_) (fun messages hm => ?_) hrun
  · rcases step_outstanding hs with ⟨hl, hout⟩ | ⟨i, a, rfl, hi, hout⟩
    · exact h.other hl hout
    · exact h.answer hi hout
  · cases hm
    exact ⟨[], rfl, rfl⟩

/-- **The threads run the history store**: between two handlers, the messages and the outstanding
requests are those of a run of `History` with the same answers. -/
theorem history_refines (hrun : Run.exec step (init screen) ls = some s) (hquiet : s.tg = []) :
    ∃ es, Run.exec History.step History.empty es = some ⟨s.client.messages, s.outstanding⟩ ∧
      es.filter isAnswer = ls.filterMap historyEvent :=
  runsAlong hrun _ (guards_messages.quiet hrun hquiet).2

theorem history_refines_openAndScroll :
    ∃ s es, Run.exec step (init screen5x4) openAndScroll = some s ∧
      Run.exec History.step History.empty es = some ⟨s.client.messages, s.outstanding⟩ ∧
      es.filter isAnswer = openAndScroll.filterMap historyEvent := by
  have hrun : Run.exec step (init screen5x4) openAndScroll = some _ := rfl
  obtain ⟨es, hes⟩ := history_refines hrun rfl
  exact ⟨_, es, hrun, hes⟩

theorem received_filter (es : List HistoryEvent) :
    History.received (es.filter isAnswer) = History.received es := by
  induction es with
  | nil => rfl
  | cons e es ih =>
    cases e with
    | request => exact ih
    | answer i a => exact congrArg (a.received ++ ·) ih

/-- **No message is lost or doubled by the threads**: between two handlers, if dates tell the
messages of a chat apart, each message received for it has one entry, and it has no others. -/
theorem messages_exact (hrun : Run.exec step (init screen) ls = some s) (hquiet : s.tg = [])
    (hw : ∀ e ∈ ls.filterMap historyEvent, e.WellFormed)
    (hu : History.UniqueIds (History.received (ls.filterMap historyEvent)))
    (hd : History.DistinctDates (History.received (ls.filterMap historyEvent))) :
    (∀ m ∈ History.received (ls.filterMap historyEvent), ∃ n ∈ s.client.messages m.chatId,
      n.id = m.id ∧ ∀ n' ∈ s.client.messages m.chatId, n'.id = m.id → n' = n) ∧
    ∀ chatId, ∀ m ∈ s.client.messages chatId,
      m ∈ History.received (ls.filterMap historyEvent) ∧ m.chatId = chatId := by
  obtain ⟨es, hes, hanswers⟩ := runsAlong hrun _ (guards_messages.quiet hrun hquiet).2
  have hreceived : History.received (ls.filterMap historyEvent) = History.received es := by
    rw [← hanswers, received_filter]
  rw [hreceived] at hu hd ⊢
  have hwell : ∀ e ∈ es, e.WellFormed := by
    intro e he
    cases e with
    | request => trivial
    | answer => exact hw _ (hanswers ▸ List.mem_filter.mpr ⟨he, rfl⟩)
  have hexact := History.Exact.of_distinctDates hwell hu hes hd
  exact ⟨hexact.entry, hexact.mem_received⟩

theorem messages_exact_openAndScroll :
    ∃ s, Run.exec step (init screen5x4) openAndScroll = some s ∧
      ∃ m ∈ s.client.messages 1, m.id = 3 ∧ ∀ n ∈ s.client.messages 1, n.id = 3 → n = m := by
  have hrun : Run.exec step (init screen5x4) openAndScroll = some _ := rfl
  have hexact := messages_exact hrun rfl (by decide) (by decide) (by decide)
  exact ⟨_, hrun, hexact.1 ⟨3, 1, 30, .messageText (ascii "b")⟩ (by decide)⟩

/-- **The threads list what was reported**: between two handlers, the list has the row
`(order, c)` exactly when the membership was announced, no position of order 0 came since the last
announcement, and `order` is that of the last position since then, or 0 if there was none. -/
theorem list_reported (hrun : Run.exec step (init screen) ls = some s) (hquiet : s.tg = [])
    (hg : Run.Guarded ChatStore.processUpdate (ChatStore.KeepsAt l c) ChatStore.empty
      (updates ls)) :
    (order, c) ∈ s.client.store.positionSets l ↔
      ∃ orders, ChatStore.sinceAnnounced ((updates ls).flatMap (·.reports l c)) = some orders ∧
        0 ∉ orders ∧ order = orders.getLast?.getD 0 := by
  have hstore := (guards_chatboxes.quiet hrun hquiet).2
  rw [← updates_eq] at hstore
  have hc := ChatStore.coherentAt_of_guarded hstore hg
  exact hc.mem_iff_recorded (ChatStore.exec_index hstore)

theorem list_reported_setOrder :
    ∃ s, Run.exec step (init screen5x4) (newChat 1 ++ setOrder 1 5 ++ [.ui]) = some s ∧
      (5, 1) ∈ s.client.store.positionSets ChatList.chatListMain.getId := by
  have hrun : Run.exec step (init screen5x4) (newChat 1 ++ setOrder 1 5 ++ [.ui]) = some _ := rfl
  exact ⟨_, hrun, (list_reported hrun rfl (by decide)).mpr ⟨[5], rfl, by decide, rfl⟩⟩

end System
end Chatcurse

import Chatcurse.Verify.Atomicity

/-!
# The handlers come to their end

A handler finds each mutex free that it takes, and what it writes is defined if TDLib announces each
chat before it names it otherwise and answers with no null message. So a handler can be run to its
end from every state (`handlers_finish`), and then the UI thread waits for no mutex.
-/

namespace Chatcurse

/-- No message is null that the rest of a handler adds. -/
def Filled (tg : List TgAction) : Prop := ∀ chatId m, .emplace chatId m ∈ tg → m.isSome

theorem Filled.tail (h : Filled (a :: tg)) : Filled tg :=
  fun chatId m hm => h chatId m (List.mem_cons_of_mem a hm)

theorem filled_updateProgram (u : Update) : Filled u.program := by
  intro chatId m hm
  cases u <;> simp [Update.program] at hm

theorem filled_answerProgram {a : Answer} (hp : a.program = some p) (hw : a.WellFormed) :
    Filled p := by
  intro chatId m hm
  cases a with
  | other =>
    cases hp
    cases hm
  | messages r =>
    simp only [Answer.program] at hp
    split at hp
    · cases hp
      cases hm
    split at hp
    next =>
      cases hp
      simp only [List.cons_append, List.mem_cons, List.mem_append, List.mem_map, reduceCtorEq,
        List.not_mem_nil, or_false, false_or, TgAction.emplace.injEq] at hm
      obtain ⟨m', hm', -, rfl⟩ := hm
      exact hw.1 m' hm'
    next => cases hp

namespace System

theorem filled_of_exec (hrun : Run.exec step (init screen) ls = some s)
    (hw : ∀ e ∈ ls.filterMap historyEvent, e.WellFormed) : Filled s.tg := by
  refine Run.exec_log (I := fun ls s => (∀ e ∈ ls.filterMap historyEvent, e.WellFormed) →
    Filled s.tg) (fun ls s l s' ih hs hw => ?_)
    (fun _ _ _ hm => absurd hm List.not_mem_nil) hrun hw
  rw [List.filterMap_append] at hw
  have h := ih fun e he => hw e (List.mem_append_left _ he)
  cases Steps.of_step hs with
  | input | drawSide | drawMain | getChatHistory | popNone | popSome => exact h
  | update => exact filled_updateProgram _
  | answer htg hi hp =>
    apply filled_answerProgram hp
    exact hw _ (List.mem_append_right _ List.mem_cons_self)
  | lock htg | unlock htg | write htg =>
    rw [htg] at h
    exact h.tail

theorem held_of_lock (hrun : Run.exec step (init screen) ls = some s)
    (htg : s.tg = .lock m :: rest) : s.held m = false := by
  cases m with
  | chatboxes => exact guards_chatboxes.held_of_lock hrun htg
  | messages => exact guards_messages.held_of_lock hrun htg

theorem held_of_quiet (hrun : Run.exec step (init screen) ls = some s) (hquiet : s.tg = [])
    (m : Mutex) : s.held m = false := by
  cases m with
  | chatboxes => exact (guards_chatboxes.quiet hrun hquiet).1
  | messages => exact (guards_messages.quiet hrun hquiet).1

/-- The next step of a handler can be taken. -/
theorem exists_step_tg (hrun : Run.exec step (init screen) ls = some s)
    (hfirst : ChatStore.NewChatFirst (updates ls))
    (hw : ∀ e ∈ ls.filterMap historyEvent, e.WellFormed) (htg : s.tg = a :: rest) :
    ∃ s', s.step .tg = some s' ∧ s'.tg = rest ∧ s'.ui = s.ui := by
  have hstep : s.step .tg = s.act rest a := by simp only [step, htg]
  rw [hstep]
  cases a with
  | lock m =>
    refine ⟨{ s with tg := rest }.hold m true, ?_, rfl, rfl⟩
    simp [act, TgAction.run, held_of_lock hrun htg]
  | setLastMessage chatId m =>
    have hid := (tabled_of_exec hrun hfirst).lastMessage chatId m (htg ▸ List.mem_cons_self)
    obtain ⟨chat, hchat⟩ := Option.ne_none_iff_exists'.mp hid
    simp only [act, TgAction.run, ChatStore.setLastMessage, hchat, Option.map_some,
      Option.bind_some]
    exact ⟨_, rfl, rfl, rfl⟩
  | emplace chatId m =>
    have hm := filled_of_exec hrun hw chatId m (htg ▸ List.mem_cons_self)
    obtain ⟨m, rfl⟩ := Option.isSome_iff_exists.mp hm
    exact ⟨_, rfl, rfl, rfl⟩
  | unlock | addToList | updatePosition | setChat | push => exact ⟨_, rfl, rfl, rfl⟩

/-- **The handlers come to their end**: from every state the running handler can take its steps to
the last one, and then it holds no mutex that a call of the UI thread waits for. -/
theorem handlers_finish (hrun : Run.exec step (init screen) ls = some s)
    (hfirst : ChatStore.NewChatFirst (updates ls))
    (hw : ∀ e ∈ ls.filterMap historyEvent, e.WellFormed) :
    ∃ s', Run.exec step s (List.replicate s.tg.length .tg) = some s' ∧ s'.tg = [] ∧
      (∀ m, s'.held m = false) ∧ s'.ui = s.ui := by
  induction hn : s.tg.length generalizing s ls with
  | zero =>
    have hquiet : s.tg = [] := List.length_eq_zero_iff.mp hn
    exact ⟨s, rfl, hquiet, held_of_quiet hrun hquiet, rfl⟩
  | succ n ih =>
    obtain ⟨a, rest, htg⟩ := List.exists_cons_of_length_eq_add_one hn
    obtain ⟨s₁, hs₁, htg₁, hui₁⟩ := exists_step_tg hrun hfirst hw htg
    have hrun₁ : Run.exec step (init screen) (ls ++ [.tg]) = some s₁ :=
      Run.exec_concat_eq_some.mpr ⟨s, hrun, hs₁⟩
    have hupdates : updates (ls ++ [.tg]) = updates ls := by simp [updates]
    have hevents : (ls ++ [Label.tg]).filterMap historyEvent = ls.filterMap historyEvent := by
      simp [historyEvent]
    have hlength : s₁.tg.length = n := by
      rw [htg, List.length_cons] at hn
      rw [htg₁]
      exact Nat.succ.inj hn
    obtain ⟨s', hexec, hquiet, hheld, hui⟩ :=
      ih hrun₁ (hupdates.symm ▸ hfirst) (hevents.symm ▸ hw) hlength
    refine ⟨s', ?_, hquiet, hheld, hui.trans hui₁⟩
    rw [List.replicate_succ, Run.exec_cons_eq_some]
    exact ⟨s₁, hs₁, hexec⟩

theorem handlers_finish_openAndUpdate :
    ∃ s s', Run.exec step (init screen5x4) openAndUpdate = some s ∧ s.tg.length = 4 ∧
      Run.exec step s (List.replicate 4 .tg) = some s' ∧ s'.held .chatboxes = false := by
  have hrun : Run.exec step (init screen5x4) openAndUpdate = some _ := rfl
  obtain ⟨s', hexec, -, hheld, -⟩ := handlers_finish hrun newChatFirst_openAndUpdate (by decide)
  exact ⟨_, s', hrun, rfl, hexec, hheld .chatboxes⟩

end System
end Chatcurse

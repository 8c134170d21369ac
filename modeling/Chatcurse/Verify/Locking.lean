import Chatcurse.Verify.System

/-!
# The critical sections of the chat lists

A handler writes the chat lists only while it holds `_id_chatboxes`, pushes `ET_CHATLIST` before it
releases it, and does nothing afterwards. `Critical` says this of the rest of a handler, for a
handler that holds the mutex and one that does not; every step keeps it
(`System.critical_step`).
-/

namespace Chatcurse

namespace TgAction

/-- The action writes the chat lists' store. -/
def writesStore : TgAction → Bool
  | addToList .. | updatePosition .. | setChat _ | setLastMessage .. => true
  | lock _ | unlock _ | emplace .. | push _ => false

/-- The action pushes `ET_CHATLIST`. -/
def announcesList : TgAction → Bool
  | push .eventChatlist => true
  | _ => false

/-- The action takes or releases `_id_chatboxes`. -/
def switches : TgAction → Bool
  | lock .chatboxes | unlock .chatboxes => true
  | _ => false

end TgAction

/-- The rest of a handler that holds `_id_chatboxes` or does not. -/
def Critical : Bool → List TgAction → Prop
  | held, [] => held = false
  | held, .lock .chatboxes :: rest =>
    held = false ∧ (∃ a ∈ rest, a.announcesList) ∧ Critical true rest
  | held, .unlock .chatboxes :: rest => held = true ∧ rest = []
  | held, a :: rest => (a.writesStore → held = true) ∧ Critical held rest

theorem critical_cons {a : TgAction} (ha : a.switches = false) :
    Critical held (a :: rest) ↔ (a.writesStore → held = true) ∧ Critical held rest := by
  cases a with
  | lock m | unlock m =>
    cases m with
    | chatboxes => cases ha
    | messages => rfl
  | addToList | updatePosition | setChat | setLastMessage | emplace | push => rfl

/-- A section that ends with its release. -/
theorem critical_section (has : ∀ a ∈ as, TgAction.switches a = false) :
    Critical true (as ++ [.unlock .chatboxes]) := by
  induction as with
  | nil => exact ⟨rfl, rfl⟩
  | cons a as ih =>
    apply (critical_cons (has a List.mem_cons_self)).mpr
    exact ⟨fun _ => rfl, ih fun b hb => has b (List.mem_cons_of_mem _ hb)⟩

theorem critical_outside
    (has : ∀ a ∈ as, TgAction.switches a = false ∧ TgAction.writesStore a = false) :
    Critical false as := by
  induction as with
  | nil => rfl
  | cons a as ih =>
    obtain ⟨hswitch, hwrite⟩ := has a List.mem_cons_self
    apply (critical_cons hswitch).mpr
    exact ⟨fun h => by simp [hwrite] at h, ih fun b hb => has b (List.mem_cons_of_mem _ hb)⟩

/-- What the handler of an update does while it holds the mutex. -/
def Update.section : Update → List TgAction
  | updateNewChat chat => chat.chatLists.map (.addToList ·.getId chat.id) ++
      chat.positions.map (.updatePosition chat.id) ++ [.push .eventChatlist, .setChat chat]
  | updateChatAddedToList chatId chatList =>
    [.addToList chatList.getId chatId, .push .eventChatlist]
  | updateChatPosition chatId position => [.updatePosition chatId position, .push .eventChatlist]
  | updateChatLastMessage chatId lastMessage positions =>
    .setLastMessage chatId lastMessage :: positions.map (.updatePosition chatId) ++
      [.push .eventChatlist]

theorem Update.program_eq (u : Update) :
    u.program = .lock .chatboxes :: (u.section ++ [.unlock .chatboxes]) := by
  cases u <;> simp [program, Update.section]

theorem Update.push_mem_section (u : Update) : .push .eventChatlist ∈ u.section := by
  cases u <;> simp [Update.section]

theorem Update.switches_of_mem_section {u : Update} (ha : a ∈ u.section) : a.switches = false := by
  cases a with
  | lock | unlock => cases u <;> simp [Update.section] at ha
  | addToList | updatePosition | setChat | setLastMessage | emplace | push => rfl

theorem critical_updateProgram (u : Update) : Critical false u.program := by
  rw [u.program_eq]
  refine ⟨rfl, ⟨.push .eventChatlist, ?_, rfl⟩, critical_section fun a ha => ?_⟩
  · exact List.mem_append_left _ u.push_mem_section
  · exact Update.switches_of_mem_section ha

theorem critical_answerProgram {a : Answer} (h : a.program = some p) : Critical false p := by
  apply critical_outside
  intro b hb
  rcases Answer.mem_program h hb with rfl | ⟨chatId, m, rfl⟩ | ⟨chatId, rfl⟩ | rfl <;>
    exact ⟨rfl, rfl⟩

namespace System

theorem critical_act {s s' : System} (h : Critical (s.held .chatboxes) (a :: rest))
    (hs : s.act rest a = some s') : Critical (s'.held .chatboxes) s'.tg := by
  obtain ⟨c, hc, hs⟩ := Option.bind_eq_some_iff.mp hs
  cases a with
  | lock m =>
    obtain ⟨-, hs⟩ := Option.ite_none_left_eq_some.mp hs
    cases hs
    cases m with
    | chatboxes => exact h.2.2
    | messages => exact h.2
  | unlock m =>
    cases hs
    cases m with
    | chatboxes =>
      obtain ⟨-, rfl⟩ := h
      rfl
    | messages => exact h.2
  | addToList | updatePosition | setChat | setLastMessage | emplace | push =>
    cases hs
    exact h.2

theorem critical_step {s s' : System} (h : Critical (s.held .chatboxes) s.tg)
    (hs : s.step l = some s') : Critical (s'.held .chatboxes) s'.tg := by
  cases l with
  | input k =>
    cases Steps.of_step hs
    exact h
  | ui => cases Steps.of_step hs <;> exact h
  | update u =>
    obtain ⟨htg, hs⟩ := Option.ite_none_right_eq_some.mp hs
    cases hs
    have hheld : s.held .chatboxes = false := by simpa [htg, Critical] using h
    simpa [hheld] using critical_updateProgram u
  | answer i a =>
    obtain ⟨⟨htg, -⟩, hs⟩ := Option.ite_none_right_eq_some.mp hs
    obtain ⟨p, hp, rfl⟩ := Option.map_eq_some_iff.mp hs
    have hheld : s.held .chatboxes = false := by simpa [htg, Critical] using h
    simpa [hheld] using critical_answerProgram hp
  | tg =>
    simp only [step] at hs
    split at hs
    next => cases hs
    next a rest htg => exact critical_act (htg ▸ h) hs

end System
end Chatcurse

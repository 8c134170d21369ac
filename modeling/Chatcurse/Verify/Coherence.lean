import Chatcurse.Store
import Chatcurse.Theory.Run

/-!
# Coherence of the chat-list store

`position_sets[L]` and `id_to_position[L]` describe one list twice. They agree after every run in
which no update announces a chat for a list that already records a position of it, unless one of
the update's own positions goes back to the recorded order (`coherent_iff_guarded`). The two
handlers that announce a membership overwrite the recorded order without removing its pair, which
`_update_position` never does; re-announcing a positioned chat therefore leaves a second row behind
(`addedToList_positioned_not_coherent`).
-/

namespace Chatcurse
namespace ChatStore

/-- The two maps agree on a chat in a list. -/
def CoherentAt (s : ChatStore) (listId chatId : Int) : Prop :=
  ∀ order, (order, chatId) ∈ s.positionSets listId ↔ s.idToPosition listId chatId = some order

/-- `position_sets[L]` is exactly the set of the recorded pairs, for every list `L`. -/
def Coherent (s : ChatStore) : Prop := ∀ listId chatId, s.CoherentAt listId chatId

/-- The update does not overwrite a recorded position of `chatId` in the list, or one of its own
positions for the list goes back to the recorded order before any of them removes the chat. -/
def KeepsAt (listId chatId : Int) (s : ChatStore) (u : Update) : Prop :=
  u.chatId = chatId → u.Announces listId → ∀ old ∈ s.idToPosition listId chatId,
    old = 0 ∨ old ∈ (u.orders listId).takeWhile (· ≠ 0)

instance (listId chatId : Int) (s : ChatStore) (u : Update) :
    Decidable (KeepsAt listId chatId s u) := inferInstanceAs (Decidable (_ → _ → ∀ _ ∈ _, _ ∨ _))

def Keeps (s : ChatStore) (u : Update) : Prop := ∀ listId chatId, KeepsAt listId chatId s u

theorem empty_coherent : empty.Coherent := fun _ _ _ => by simp [empty]

/-- A chat occurs at most once in a list of a coherent store. -/
theorem Coherent.order_unique {s : ChatStore} (h : s.Coherent) {l : Int}
    (h₁ : (o, c) ∈ s.positionSets l) (h₂ : (p, c) ∈ s.positionSets l) : o = p :=
  Option.some.inj (((h l c o).mp h₁).symm.trans ((h l c p).mp h₂))

/-- The pair that `_update_position` erases from a coherent store is in the set. -/
theorem Coherent.erased_mem {s : ChatStore} (h : s.Coherent) {l : Int}
    (hold : s.idToPosition l c = some oldPos) : (oldPos, c) ∈ s.positionSets l :=
  (h l c oldPos).mpr hold

theorem some_mem_takeWhile_key {os : List Int} :
    some old ∈ (os.map key).takeWhile (·.isSome) ↔ old ∈ os.takeWhile (· ≠ 0) := by
  induction os with
  | nil => simp
  | cons o os ih =>
    by_cases ho : o = 0
    · simp [key, ho]
    · have hk : key o = some o := if_pos ho
      simp only [ne_eq, decide_not] at ih
      simp [hk, ho, ih]

/-- One update, one list, one chat: agreement survives exactly when the update keeps it. -/
theorem processUpdate_coherentAt_iff {s s' : ChatStore} (hs : s.processUpdate u = some s')
    (h : s.CoherentAt l c) : s'.CoherentAt l c ↔ KeepsAt l c s u := by
  have hv : s'.CoherentAt l c ↔ (s'.view l).CoherentAt c := .rfl
  have hc : (s.view l).CoherentAt c := h
  rw [hv, processUpdate_view hs, KeepsAt]
  by_cases hid : u.chatId = c
  · subst hid
    by_cases ha : u.Announces l
    · rw [if_pos ha, IndexedSet.coherentAt_moves_put_iff hc]
      simp only [some_mem_takeWhile_key]
      exact ⟨fun hk _ _ => hk, fun hk => hk trivial ha⟩
    · rw [if_neg ha]
      exact iff_of_true (hc.moves _) fun _ h => (ha h).elim
  · have hne : c ≠ u.chatId := Ne.symm hid
    rw [IndexedSet.coherentAt_moves_of_ne hne]
    refine iff_of_true ?_ fun h => (hid h).elim
    split
    · exact (IndexedSet.coherentAt_put_of_ne hne).mpr hc
    · exact hc

theorem processUpdate_coherent_iff {s s' : ChatStore} (hs : s.processUpdate u = some s')
    (h : s.Coherent) : s'.Coherent ↔ Keeps s u :=
  forall₂_congr fun l c => processUpdate_coherentAt_iff hs (h l c)

/-- **Coherence of the chat-list store.** From the empty store, every state of a run is coherent
exactly when no update of the run announces a positioned chat without repairing it. -/
theorem coherent_iff_guarded (us : List Update) :
    Run.Always processUpdate Coherent empty us ↔ Run.Guarded processUpdate Keeps empty us :=
  Run.always_iff_guarded (fun _ _ _ h hs => processUpdate_coherent_iff hs h) empty_coherent

/-- The main list shows chat 1 with order 5, and then chat 1 is added to it again: the list has
both the row of order 5 and a row of order 0. -/
theorem addedToList_positioned_not_coherent :
    ∃ s, Run.exec processUpdate empty
        [.updateNewChat ⟨1, ascii "a", none, [⟨.chatListMain, 5⟩], [.chatListMain]⟩,
          .updateChatAddedToList 1 .chatListMain] = some s ∧ ¬ s.Coherent := by
  refine ⟨_, rfl, fun h => ?_⟩
  have h50 : (5 : Int) = 0 :=
    h.order_unique (l := ChatList.chatListMain.getId) (c := 1) (by decide) (by decide)
  contradiction

end ChatStore
end Chatcurse

import Chatcurse.Verify.Coherence

/-!
# What a chat list displays

TDLib reports memberships (`chat_lists`, `updateChatAddedToList`) and positions. The client ignores
a position for a list unless it records the chat there, and recording starts with a membership and
stops with order 0. What is displayed is therefore decided by the positions that follow the last
announcement of the membership (`mem_positionSets_iff`): the last of them, order 0 while there is
none, and nothing once one of them was 0. TDLib's last report alone does not decide it
(`position_without_membership_not_shown`).
-/

namespace Chatcurse

/-- What an update tells about one chat in one list. -/
inductive Report where
  | announced
  | positioned (order : Int)

def Update.reports (u : Update) (listId chatId : Int) : List Report :=
  if u.chatId = chatId then
    (if u.Announces listId then [.announced] else []) ++ (u.orders listId).map .positioned
  else []

namespace ChatStore

/-- The order of the last `chatPosition` received for a chat in a list. -/
def lastOrder (us : List Update) (listId chatId : Int) : Option Int :=
  (us.flatMap fun u => if u.chatId = chatId then u.orders listId else []).getLast?

/-- The list shows the chats whose last reported order is not 0, at that order. -/
def ShowsLastReported (us : List Update) (s : ChatStore) (listId : Int) : Prop :=
  ∀ order chatId, (order, chatId) ∈ s.positionSets listId ↔
    lastOrder us listId chatId = some order ∧ order ≠ 0

/-- The `updateNewChat` of a chat comes before every other update that names it. -/
def NewChatFirst (us : List Update) : Prop :=
  ∀ pre u post, us = pre ++ u :: post → (∃ chat, u = .updateNewChat chat) ∨
    ∃ chat, .updateNewChat chat ∈ pre ∧ chat.id = u.chatId

/-- The orders received since the last announcement, if there was one. -/
def sinceAnnounced (rs : List Report) : Option (List Int) :=
  rs.foldl (fun acc r => match r with
    | .announced => some []
    | .positioned order => acc.map (· ++ [order])) none

/-- The order the client records after these reports since the last announcement. -/
def recorded (since : Option (List Int)) : Option Int :=
  since.bind fun orders => if 0 ∈ orders then none else some (orders.getLast?.getD 0)

theorem sinceAnnounced_append (rs : List Report) (orders : List Int) :
    sinceAnnounced (rs ++ orders.map .positioned) = (sinceAnnounced rs).map (· ++ orders) := by
  induction orders generalizing rs with
  | nil => simp
  | cons o orders ih =>
    have h := ih (rs ++ [.positioned o])
    rw [List.append_assoc] at h
    rw [List.map_cons, ← List.singleton_append, h, sinceAnnounced, List.foldl_concat,
      ← sinceAnnounced]
    simp [Function.comp_def]

theorem sinceAnnounced_announced (rs : List Report) :
    sinceAnnounced (rs ++ [.announced]) = some [] := by
  rw [sinceAnnounced, List.foldl_concat]

theorem recorded_concat (since : Option (List Int)) (order : Int) :
    recorded (since.map (· ++ [order])) = (recorded since).bind fun _ => key order := by
  cases since with
  | none => rfl
  | some orders =>
    by_cases h : 0 ∈ orders
    · simp [recorded, h]
    · by_cases ho : order = 0
      · simp [recorded, key, ho]
      · simp [recorded, key, h, ho, Ne.symm ho]

/-- The index follows the positions of an update as `recorded` does. -/
theorem moves_index {x : IndexedSet Greater} (h : x.index i = recorded since) (orders : List Int) :
    (x.moves (orders.map key) i).index i = recorded (since.map (· ++ orders)) := by
  induction orders generalizing x since with
  | nil => simpa using h
  | cons o orders ih =>
    have hx : (x.move (key o) i).index i = recorded (since.map (· ++ [o])) := by
      rw [IndexedSet.move_index, if_pos rfl, h, recorded_concat]
    rw [List.map_cons, IndexedSet.moves_cons, ih hx]
    simp [Function.comp_def]

/-- One update takes the recorded order from the reports before it to the reports with it. -/
theorem processUpdate_index {s s' : ChatStore} (hs : s.processUpdate u = some s')
    (h : s.idToPosition l c = recorded (sinceAnnounced rs)) :
    s'.idToPosition l c = recorded (sinceAnnounced (rs ++ u.reports l c)) := by
  have hx : (s.view l).index c = recorded (sinceAnnounced rs) := h
  change (s'.view l).index c = _
  rw [processUpdate_view hs, Update.reports]
  by_cases hc : u.chatId = c
  · subst hc
    rw [if_pos rfl, ← List.append_assoc, sinceAnnounced_append]
    apply moves_index
    by_cases ha : u.Announces l
    · rw [if_pos ha, if_pos ha, sinceAnnounced_announced]
      simp [recorded]
    · rw [if_neg ha, if_neg ha, List.append_nil]
      exact hx
  · have hne : c ≠ u.chatId := Ne.symm hc
    rw [if_neg hc, List.append_nil, ← hx, IndexedSet.moves_index_of_ne hne]
    split
    · simp [hne]
    · rfl

theorem exec_index (h : Run.exec processUpdate empty us = some s) :
    s.idToPosition l c = recorded (sinceAnnounced (us.flatMap (·.reports l c))) := by
  refine Run.exec_log (I := fun us s => s.idToPosition l c =
    recorded (sinceAnnounced (us.flatMap (·.reports l c)))) (fun us s u s' hi hs => ?_) rfl h
  rw [List.flatMap_append, List.flatMap_singleton]
  exact processUpdate_index hs hi

theorem coherentAt_of_guarded (hrun : Run.exec processUpdate empty us = some s)
    (hg : Run.Guarded processUpdate (KeepsAt l c) empty us) : s.CoherentAt l c := by
  have ha : Run.Always processUpdate (fun s => s.CoherentAt l c) empty us :=
    .of_guarded (fun _ _ _ h hk hs => (processUpdate_coherentAt_iff hs h).mpr hk)
      (empty_coherent l c) hg
  exact ha.last hrun

/-- The rows of a chat by what is recorded for it. -/
theorem CoherentAt.mem_iff_recorded {s : ChatStore} (hc : s.CoherentAt l c)
    (hi : s.idToPosition l c = recorded (sinceAnnounced rs)) :
    (order, c) ∈ s.positionSets l ↔ ∃ orders, sinceAnnounced rs = some orders ∧ 0 ∉ orders ∧
      order = orders.getLast?.getD 0 := by
  rw [hc order, hi, recorded, Option.bind_eq_some_iff]
  refine exists_congr fun orders => and_congr_right fun _ => ?_
  by_cases h0 : 0 ∈ orders
  · simp [h0]
  · simp [h0, eq_comm]

/-- **What the client displays.** In a run that does not announce the chat for the list over a
recorded position of it, the list has the row `(order, chatId)` exactly when the membership was
announced, no position of order 0 came since the last announcement, and `order` is that of the last
position since then, or 0 if there was none; the rows are iterated in descending order. -/
theorem mem_positionSets_iff (hrun : Run.exec processUpdate empty us = some s)
    (hg : Run.Guarded processUpdate (KeepsAt l c) empty us) :
    (∀ order, (order, c) ∈ s.positionSets l ↔
      ∃ orders, sinceAnnounced (us.flatMap (·.reports l c)) = some orders ∧ 0 ∉ orders ∧
        order = orders.getLast?.getD 0) ∧
    (s.positionSets l).elems.Pairwise Greater := by
  have hc := coherentAt_of_guarded hrun hg
  exact ⟨fun order => hc.mem_iff_recorded (exec_index hrun), (s.positionSets l).sorted⟩

/-- A chat is shown, removed, announced again and shown again. -/
def shownAgain : List Update :=
  [.updateNewChat ⟨1, ascii "a", none, [⟨.chatListMain, 5⟩], [.chatListMain]⟩,
    .updateChatPosition 1 ⟨.chatListMain, 0⟩, .updateChatAddedToList 1 .chatListMain,
    .updateChatPosition 1 ⟨.chatListMain, 7⟩]

theorem mem_positionSets_shown_again :
    ∃ s, Run.exec processUpdate empty shownAgain = some s ∧
      ∀ order, (order, 1) ∈ s.positionSets ChatList.chatListMain.getId ↔ order = 7 := by
  have hg : Run.Guarded processUpdate (KeepsAt ChatList.chatListMain.getId 1) empty shownAgain := by
    decide
  refine ⟨_, rfl, fun order => ?_⟩
  rw [(mem_positionSets_iff rfl hg).1 order]
  constructor
  · rintro ⟨orders, h, -, rfl⟩
    cases h
    rfl
  · rintro rfl
    exact ⟨[7], rfl, by decide, rfl⟩

/-- Chat 1 has a position in the main list without belonging to it. -/
theorem position_without_membership_not_shown :
    NewChatFirst [.updateNewChat ⟨1, ascii "a", none, [⟨.chatListMain, 5⟩], []⟩] ∧
      ∃ s, Run.exec processUpdate empty
          [.updateNewChat ⟨1, ascii "a", none, [⟨.chatListMain, 5⟩], []⟩] = some s ∧
        ¬ ShowsLastReported [.updateNewChat ⟨1, ascii "a", none, [⟨.chatListMain, 5⟩], []⟩] s
          ChatList.chatListMain.getId := by
  refine ⟨fun pre u post h => .inl ?_, _, rfl, fun h => ?_⟩
  · cases pre with
    | nil => exact ⟨_, (List.cons.inj h).1.symm⟩
    | cons v pre => simp at h
  · have hmem := (h 5 1).mpr ⟨rfl, by decide⟩
    revert hmem
    decide

end ChatStore
end Chatcurse

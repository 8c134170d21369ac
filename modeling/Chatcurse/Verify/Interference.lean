import Chatcurse.Verify.Coherence

/-!
# Chat lists do not interfere

Each list of the store follows the memberships and positions reported for it and nothing else:
deleting from a run all that names lists of another kind changes nothing about a list
(`view_eq_restrict`). The store tells lists apart by their class, so the folders are one list to it,
and what is reported for one of them shows in all (`folders_interfere`).
-/

namespace Chatcurse

namespace ChatList

/-- Two lists of one class. -/
def SameKind : ChatList → ChatList → Bool
  | chatListMain, chatListMain | chatListArchive, chatListArchive
  | chatListFolder _, chatListFolder _ => true
  | _, _ => false

theorem getId_eq_iff {l l' : ChatList} : l.getId = l'.getId ↔ l.SameKind l' := by
  cases l <;> cases l' <;> simp [getId, SameKind]

end ChatList

/-- The update without the memberships and positions of the lists that are not kept. -/
def Update.restrict (keep : ChatList → Bool) : Update → Option Update
  | updateNewChat chat => some (.updateNewChat { chat with
      chatLists := chat.chatLists.filter keep
      positions := chat.positions.filter (keep ·.list) })
  | updateChatAddedToList chatId list =>
    if keep list then some (.updateChatAddedToList chatId list) else none
  | updateChatPosition chatId pos =>
    if keep pos.list then some (.updateChatPosition chatId pos) else none
  | updateChatLastMessage chatId m positions =>
    some (.updateChatLastMessage chatId m (positions.filter (keep ·.list)))

/-- Two updates that say the same about one list. -/
structure Update.SameFor (listId : Int) (u u' : Update) : Prop where
  chatId : u'.chatId = u.chatId
  announces : u'.Announces listId ↔ u.Announces listId
  orders : u'.orders listId = u.orders listId

namespace ChatStore

/-- What two runs have in common when what they report for one list is the same. -/
structure Alike (listId : Int) (s t : ChatStore) : Prop where
  view : s.view listId = t.view listId
  chats : ∀ chatId, (s.idToChat chatId).isSome = (t.idToChat chatId).isSome

theorem view_congr {s s' t t' : ChatStore} (hs : s.processUpdate u = some s')
    (ht : t.processUpdate u' = some t') (hu : u.SameFor l u') (h : s.view l = t.view l) :
    s'.view l = t'.view l := by
  rw [processUpdate_view hs, processUpdate_view ht, hu.chatId, hu.orders, h]
  simp only [hu.announces]

/-- An update that says nothing about a list leaves it as it is. -/
theorem view_eq_of_silent {s s' : ChatStore} (hs : s.processUpdate u = some s')
    (ha : ¬u.Announces l) (ho : u.orders l = []) : s'.view l = s.view l := by
  rw [processUpdate_view hs, if_neg ha, ho]
  rfl

end ChatStore

namespace Update

section
variable {L : ChatList}

theorem mem_filter_sameKind {ls : List ChatList} :
    L.getId ∈ (ls.filter (L.SameKind ·)).map (·.getId) ↔ L.getId ∈ ls.map (·.getId) := by
  simp only [List.mem_map, List.mem_filter]
  refine exists_congr fun l => ⟨fun h => ⟨h.1.1, h.2⟩, fun h => ⟨⟨h.1, ?_⟩, h.2⟩⟩
  exact ChatList.getId_eq_iff.mp h.2.symm

theorem orders_filter_sameKind (ps : List ChatPosition) :
    ((ps.filter (L.SameKind ·.list)).filter (·.list.getId = L.getId)).map (·.order) =
      (ps.filter (·.list.getId = L.getId)).map (·.order) := by
  rw [List.filter_filter]
  congr 1
  refine List.filter_congr fun p _ => ?_
  rw [Bool.and_eq_left_iff_imp, decide_eq_true_eq]
  exact fun h => ChatList.getId_eq_iff.mp h.symm

theorem sameFor_of_restrict {u u' : Update} (h : u.restrict L.SameKind = some u') :
    u.SameFor L.getId u' := by
  cases u with
  | updateNewChat chat =>
    cases h
    exact ⟨rfl, mem_filter_sameKind, orders_filter_sameKind _⟩
  | updateChatLastMessage chatId m ps =>
    cases h
    exact ⟨rfl, .rfl, orders_filter_sameKind _⟩
  | updateChatAddedToList | updateChatPosition =>
    obtain ⟨-, heq⟩ := Option.ite_none_right_eq_some.mp h
    cases heq
    exact ⟨rfl, .rfl, rfl⟩

theorem silent_of_restrict {u : Update} (h : u.restrict L.SameKind = none) :
    ¬u.Announces L.getId ∧ u.orders L.getId = [] := by
  cases u with
  | updateNewChat | updateChatLastMessage => cases h
  | updateChatAddedToList chatId list =>
    have hne : ¬L.SameKind list := fun hk => by simp [restrict, hk] at h
    refine ⟨fun ha => hne (ChatList.getId_eq_iff.mp ?_), rfl⟩
    simpa [Announces, chatLists] using ha
  | updateChatPosition chatId pos =>
    have hne : ¬L.SameKind pos.list := fun hk => by simp [restrict, hk] at h
    refine ⟨fun ha => (by cases ha), ?_⟩
    have hid : pos.list.getId ≠ L.getId := fun hid => hne (ChatList.getId_eq_iff.mp hid.symm)
    simp [orders, positions, hid]

end

end Update

namespace ChatStore

section
variable {s s' t t' : ChatStore} {L : ChatList}

theorem processUpdateNewChat_isSome (s : ChatStore) (chat : Chat) (chatId : Int) :
    ((s.processUpdateNewChat chat).idToChat chatId).isSome =
      if chatId = chat.id then true else (s.idToChat chatId).isSome := by
  simp only [processUpdateNewChat, setChat, updatePositions_idToChat, addToLists_idToChat,
    Function.update_apply]
  split <;> rfl

/-- The last message of a chat is set in both stores or in none. -/
theorem setLastMessage_isSome (hc : ∀ id, (s.idToChat id).isSome = (t.idToChat id).isSome)
    (chatId : Int) (m : Option Message) :
    Option.Rel (fun s' t' => ∀ id, (s'.idToChat id).isSome = (t'.idToChat id).isSome)
      (s.setLastMessage chatId m) (t.setLastMessage chatId m) := by
  have hid := hc chatId
  unfold setLastMessage
  cases hs : s.idToChat chatId <;> cases ht : t.idToChat chatId <;> rw [hs, ht] at hid
  · exact .none
  · cases hid
  · cases hid
  · refine .some fun id => ?_
    simp only [Function.update_apply]
    split
    · rfl
    · exact hc id

theorem processUpdate_lastMessage (h : s.setLastMessage chatId m = some s₁)
    (ps : List ChatPosition) :
    s.processUpdate (.updateChatLastMessage chatId m ps) =
      some (ps.foldl (fun s pos => s.updatePosition chatId pos) s₁) := by
  simp only [ChatStore.processUpdate, processUpdateChatLastMessage, h, Option.map_some]

/-- One update, in the run as it is and in the run without the other lists. -/
theorem Alike.processUpdate (h : s.Alike L.getId t) (hu : u.restrict L.SameKind = some u') :
    Option.Rel (Alike L.getId) (s.processUpdate u) (t.processUpdate u') := by
  have hsame := Update.sameFor_of_restrict hu
  cases u with
  | updateNewChat chat =>
    cases hu
    refine .some ⟨view_congr rfl rfl hsame h.view, fun id => ?_⟩
    rw [processUpdateNewChat_isSome, processUpdateNewChat_isSome, h.chats id]
  | updateChatAddedToList chatId list =>
    obtain ⟨-, heq⟩ := Option.ite_none_right_eq_some.mp hu
    cases heq
    exact .some ⟨view_congr rfl rfl hsame h.view, h.chats⟩
  | updateChatPosition chatId pos =>
    obtain ⟨-, heq⟩ := Option.ite_none_right_eq_some.mp hu
    cases heq
    refine .some ⟨view_congr rfl rfl hsame h.view, fun id => ?_⟩
    simp only [processUpdateChatPosition, updatePosition_idToChat, h.chats id]
  | updateChatLastMessage chatId m ps =>
    cases hu
    have hrel := setLastMessage_isSome h.chats chatId m
    cases hs : s.setLastMessage chatId m <;> cases ht : t.setLastMessage chatId m <;>
      rw [hs, ht] at hrel <;> cases hrel
    · simp only [ChatStore.processUpdate, processUpdateChatLastMessage, hs, ht]
      exact .none
    next s₁ t₁ hc =>
      have hs' := processUpdate_lastMessage hs ps
      have ht' := processUpdate_lastMessage ht (ps.filter (L.SameKind ·.list))
      rw [hs', ht']
      refine .some ⟨view_congr hs' ht' hsame h.view, fun id => ?_⟩
      simp only [updatePositions_idToChat, hc id]

/-- An update that the other run does not have. -/
theorem Alike.silent (h : s.Alike L.getId t) (hu : u.restrict L.SameKind = none) :
    ∃ s', s.processUpdate u = some s' ∧ s'.Alike L.getId t := by
  obtain ⟨ha, ho⟩ := Update.silent_of_restrict hu
  cases u with
  | updateNewChat | updateChatLastMessage => cases hu
  | updateChatAddedToList chatId list =>
    exact ⟨_, rfl, (view_eq_of_silent rfl ha ho).trans h.view, h.chats⟩
  | updateChatPosition chatId pos =>
    refine ⟨_, rfl, (view_eq_of_silent rfl ha ho).trans h.view, fun id => ?_⟩
    simp only [processUpdateChatPosition, updatePosition_idToChat, h.chats id]

end

/-- **Chat lists do not interfere.** What a run makes of a list is what it makes of it without
anything that names lists of another kind. -/
theorem view_eq_restrict (L : ChatList) (us : List Update) :
    (Run.exec processUpdate empty us).map (·.view L.getId) =
      (Run.exec processUpdate empty (us.filterMap (·.restrict L.SameKind))).map
        (·.view L.getId) := by
  have hrel : Option.Rel (Alike L.getId) (Run.exec processUpdate empty us)
      (Run.exec processUpdate empty (us.filterMap (·.restrict L.SameKind))) :=
    Run.exec_filterMap (fun _ _ _ _ h hu => h.processUpdate hu) (fun _ _ _ h hu => h.silent hu)
      ⟨rfl, fun _ => rfl⟩
  cases hs : Run.exec processUpdate empty us <;>
    cases ht : Run.exec processUpdate empty (us.filterMap (·.restrict L.SameKind)) <;>
    rw [hs, ht] at hrel <;> cases hrel
  next h => exact congrArg some h.view

/-- Chat 1 is added to folder 2, and is shown in folder 1. -/
theorem folders_interfere :
    let us : List Update := [.updateNewChat ⟨1, ascii "a", none, [], []⟩,
      .updateChatAddedToList 1 (.chatListFolder 2)]
    let L : ChatList := .chatListFolder 1
    (Run.exec processUpdate empty us).map (·.positionSets L.getId) ≠
      (Run.exec processUpdate empty (us.filterMap (·.restrict (· = L)))).map
        (·.positionSets L.getId) := by
  intro us L h
  have helems := congrArg (Option.map (·.elems)) h
  revert helems
  decide

end ChatStore
end Chatcurse

import Chatcurse.Td
import Chatcurse.Theory.IndexedSet
import Mathlib.Order.Defs.LinearOrder

/-!
# The chat-list store

`tl_app_state_struct::position_sets`, `id_to_position` and `id_to_chat` (`src/global.h`) and the
update handlers that write them (`src/tg.cc`). An `unordered_map` is the function its lookups
compute; `operator[]` on a missing key of the two position maps makes an empty container, which is
what the function has there. In `id_to_chat` a missing entry and a null pointer are both `none`.
-/

namespace Chatcurse

/-- `std::greater<std::pair<int64_t, int53>>` -/
def Greater (p q : Int × Int) : Prop := q.1 < p.1 ∨ q.1 = p.1 ∧ q.2 < p.2

instance : DecidableRel Greater := fun _ _ => inferInstanceAs (Decidable (_ ∨ _))

instance : IsTrans (Int × Int) Greater := ⟨fun a b c hab hbc => by unfold Greater at *; omega⟩

instance : Std.Irrefl Greater := ⟨fun a h => by unfold Greater at h; omega⟩

instance : Std.Trichotomous Greater := ⟨fun a b hab hba => by
  unfold Greater at hab hba
  exact Prod.ext (by omega) (by omega)⟩

/-- `std::set<p64_53, std::greater<p64_53>>` -/
abbrev PositionSet := OrdSet Greater

structure ChatStore where
  /-- class ID (for list type) -> (chat position, chat id) -/
  positionSets : Int → PositionSet
  /-- class ID (for list type) -> chat id -> chat position -/
  idToPosition : Int → Int → Option Int
  idToChat : Int → Option Chat

namespace ChatStore

def empty : ChatStore := ⟨fun _ => ∅, fun _ _ => none, fun _ => none⟩

/-- The two writes that put a chat without a position into a list, shared by
`process_update_new_chat` and `process_update_chat_added_to_list`. -/
def addToList (s : ChatStore) (listId chatId : Int) : ChatStore :=
  { s with
    idToPosition := Function.update s.idToPosition listId
      (Function.update (s.idToPosition listId) chatId (some 0))
    positionSets := Function.update s.positionSets listId
      ((s.positionSets listId).insert (0, chatId)) }

/-- `TgClient::_update_position` -/
def updatePosition (s : ChatStore) (chatId : Int) (u : ChatPosition) : ChatStore :=
  let listId := u.list.getId
  let posMap := s.idToPosition listId
  let posSet := s.positionSets listId
  match posMap chatId with
  | none => s
  | some oldPos =>
    let posSet := posSet.erase (oldPos, chatId)
    if u.order ≠ 0 then
      { s with
        positionSets := Function.update s.positionSets listId (posSet.insert (u.order, chatId))
        idToPosition := Function.update s.idToPosition listId
          (Function.update posMap chatId (some u.order)) }
    else
      { s with
        positionSets := Function.update s.positionSets listId posSet
        idToPosition := Function.update s.idToPosition listId
          (Function.update posMap chatId none) }

def setChat (s : ChatStore) (chat : Chat) : ChatStore :=
  { s with idToChat := Function.update s.idToChat chat.id (some chat) }

/-- `id_to_chat[chat_id]->last_message_ = …` is undefined on a null pointer. -/
def setLastMessage (s : ChatStore) (chatId : Int) (m : Option Message) : Option ChatStore :=
  (s.idToChat chatId).map fun chat =>
    { s with idToChat := Function.update s.idToChat chatId (some { chat with lastMessage := m }) }

def processUpdateNewChat (s : ChatStore) (chat : Chat) : ChatStore :=
  let s := chat.chatLists.foldl (fun s list => s.addToList list.getId chat.id) s
  let s := chat.positions.foldl (fun s pos => s.updatePosition chat.id pos) s
  s.setChat chat

def processUpdateChatAddedToList (s : ChatStore) (chatId : Int) (chatList : ChatList) :
    ChatStore :=
  s.addToList chatList.getId chatId

def processUpdateChatPosition (s : ChatStore) (chatId : Int) (position : ChatPosition) :
    ChatStore :=
  s.updatePosition chatId position

def processUpdateChatLastMessage (s : ChatStore) (chatId : Int) (lastMessage : Option Message)
    (positions : List ChatPosition) : Option ChatStore :=
  (s.setLastMessage chatId lastMessage).map fun s =>
    positions.foldl (fun s pos => s.updatePosition chatId pos) s

/-- `TgClient::process_update` on the updates of the chat lists. -/
def processUpdate (s : ChatStore) : Update → Option ChatStore
  | .updateNewChat chat => some (s.processUpdateNewChat chat)
  | .updateChatAddedToList chatId chatList => some (s.processUpdateChatAddedToList chatId chatList)
  | .updateChatPosition chatId position => some (s.processUpdateChatPosition chatId position)
  | .updateChatLastMessage chatId m positions => s.processUpdateChatLastMessage chatId m positions

end ChatStore

/-! ## What an update says about one list -/

namespace Update

/-- The chat an update is about. -/
def chatId : Update → Int
  | updateNewChat chat => chat.id
  | updateChatAddedToList chatId _ | updateChatPosition chatId _
  | updateChatLastMessage chatId _ _ => chatId

/-- The lists an update says its chat belongs to. -/
def chatLists : Update → List ChatList
  | updateNewChat chat => chat.chatLists
  | updateChatAddedToList _ chatList => [chatList]
  | updateChatPosition .. | updateChatLastMessage .. => []

/-- The positions an update carries, in order. -/
def positions : Update → List ChatPosition
  | updateNewChat chat => chat.positions
  | updateChatAddedToList .. => []
  | updateChatPosition _ position => [position]
  | updateChatLastMessage _ _ positions => positions

/-- The update announces membership of its chat in the list. -/
def Announces (u : Update) (listId : Int) : Prop := listId ∈ u.chatLists.map (·.getId)

instance (u : Update) (listId : Int) : Decidable (u.Announces listId) :=
  inferInstanceAs (Decidable (_ ∈ _))

/-- The orders an update carries for one list, in order. -/
def orders (u : Update) (listId : Int) : List Int :=
  (u.positions.filter (·.list.getId = listId)).map (·.order)

end Update

/-! ## One list of the store -/

namespace ChatStore

/-- One list as an indexed set: the entries shown and the position recorded for each chat. -/
def view (s : ChatStore) (listId : Int) : IndexedSet Greater where
  set := s.positionSets listId
  index := s.idToPosition listId

/-- A `chatPosition` order as a key, order 0 meaning removal. -/
def key (order : Int) : Option Int := if order ≠ 0 then some order else none

@[simp] theorem view_empty (listId : Int) : empty.view listId = ⟨∅, fun _ => none⟩ := rfl

theorem addToList_view (s : ChatStore) (listId chatId l : Int) :
    (s.addToList listId chatId).view l =
      if l = listId then (s.view l).put 0 chatId else s.view l := by
  split
  next h => subst h; simp [view, addToList, IndexedSet.put]
  next h => simp [view, addToList, h]

theorem updatePosition_view (s : ChatStore) (chatId : Int) (u : ChatPosition) (l : Int) :
    (s.updatePosition chatId u).view l =
      if l = u.list.getId then (s.view l).move (key u.order) chatId else s.view l := by
  cases hi : s.idToPosition u.list.getId chatId with
  | none =>
    have hs : s.updatePosition chatId u = s := by simp [updatePosition, hi]
    rw [hs]
    split
    next hl => subst hl; exact (IndexedSet.move_of_none (x := s.view _) hi _).symm
    · rfl
  | some old =>
    by_cases ho : u.order = 0 <;> by_cases hl : l = u.list.getId
    · subst hl; simp [view, updatePosition, IndexedSet.move, key, hi, ho]
    · simp [view, updatePosition, hi, ho, hl]
    · subst hl; simp [view, updatePosition, IndexedSet.move, key, hi, ho]
    · simp [view, updatePosition, hi, ho, hl]

@[simp] theorem updatePosition_idToChat (s : ChatStore) (chatId : Int) (u : ChatPosition) :
    (s.updatePosition chatId u).idToChat = s.idToChat := by
  simp only [updatePosition]
  split
  · rfl
  · split <;> rfl

@[simp] theorem updatePositions_idToChat (s : ChatStore) (chatId : Int) (ps : List ChatPosition) :
    (ps.foldl (fun s pos => s.updatePosition chatId pos) s).idToChat = s.idToChat := by
  induction ps generalizing s with
  | nil => rfl
  | cons p ps ih => rw [List.foldl_cons, ih, updatePosition_idToChat]

@[simp] theorem addToLists_idToChat (s : ChatStore) (chatId : Int) (ls : List ChatList) :
    (ls.foldl (fun s list => s.addToList list.getId chatId) s).idToChat = s.idToChat := by
  induction ls generalizing s with
  | nil => rfl
  | cons l ls ih => exact ih _

/-- Every position of a chat for one list, in order, is a move in that list. -/
theorem updatePositions_view (s : ChatStore) (chatId : Int) (ps : List ChatPosition) (l : Int) :
    (ps.foldl (fun s pos => s.updatePosition chatId pos) s).view l =
      (s.view l).moves (((ps.filter (·.list.getId = l)).map (·.order)).map key) chatId := by
  induction ps generalizing s with
  | nil => rfl
  | cons p ps ih =>
    rw [List.foldl_cons, ih, updatePosition_view]
    by_cases h : l = p.list.getId
    · simp [h]
    · simp [h, Ne.symm h]

/-- Announcing membership again within one update changes nothing. -/
theorem addToLists_view (s : ChatStore) (chatId : Int) (ls : List ChatList) (l : Int) :
    (ls.foldl (fun s list => s.addToList list.getId chatId) s).view l =
      if l ∈ ls.map (·.getId) then (s.view l).put 0 chatId else s.view l := by
  induction ls generalizing s with
  | nil => rfl
  | cons list ls ih =>
    rw [List.foldl_cons, ih, addToList_view]
    by_cases h : l = list.getId
    · simp [h]
    · simp [h]

@[simp] theorem setChat_view (s : ChatStore) (chat : Chat) (l : Int) :
    (s.setChat chat).view l = s.view l := rfl

theorem setLastMessage_view {s s' : ChatStore} (h : s.setLastMessage chatId m = some s') (l : Int) :
    s'.view l = s.view l := by
  obtain ⟨chat, _, rfl⟩ := Option.map_eq_some_iff.mp h
  rfl

/-- **What an update does to one list**: it puts its chat there with order 0 if it announces the
membership, and then applies its positions for that list. -/
theorem processUpdate_view {s s' : ChatStore} (h : s.processUpdate u = some s') (l : Int) :
    s'.view l =
      (if u.Announces l then (s.view l).put 0 u.chatId else s.view l).moves
        ((u.orders l).map key) u.chatId := by
  cases u with
  | updateNewChat chat =>
    cases h
    simp only [processUpdateNewChat, setChat_view, updatePositions_view, addToLists_view]
    rfl
  | updateChatAddedToList chatId list =>
    cases h
    rw [processUpdateChatAddedToList, addToList_view]
    simp [Update.Announces, Update.chatLists, Update.orders, Update.positions, Update.chatId]
  | updateChatPosition chatId pos =>
    cases h
    exact updatePositions_view s chatId [pos] l
  | updateChatLastMessage chatId m ps =>
    obtain ⟨s₁, hs, rfl⟩ := Option.map_eq_some_iff.mp h
    rw [updatePositions_view, setLastMessage_view hs]
    rfl

end ChatStore
end Chatcurse

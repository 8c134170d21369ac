import Chatcurse.Verify.Coherence
import Chatcurse.Verify.System

/-!
# A position moves its own chat only

`_update_position` on a coherent store is one move: the chat goes to the rank of its new pair, or
away for order 0, and nothing else changes (`updatePosition_movesOnly`). The handlers of
`updateChatPosition` and `updateChatLastMessage` write the store with it alone, so the store is
coherent at each of its calls and each of them is such a move (`positions_moveOnly`).
-/

namespace Chatcurse

/-- The updates that report positions and no membership. -/
def Update.IsPosition : Update → Prop
  | updateChatPosition .. | updateChatLastMessage .. => True
  | updateNewChat _ | updateChatAddedToList .. => False

instance : DecidablePred Update.IsPosition
  | .updateChatPosition .. | .updateChatLastMessage .. => .isTrue trivial
  | .updateNewChat _ | .updateChatAddedToList .. => .isFalse id

namespace ChatStore

/-- The pairs of the other chats, in their order. -/
def others (set : PositionSet) (chatId : Int) : PositionSet := set.filter (·.2 ≠ chatId)

/-- The rank of a chat's pair: the number of the other chats' pairs that come before it. -/
def rankOf (set : PositionSet) (p : Int × Int) : Nat :=
  ((others set p.2).elems.filter (Greater · p)).length

/-- From one store to the next, `chatId` moves to the position and nothing else changes. -/
structure MovesOnly (s : ChatStore) (chatId : Int) (u : ChatPosition) (s' : ChatStore) : Prop where
  coherent : s'.Coherent
  chats : s'.idToChat = s.idToChat
  otherLists : ∀ l, l ≠ u.list.getId →
    s'.positionSets l = s.positionSets l ∧ s'.idToPosition l = s.idToPosition l
  otherChats : ∀ id, id ≠ chatId → s'.idToPosition u.list.getId id = s.idToPosition u.list.getId id
  otherRanks : others (s'.positionSets u.list.getId) chatId =
    others (s.positionSets u.list.getId) chatId
  /-- A chat that was listed is listed once, at the rank of its new pair. -/
  moved : (∃ order, (order, chatId) ∈ s.positionSets u.list.getId) → u.order ≠ 0 →
    s'.idToPosition u.list.getId chatId = some u.order ∧
    (∀ order, (order, chatId) ∈ s'.positionSets u.list.getId ↔ order = u.order) ∧
    (s'.positionSets u.list.getId).elems[rankOf (s.positionSets u.list.getId) (u.order, chatId)]? =
      some (u.order, chatId)
  removed : (∃ order, (order, chatId) ∈ s.positionSets u.list.getId) → u.order = 0 →
    s'.idToPosition u.list.getId chatId = none ∧
    ∀ order, (order, chatId) ∉ s'.positionSets u.list.getId
  ignored : (¬∃ order, (order, chatId) ∈ s.positionSets u.list.getId) → s' = s

/-- The rank counts the pairs before it, once the pair is the chat's only one. -/
theorem getElem?_rankOf {set : PositionSet} {p : Int × Int} (h : p ∈ set)
    (hall : ∀ q ∈ set, q.2 = p.2 → q = p) : set.elems[rankOf set p]? = some p := by
  have hfilter : (others set p.2).elems.filter (Greater · p) = set.elems.filter (Greater · p) := by
    simp only [others, OrdSet.filter, List.filter_filter]
    refine List.filter_congr fun q hq => ?_
    rw [Bool.and_eq_left_iff_imp, decide_eq_true_eq, decide_eq_true_eq]
    rintro hlt heq
    rw [hall q hq heq] at hlt
    exact Std.Irrefl.irrefl _ hlt
  rw [rankOf, hfilter]
  exact OrdSet.getElem?_of_mem h

theorem updatePosition_coherent {s : ChatStore} (h : s.Coherent) (chatId : Int)
    (u : ChatPosition) : (s.updatePosition chatId u).Coherent := by
  intro l c
  have hl : (s.view l).CoherentAt c := h l c
  change ((s.updatePosition chatId u).view l).CoherentAt c
  rw [updatePosition_view]
  split
  · rcases eq_or_ne c chatId with rfl | hne
    · exact hl.move _
    · exact (IndexedSet.coherentAt_move_of_ne hne).mpr hl
  · exact hl

/-- **One application** of `_update_position` to a coherent store. -/
theorem updatePosition_movesOnly {s : ChatStore} (h : s.Coherent) (chatId : Int)
    (u : ChatPosition) : s.MovesOnly chatId u (s.updatePosition chatId u) := by
  let L := u.list.getId
  let s' := s.updatePosition chatId u
  have hcoherent : s'.Coherent := updatePosition_coherent h chatId u
  have hview : s'.view L = (s.view L).move (key u.order) chatId :=
    (updatePosition_view s chatId u L).trans (if_pos rfl)
  have hindex : ∀ id, s'.idToPosition L id = if id = chatId then
      (s.idToPosition L chatId).bind fun _ => key u.order else s.idToPosition L id := fun id =>
    (congrArg (·.index id) hview).trans (IndexedSet.move_index ..)
  have hset : s'.positionSets L = ((s.view L).move (key u.order) chatId).set :=
    congrArg IndexedSet.set hview
  have hothers : others (s'.positionSets L) chatId = others (s.positionSets L) chatId := by
    rw [hset]
    exact IndexedSet.move_others (s.view L) _ chatId
  have hlisted : (∃ order, (order, chatId) ∈ s.positionSets L) →
      s'.idToPosition L chatId = key u.order := by
    rintro ⟨old, hold⟩
    rw [hindex, if_pos rfl, (h L chatId old).mp hold, Option.bind_some]
  refine ⟨hcoherent, updatePosition_idToChat .., ?otherLists,
    fun id hid => (hindex id).trans (if_neg hid), hothers, ?moved, ?removed, ?ignored⟩
  case otherLists =>
    intro l hl
    have hv : s'.view l = s.view l := (updatePosition_view s chatId u l).trans (if_neg hl)
    exact ⟨congrArg IndexedSet.set hv, congrArg IndexedSet.index hv⟩
  case moved =>
    intro hex ho
    have hkey : s'.idToPosition L chatId = some u.order := (hlisted hex).trans (if_pos ho)
    have hmem : ∀ order, (order, chatId) ∈ s'.positionSets L ↔ order = u.order := fun order => by
      rw [hcoherent L chatId order, hkey, Option.some_inj, eq_comm]
    refine ⟨hkey, hmem, ?_⟩
    have hrank : rankOf (s.positionSets L) (u.order, chatId) =
        rankOf (s'.positionSets L) (u.order, chatId) := by rw [rankOf, rankOf, hothers]
    rw [hrank]
    apply getElem?_rankOf ((hmem _).mpr rfl)
    rintro ⟨order, id⟩ hq rfl
    rw [(hmem order).mp hq]
  case removed =>
    intro hex ho
    have hkey : s'.idToPosition L chatId = none := by
      rw [hlisted hex, key, if_neg (not_not_intro ho)]
    refine ⟨hkey, fun order hmem => ?_⟩
    have hsome := (hcoherent L chatId order).mp hmem
    rw [hkey] at hsome
    cases hsome
  case ignored =>
    intro hex
    have hnone : s.idToPosition L chatId = none :=
      Option.eq_none_iff_forall_ne_some.mpr fun old hold => hex ⟨old, (h L chatId old).mpr hold⟩
    simp only [updatePosition, L] at hnone ⊢
    rw [hnone]

/-! ## Runs of the handlers -/

/-- A call of `_update_position` is a move. -/
def MovesOnlyBy (c : Client) : TgAction → Prop
  | .updatePosition chatId u => c.store.MovesOnly chatId u (c.store.updatePosition chatId u)
  | _ => True

/-- The actions that write no list but by `_update_position`. -/
def Moving : TgAction → Prop
  | .addToList .. => False
  | _ => True

theorem moving_of_mem_program {u : Update} (hu : u.IsPosition) {a : TgAction}
    (ha : a ∈ u.program) : Moving a := by
  cases u with
  | updateNewChat | updateChatAddedToList => cases hu
  | updateChatPosition | updateChatLastMessage =>
    cases a with
    | addToList => simp [Update.program] at ha
    | lock | unlock | updatePosition | setChat | setLastMessage | emplace | push => trivial

/-- The store stays coherent from one action to the next. -/
theorem run_coherent {c c' : Client} {a : TgAction} (hc : c.store.Coherent) (hm : Moving a)
    (ha : a.run c = some c') : c'.store.Coherent := by
  cases a with
  | addToList => cases hm
  | updatePosition chatId u =>
    cases ha
    exact updatePosition_coherent hc chatId u
  | setLastMessage chatId m =>
    obtain ⟨store, hstore, rfl⟩ := Option.map_eq_some_iff.mp ha
    intro l id
    have hl : (store.view l).CoherentAt id := by
      rw [setLastMessage_view hstore]
      exact hc l id
    exact hl
  | emplace =>
    obtain ⟨_, -, rfl⟩ := Option.map_eq_some_iff.mp ha
    exact hc
  | lock | unlock | setChat | push =>
    cases ha
    exact hc

/-- **A position moves its own chat only.** From a coherent store, the handlers of any sequence of
position and last-message updates keep it coherent from one write to the next, and each of their
calls of `_update_position` moves the chat to its rank, or away, and nothing else. -/
theorem positions_moveOnly {c : Client} {us : List Update} (hc : c.store.Coherent)
    (hus : ∀ u ∈ us, u.IsPosition) :
    Run.Always TgAction.run (·.store.Coherent) c (us.flatMap (·.program)) ∧
      Run.Guarded TgAction.run MovesOnlyBy c (us.flatMap (·.program)) := by
  have hmoving : ∀ a ∈ us.flatMap (·.program), ∀ _ : Client, Moving a := by
    intro a ha _
    obtain ⟨u, hu, ha⟩ := List.mem_flatMap.mp ha
    exact moving_of_mem_program (hus u hu) ha
  have hcoherent : Run.Always TgAction.run (·.store.Coherent) c (us.flatMap (·.program)) :=
    .of_guarded (fun _ _ _ h hm ha => run_coherent h hm ha) hc (Run.guarded_of_forall hmoving c)
  refine ⟨hcoherent, hcoherent.guarded fun c a h => ?_⟩
  cases a with
  | updatePosition chatId u => exact updatePosition_movesOnly h chatId u
  | lock | unlock | addToList | setChat | setLastMessage | emplace | push => trivial

/-- A chat that no list records is announced. -/
theorem processUpdateNewChat_coherent {s : ChatStore} (h : s.Coherent) {chat : Chat}
    (hnew : ∀ l, s.idToPosition l chat.id = none) : (s.processUpdateNewChat chat).Coherent := by
  have hs : s.processUpdate (.updateNewChat chat) = some (s.processUpdateNewChat chat) := rfl
  refine (processUpdate_coherent_iff hs h).mpr fun l c hc _ old hold => ?_
  subst hc
  exact absurd (hnew l) (Option.ne_none_iff_exists'.mpr ⟨old, hold⟩)

theorem processUpdateNewChat_other (s : ChatStore) {chat : Chat} (h : c ≠ chat.id) (l : Int) :
    (s.processUpdateNewChat chat).idToPosition l c = s.idToPosition l c := by
  have hview := processUpdate_view (s := s) (u := .updateNewChat chat) rfl l
  have hindex := congrArg (·.index c) hview
  refine hindex.trans ((IndexedSet.moves_index_of_ne h _).trans ?_)
  split
  · exact (IndexedSet.put_index ..).trans (if_neg h)
  · rfl

def chat1 : Chat :=
  ⟨1, ascii "a", none, [⟨.chatListMain, 5⟩, ⟨.chatListArchive, 8⟩],
    [.chatListMain, .chatListArchive]⟩

def chat2 : Chat :=
  ⟨2, ascii "b", none, [⟨.chatListMain, 4⟩, ⟨.chatListArchive, 3⟩],
    [.chatListMain, .chatListArchive]⟩

def chat3 : Chat := ⟨3, ascii "c", none, [⟨.chatListArchive, 6⟩], [.chatListArchive]⟩

/-- The main list has the chats 1 and 2, and the archive 1, 3 and 2. -/
def twoLists : Client :=
  { Client.init System.screen5x4 with
    store := ((empty.processUpdateNewChat chat1).processUpdateNewChat chat2).processUpdateNewChat
      chat3 }

theorem twoLists_coherent : twoLists.store.Coherent := by
  refine processUpdateNewChat_coherent (processUpdateNewChat_coherent
    (processUpdateNewChat_coherent empty_coherent fun _ => rfl) fun l => ?_) fun l => ?_
  · exact processUpdateNewChat_other empty (by decide) l
  · exact (processUpdateNewChat_other _ (by decide) l).trans
      (processUpdateNewChat_other empty (by decide) l)

/-- Chat 1 goes below chat 2 in the main list and out of the archive, chat 2 up in the archive, and
a position of chat 3 for the main list is ignored. -/
theorem positions_moveOnly_twoLists :
    let us : List Update :=
      [.updateChatLastMessage 1 none [⟨.chatListMain, 2⟩, ⟨.chatListArchive, 0⟩],
        .updateChatPosition 2 ⟨.chatListArchive, 9⟩, .updateChatPosition 3 ⟨.chatListMain, 7⟩]
    Run.Always TgAction.run (·.store.Coherent) twoLists (us.flatMap (·.program)) ∧
      Run.Guarded TgAction.run MovesOnlyBy twoLists (us.flatMap (·.program)) :=
  positions_moveOnly twoLists_coherent (by decide)

example : (Run.exec TgAction.run twoLists
    ((Update.updateChatLastMessage 1 none [⟨.chatListMain, 2⟩, ⟨.chatListArchive, 0⟩]).program ++
      (Update.updateChatPosition 2 ⟨.chatListArchive, 9⟩).program)).map (fun c =>
    ((c.store.positionSets ChatList.chatListMain.getId).elems,
      (c.store.positionSets ChatList.chatListArchive.getId).elems)) =
    some ([(4, 2), (2, 1)], [(9, 2), (6, 3)]) := by decide

end ChatStore
end Chatcurse

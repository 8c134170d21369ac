import Chatcurse.Verify.DisplayedList
import Chatcurse.Verify.Drawing
import Chatcurse.Verify.Locking
import Chatcurse.Verify.OpenedChat

/-!
# The table of chats

The handler of `updateNewChat` puts a chat into the lists before it puts it into `id_to_chat`, and
the other handlers list chats that they do not look up. If TDLib announces each chat before it names
it otherwise, a chat that is announced is in the table or the running handler still brings it
(`Tabled.announced`), and one that is listed or chosen is `Backed`: the handler that brings it holds
the mutex. So nothing is missing when the mutex is free (`chats_tabled`).
-/

namespace Chatcurse

namespace TgAction

/-- The chat that an action writes to the chat lists' store. -/
def names : TgAction → Option Int
  | addToList _ chatId | updatePosition chatId _ | setLastMessage chatId _ => some chatId
  | setChat chat => some chat.id
  | lock _ | unlock _ | emplace .. | push _ => none

end TgAction

/-- The rest of a handler puts the chat into the table. -/
def Brings (tg : List TgAction) (chatId : Int) : Prop :=
  ∃ chat, .setChat chat ∈ tg ∧ chat.id = chatId

/-- The chat was announced. -/
def Introduced (us : List Update) (chatId : Int) : Prop :=
  ∃ chat, .updateNewChat chat ∈ us ∧ chat.id = chatId

theorem Update.names_of_mem_program {u : Update} (ha : a ∈ u.program) (hc : c ∈ a.names) :
    c = u.chatId := by
  cases u with
  | updateNewChat chat =>
    simp only [program, List.mem_cons, List.mem_append, List.mem_map, List.not_mem_nil,
      or_false] at ha
    rcases ha with ((rfl | ⟨list, -, rfl⟩) | ⟨pos, -, rfl⟩) | (rfl | rfl | rfl) <;> cases hc <;> rfl
  | updateChatAddedToList chatId list | updateChatPosition chatId pos =>
    simp only [program, List.mem_cons, List.not_mem_nil, or_false] at ha
    rcases ha with rfl | rfl | rfl | rfl <;> cases hc
    rfl
  | updateChatLastMessage chatId m ps =>
    simp only [program, List.mem_cons, List.mem_append, List.mem_map, List.not_mem_nil,
      or_false] at ha
    rcases ha with (rfl | rfl | ⟨pos, -, rfl⟩) | (rfl | rfl) <;> cases hc <;> rfl

theorem Update.brings_program (chat : Chat) : Brings (Update.updateNewChat chat).program chat.id :=
  ⟨chat, by simp [Update.program], rfl⟩

theorem Answer.names_of_mem_program {a : Answer} (hp : a.program = some p) (hb : b ∈ p) :
    b.names = none := by
  rcases mem_program hp hb with rfl | ⟨chatId, m, rfl⟩ | ⟨chatId, rfl⟩ | rfl <;> rfl

theorem Client.mem_chatlist_of_cursorChat {c : Client} (h : c.cursorChat = some chatId) :
    ∃ order, (order, chatId) ∈ c.chatlist := by
  simp only [cursorChat] at h
  split at h
  · obtain ⟨p, hp, rfl⟩ := Option.map_eq_some_iff.mp h
    exact ⟨p.1, List.mem_of_getElem? hp⟩
  · cases h

namespace ChatStore

theorem NewChatFirst.of_append {us vs : List Update} (h : NewChatFirst (us ++ vs)) :
    NewChatFirst us := by
  rintro pre v post rfl
  exact h pre v (post ++ vs) (by simp)

theorem NewChatFirst.announced {us : List Update} {u : Update} (h : NewChatFirst (us ++ [u])) :
    Introduced (us ++ [u]) u.chatId := by
  rcases h us u [] rfl with ⟨chat, rfl⟩ | ⟨chat, hmem, hid⟩
  · exact ⟨chat, List.mem_append_right _ List.mem_cons_self, rfl⟩
  · exact ⟨chat, List.mem_append_left _ hmem, hid⟩

end ChatStore

namespace TgAction

/-- A write takes no chat out of the table, and `setChat` puts its own in. -/
theorem run_idToChat {c c' : Client} {a : TgAction} {chatId : Int} (h : a.run c = some c')
    (hid : c.store.idToChat chatId ≠ none ∨ ∃ chat, a = setChat chat ∧ chat.id = chatId) :
    c'.store.idToChat chatId ≠ none := by
  cases a with
  | setChat chat =>
    cases h
    rcases eq_or_ne chatId chat.id with rfl | hne
    · simp [ChatStore.setChat]
    · simp only [ChatStore.setChat, Function.update_of_ne hne]
      apply hid.resolve_right
      rintro ⟨_, heq, rfl⟩
      cases heq
      exact hne rfl
  | setLastMessage id m =>
    obtain ⟨_, hs, rfl⟩ := Option.map_eq_some_iff.mp h
    obtain ⟨chat, -, rfl⟩ := Option.map_eq_some_iff.mp hs
    rcases eq_or_ne chatId id with rfl | hne
    · simp
    · simpa [Function.update_of_ne hne] using hid
  | updatePosition id u =>
    cases h
    simpa using hid
  | addToList | lock | unlock | push =>
    cases h
    simpa [ChatStore.addToList] using hid
  | emplace =>
    obtain ⟨_, -, rfl⟩ := Option.map_eq_some_iff.mp h
    simpa using hid

/-- A write lists no other chat than the one it names. -/
theorem run_listed {c c' : Client} {a : TgAction} {chatId : Int} (h : a.run c = some c')
    (hmem : (order, chatId) ∈ c'.store.positionSets l) :
    (order, chatId) ∈ c.store.positionSets l ∨ chatId ∈ a.names ∧ a.writesStore := by
  cases a with
  | addToList listId id =>
    cases h
    rcases eq_or_ne chatId id with rfl | hne
    · exact .inr ⟨rfl, rfl⟩
    · change (order, chatId) ∈ ((c.store.addToList listId id).view l).set at hmem
      rw [ChatStore.addToList_view] at hmem
      split at hmem
      · rcases IndexedSet.mem_put.mp hmem with heq | hmem
        · exact (hne (congrArg Prod.snd heq)).elim
        · exact .inl hmem
      · exact .inl hmem
  | updatePosition id u =>
    cases h
    rcases eq_or_ne chatId id with rfl | hne
    · exact .inr ⟨rfl, rfl⟩
    · change (order, chatId) ∈ ((c.store.updatePosition id u).view l).set at hmem
      rw [ChatStore.updatePosition_view] at hmem
      split at hmem
      · exact .inl ((IndexedSet.mem_move_of_ne hne).mp hmem)
      · exact .inl hmem
  | setLastMessage id m =>
    obtain ⟨_, hs, rfl⟩ := Option.map_eq_some_iff.mp h
    obtain ⟨chat, -, rfl⟩ := Option.map_eq_some_iff.mp hs
    exact .inl hmem
  | emplace =>
    obtain ⟨_, -, rfl⟩ := Option.map_eq_some_iff.mp h
    exact .inl hmem
  | setChat | lock | unlock | push =>
    cases h
    exact .inl hmem

theorem run_chosenChatId {c c' : Client} {a : TgAction} (h : a.run c = some c') :
    c'.chosenChatId = c.chosenChatId := by
  rw [run_eq h]

end TgAction

namespace System
open Client

/-- The updates that the Telegram thread received. -/
def updates (ls : List Label) : List Update :=
  ls.filterMap fun l => match l with
    | .update u => some u
    | _ => none

/-- The chat is in the table, or the handler that brings it holds the mutex. -/
def Backed (s : System) (chatId : Int) : Prop :=
  s.client.store.idToChat chatId ≠ none ∨ s.held .chatboxes = true ∧ Brings s.tg chatId

/-- No chat is missing in the table but those that the running handler brings. -/
structure Tabled (us : List Update) (s : System) : Prop where
  keyed : s.client.store.KeyedById
  critical : Critical (s.held .chatboxes) s.tg
  announced : ∀ chatId, Introduced us chatId →
    s.client.store.idToChat chatId ≠ none ∨ Brings s.tg chatId
  named : ∀ a ∈ s.tg, ∀ chatId ∈ a.names, Introduced us chatId
  lastMessage : ∀ chatId m, .setLastMessage chatId m ∈ s.tg →
    s.client.store.idToChat chatId ≠ none
  listed : ∀ l order chatId, (order, chatId) ∈ s.client.store.positionSets l → s.Backed chatId
  chosen : s.client.chosenChatId ≠ -1 → s.Backed s.client.chosenChatId

/-- No handler brings a chat when the mutex is free. -/
theorem Backed.known {s : System} (hb : s.Backed chatId) (hfree : s.held .chatboxes = false) :
    s.client.store.idToChat chatId ≠ none :=
  hb.resolve_right fun ⟨hheld, _⟩ => by simp [hfree] at hheld

theorem init_tabled (screen : Screen) : Tabled [] (init screen) where
  keyed := nofun
  critical := rfl
  announced := by
    rintro _ ⟨_, hmem, -⟩
    cases hmem
  named := nofun
  lastMessage := nofun
  listed _ _ _ h := (OrdSet.not_mem_empty _ h).elim
  chosen h := (h rfl).elim

/-- The steps that only the UI thread takes. -/
theorem Tabled.frame {s s' : System} (h : s.Tabled us) (htg : s'.tg = s.tg)
    (hheld : s'.held = s.held) (hstore : s'.client.store = s.client.store)
    (hchosen : s'.client.chosenChatId ≠ -1 → s.Backed s'.client.chosenChatId) : s'.Tabled us := by
  have hbacked : ∀ chatId, s.Backed chatId → s'.Backed chatId := by
    intro chatId hb
    unfold Backed
    rw [htg, hheld, hstore]
    exact hb
  obtain ⟨hkeyed, hcritical, hann, hnamed, hlast, hlisted, -⟩ := h
  refine ⟨?_, ?_, ?_, ?_, ?_, ?_, fun hne => hbacked _ (hchosen hne)⟩
  · rw [hstore]; exact hkeyed
  · rw [hheld, htg]; exact hcritical
  · rw [hstore, htg]; exact hann
  · rw [htg]; exact hnamed
  · rw [hstore, htg]; exact hlast
  · rw [hstore]; exact fun l order chatId hmem => hbacked _ (hlisted l order chatId hmem)

/-- A step of the handler: what it has still to bring, it brings later or has brought now. -/
theorem Tabled.write {s : System} (h : s.Tabled us) (htg : s.tg = a :: rest)
    (ha : a.run s.client = some c) (hcritical : Critical (s.held .chatboxes) rest) :
    Tabled us { s with client := c, tg := rest } := by
  have hmem : ∀ b ∈ rest, b ∈ s.tg := fun b hb => htg ▸ List.mem_cons_of_mem a hb
  have hbrings : ∀ chatId, s.client.store.idToChat chatId ≠ none ∨ Brings s.tg chatId →
      c.store.idToChat chatId ≠ none ∨ Brings rest chatId := by
    rintro chatId (hid | ⟨chat, hchat, hid⟩)
    · exact .inl (TgAction.run_idToChat ha (.inl hid))
    · rw [htg] at hchat
      rcases List.mem_cons.mp hchat with heq | hchat
      · exact .inl (TgAction.run_idToChat ha (.inr ⟨chat, heq.symm, hid⟩))
      · exact .inr ⟨chat, hchat, hid⟩
  have hbacked : ∀ chatId, s.Backed chatId →
      Backed { s with client := c, tg := rest } chatId := by
    rintro chatId (hid | ⟨hheld, hb⟩)
    · exact .inl (TgAction.run_idToChat ha (.inl hid))
    · exact (hbrings chatId (.inr hb)).imp_right fun hb => ⟨hheld, hb⟩
  refine ⟨TgAction.run_keyedById ha h.keyed, hcritical, ?_, ?_, ?_, ?_, ?_⟩
  · exact fun chatId hann => hbrings chatId (h.announced chatId hann)
  · exact fun b hb => h.named b (hmem b hb)
  · exact fun chatId m hb => TgAction.run_idToChat ha (.inl (h.lastMessage chatId m (hmem _ hb)))
  · intro l order chatId hl
    apply hbacked
    rcases TgAction.run_listed ha hl with hl | ⟨hname, hwrites⟩
    · exact h.listed l order chatId hl
    · -- the action holds the mutex, and its chat was announced
      have hhead : a ∈ s.tg := htg ▸ List.mem_cons_self
      have hheld : s.held .chatboxes = true := by
        have hcrit : Critical (s.held .chatboxes) (a :: rest) := htg ▸ h.critical
        refine ((critical_cons ?_).mp hcrit).1 hwrites
        cases a <;> first | rfl | cases hwrites
      exact (h.announced chatId (h.named a hhead chatId hname)).imp_right fun hb => ⟨hheld, hb⟩
  · intro hne
    rw [TgAction.run_chosenChatId ha] at hne ⊢
    exact hbacked _ (h.chosen hne)

/-- A handler that brings no chat, or holds the mutex, begins. -/
theorem Tabled.update {s : System} (h : s.Tabled us) (htg : s.tg = [])
    (hann : Introduced (us ++ [u]) u.chatId) : Tabled (us ++ [u]) { s with tg := u.program } := by
  have hfree : s.held .chatboxes = false := by simpa [htg, Critical] using h.critical
  have hknown : ∀ chatId, Introduced us chatId → s.client.store.idToChat chatId ≠ none := by
    intro chatId hold
    apply (h.announced chatId hold).resolve_right
    rintro ⟨_, hb, _⟩
    rw [htg] at hb
    cases hb
  have hbacked : ∀ chatId, s.Backed chatId → Backed { s with tg := u.program } chatId :=
    fun chatId hb => .inl (hb.known hfree)
  refine ⟨h.keyed, hfree ▸ critical_updateProgram u, ?_, ?_, ?_, ?_, ?_⟩
  · rintro chatId ⟨chat, hmem, hid⟩
    rcases List.mem_append.mp hmem with hmem | hmem
    · exact .inl (hknown chatId ⟨chat, hmem, hid⟩)
    · obtain rfl := List.mem_singleton.mp hmem
      exact .inr (hid ▸ Update.brings_program chat)
  · intro a ha chatId hc
    rw [Update.names_of_mem_program ha hc]
    exact hann
  · intro chatId m ha
    cases u with
    | updateChatLastMessage id m' ps =>
      have hid : chatId = (Update.updateChatLastMessage id m' ps).chatId :=
        Update.names_of_mem_program ha rfl
      obtain ⟨chat, hmem, hchat⟩ := hann
      rcases List.mem_append.mp hmem with hmem | hmem
      · exact hid ▸ hknown id ⟨chat, hmem, hchat⟩
      · cases List.mem_singleton.mp hmem
    | updateNewChat | updateChatAddedToList | updateChatPosition => simp [Update.program] at ha
  · exact fun l order chatId hl => hbacked chatId (h.listed l order chatId hl)
  · exact fun hne => hbacked _ (h.chosen hne)

/-- A handler that writes no chat list begins. -/
theorem Tabled.answer {s : System} {a : Answer} (h : s.Tabled us) (htg : s.tg = [])
    (hp : a.program = some p) (outstanding : List Int) :
    Tabled us { s with tg := p, outstanding := outstanding } := by
  have hfree : s.held .chatboxes = false := by simpa [htg, Critical] using h.critical
  have hnames : ∀ b ∈ p, b.names = none := fun b hb => Answer.names_of_mem_program hp hb
  have hbacked : ∀ chatId, s.Backed chatId →
      Backed { s with tg := p, outstanding := outstanding } chatId :=
    fun chatId hb => .inl (hb.known hfree)
  refine ⟨h.keyed, hfree ▸ critical_answerProgram hp, ?_, ?_, ?_, ?_, ?_⟩
  · intro chatId hann
    refine .inl ((h.announced chatId hann).resolve_right ?_)
    rintro ⟨_, hb, _⟩
    rw [htg] at hb
    cases hb
  · intro b hb chatId hc
    rw [hnames b hb] at hc
    cases hc
  · intro chatId m hb
    cases hnames _ hb
  · exact fun l order chatId hl => hbacked chatId (h.listed l order chatId hl)
  · exact fun hne => hbacked _ (h.chosen hne)

/-- The handler takes or releases a mutex. -/
theorem Tabled.hold {s : System} (h : s.Tabled us) (htg : s.tg = a :: rest)
    (ha : ∀ chat, a ≠ .setChat chat) {held : Mutex → Bool}
    (hcritical : Critical (held .chatboxes) rest)
    (hheld : s.held .chatboxes = true → held .chatboxes = true ∨ rest = []) :
    Tabled us { s with tg := rest, held := held } := by
  have hmem : ∀ b ∈ rest, b ∈ s.tg := fun b hb => htg ▸ List.mem_cons_of_mem a hb
  have hbrings : ∀ chatId, Brings s.tg chatId → Brings rest chatId := by
    rintro chatId ⟨chat, hchat, hid⟩
    rw [htg] at hchat
    exact ⟨chat, (List.mem_cons.mp hchat).resolve_left fun heq => ha chat heq.symm, hid⟩
  have hbacked : ∀ chatId, s.Backed chatId →
      Backed { s with tg := rest, held := held } chatId := by
    rintro chatId (hid | ⟨hlocked, hb⟩)
    · exact .inl hid
    · obtain ⟨chat, hchat, hid⟩ := hbrings chatId hb
      rcases hheld hlocked with hlocked | rfl
      · exact .inr ⟨hlocked, chat, hchat, hid⟩
      · cases hchat
  refine ⟨h.keyed, hcritical, ?_, ?_, ?_, ?_, ?_⟩
  · exact fun chatId hann => (h.announced chatId hann).imp_right (hbrings chatId)
  · exact fun b hb => h.named b (hmem b hb)
  · exact fun chatId m hb => h.lastMessage chatId m (hmem _ hb)
  · exact fun l order chatId hl => hbacked chatId (h.listed l order chatId hl)
  · exact fun hne => hbacked _ (h.chosen hne)

theorem Tabled.chosen_of_eq {s : System} (h : s.Tabled us) (heq : chatId = s.client.chosenChatId)
    (hne : chatId ≠ -1) : s.Backed chatId := by
  subst heq
  exact h.chosen hne

/-- The steps that bring no update. -/
theorem Tabled.other {s s' : System} (h : s.Tabled us) (hl : updates [l] = [])
    (hs : s.step l = some s') : s'.Tabled us := by
  have hcritical := critical_step h.critical hs
  cases Steps.of_step hs with
  | input hui hc =>
    obtain ⟨hd, he⟩ := processInput_cases hc
    refine h.frame rfl rfl hd.store ?_
    cases he with
    | still hv => exact h.chosen_of_eq hv.chosenChatId
    | scrolls key n hkey hn hchosen => exact h.chosen_of_eq hchosen
    | opens chatId hkey hpan hchat hchosen =>
      obtain ⟨order, hmem⟩ := mem_chatlist_of_cursorChat hchat
      intro _
      simp only [hchosen]
      exact h.listed _ order chatId hmem
  | update htg => cases hl
  | answer htg hi hp => exact h.answer htg hp _
  | write htg ha => exact h.write htg ha hcritical
  | drawSide | drawMain | getChatHistory | popNone => exact h.frame rfl rfl rfl h.chosen
  | popSome hui hq he =>
    obtain ⟨hd, hv⟩ := processEvent_frame he
    exact h.frame rfl rfl hd.store (h.chosen_of_eq hv.chosenChatId)
  | @lock rest m htg =>
    refine h.hold htg nofun hcritical fun hheld => .inl ?_
    cases m with
    | chatboxes => rfl
    | messages => exact hheld
  | @unlock rest m htg =>
    refine h.hold htg nofun hcritical fun hheld => ?_
    cases m with
    | chatboxes =>
      have hcrit := h.critical
      rw [htg] at hcrit
      exact .inr hcrit.2
    | messages => exact .inl hheld

theorem Tabled.step {s s' : System} (h : s.Tabled (updates ls))
    (hfirst : ChatStore.NewChatFirst (updates (ls ++ [l]))) (hs : s.step l = some s') :
    s'.Tabled (updates (ls ++ [l])) := by
  have hlog : updates (ls ++ [l]) = updates ls ++ updates [l] := List.filterMap_append ..
  rw [hlog] at hfirst ⊢
  cases l with
  | update u =>
    obtain ⟨htg, hs⟩ := Option.ite_none_right_eq_some.mp hs
    cases hs
    exact h.update htg (ChatStore.NewChatFirst.announced hfirst)
  | input | ui | answer | tg =>
    rw [show updates [_] = [] from rfl, List.append_nil]
    exact h.other rfl hs

theorem tabled_of_exec (hrun : Run.exec step (init screen) ls = some s)
    (hfirst : ChatStore.NewChatFirst (updates ls)) : s.Tabled (updates ls) := by
  refine Run.exec_log (I := fun ls s => ChatStore.NewChatFirst (updates ls) → s.Tabled (updates ls))
    (fun ls s l s' h hs hfirst => ?_) (fun _ => init_tabled screen) hrun hfirst
  have hbefore : ChatStore.NewChatFirst (updates ls) := by
    rw [updates, List.filterMap_append] at hfirst
    exact hfirst.of_append
  exact (h hbefore).step hfirst hs

theorem Tabled.chat_of_backed {s : System} (h : s.Tabled us) (hfree : s.held .chatboxes = false)
    (hb : s.Backed chatId) :
    ∃ chat, s.client.store.idToChat chatId = some chat ∧ chat.id = chatId := by
  obtain ⟨chat, hchat⟩ := Option.ne_none_iff_exists'.mp (hb.known hfree)
  exact ⟨chat, hchat, h.keyed chatId chat hchat⟩

/-- `draw_side` finds its chats, and shows the chosen one reversed. -/
theorem Tabled.drawSide {s : System} (h : s.Tabled us) (hfree : s.held .chatboxes = false)
    (hw : s.client.window .side = some w)
    (hoff : s.client.scrollOffset .side ≤ s.client.chatlist.size) :
    ∃ rows, s.client.drawSide = some rows ∧ ∀ x ∈ rows, x.reversed = true ↔
      (s.client.chatlist.elems[s.client.scrollOffset .side + x.row]?).map (·.2) =
        some s.client.chosenChatId := by
  have hchat : ∀ p ∈ s.client.chatlist,
      ∃ chat, s.client.store.idToChat p.2 = some chat ∧ chat.id = p.2 :=
    fun p hp => h.chat_of_backed hfree (h.listed _ p.1 p.2 hp)
  have hlisted : s.client.RowsListed w := fun r _ p hp =>
    (hchat p (List.mem_of_getElem? hp)).imp fun _ => And.left
  refine ⟨_, drawSide_eq hw hoff hlisted, fun x hx => ?_⟩
  obtain ⟨r, -, rfl⟩ := List.mem_map.mp hx
  rw [sideRow_row]
  cases hp : s.client.chatlist.elems[s.client.scrollOffset .side + r]? with
  | none => simp [sideRow]
  | some p =>
    obtain ⟨chat, hchat, hid⟩ := hchat p (List.mem_of_getElem? hp)
    rw [sideRow_some hchat, hid]
    simp [eq_comm]

/-- **The table of chats**: when the mutex is free, the listed chats and the chosen one are in it
under their ids, so that `draw_side` finds them and shows the chosen one reversed; a handler that
sets a last message finds its chat. -/
theorem chats_tabled (hrun : Run.exec step (init screen) ls = some s)
    (hfirst : ChatStore.NewChatFirst (updates ls)) :
    (s.held .chatboxes = false →
      (∀ l order chatId, (order, chatId) ∈ s.client.store.positionSets l →
        ∃ chat, s.client.store.idToChat chatId = some chat ∧ chat.id = chatId) ∧
      (s.client.chosenChatId ≠ -1 → ∃ chat,
        s.client.store.idToChat s.client.chosenChatId = some chat ∧
          chat.id = s.client.chosenChatId) ∧
      ∀ w, s.client.window .side = some w →
        s.client.scrollOffset .side ≤ s.client.chatlist.size →
        ∃ rows, s.client.drawSide = some rows ∧ ∀ x ∈ rows, x.reversed = true ↔
          (s.client.chatlist.elems[s.client.scrollOffset .side + x.row]?).map (·.2) =
            some s.client.chosenChatId) ∧
    ∀ chatId m rest, s.tg = .setLastMessage chatId m :: rest → ∃ s', s.step .tg = some s' := by
  have h := tabled_of_exec hrun hfirst
  refine ⟨fun hfree => ⟨fun l order chatId hmem => ?_, fun hne => ?_, fun w hw hoff => ?_⟩, ?_⟩
  · exact h.chat_of_backed hfree (h.listed l order chatId hmem)
  · exact h.chat_of_backed hfree (h.chosen hne)
  · exact h.drawSide hfree hw hoff
  · intro chatId m rest htg
    have hid := h.lastMessage chatId m (htg ▸ List.mem_cons_self)
    obtain ⟨chat, hchat⟩ := Option.ne_none_iff_exists'.mp hid
    simp only [step, htg, act, TgAction.run, ChatStore.setLastMessage, hchat, Option.map_some,
      Option.bind_some]
    exact ⟨_, rfl⟩

/-- A chat is reported, drawn, opened, and gets a last message. -/
def openAndUpdate : List Label :=
  newChat 1 ++ [.ui, .ui, key 'o', .ui, .ui, .ui, .update (.updateChatLastMessage 1 none [])]

theorem newChatFirst_openAndUpdate : ChatStore.NewChatFirst (updates openAndUpdate) := by
  intro pre u post h
  have hupdates : updates openAndUpdate =
      [.updateNewChat ⟨1, ascii "a", none, [], [.chatListMain]⟩,
        .updateChatLastMessage 1 none []] := rfl
  rw [hupdates] at h
  rcases pre with - | ⟨v, - | ⟨v', pre⟩⟩
  · cases h
    exact .inl ⟨_, rfl⟩
  · cases h
    exact .inr ⟨_, List.mem_singleton_self _, rfl⟩
  · simp at h

theorem chats_tabled_openAndUpdate :
    ∃ s, Run.exec step (init screen5x4) openAndUpdate = some s ∧ s.client.chosenChatId = 1 ∧
      ∃ chat, s.client.store.idToChat 1 = some chat ∧ chat.id = 1 := by
  have hrun : Run.exec step (init screen5x4) openAndUpdate = some _ := rfl
  have htabled := (chats_tabled hrun newChatFirst_openAndUpdate).1 rfl
  exact ⟨_, hrun, rfl, htabled.2.1 (by decide)⟩

end System
end Chatcurse

import Chatcurse.Verify.System

/-!
# Scrolling stays inside what is scrolled

Both panes advance an iterator by their offset before they draw, and neither checks it then. The
offset of the main pane is bounded by the size of the chosen chat's history when it moves, but
choosing another chat keeps it, and `G` takes it from the chat list: where neither goes past the
history, no run does (`mainDraws_inBounds`). The offset of the side pane is bounded by the size of
the chat list when it moves, but the list shrinks afterwards: where it does not shrink under the
offset, no run scrolls past it (`sideDraws_inBounds`).
-/

namespace Chatcurse

namespace Client

theorem maxOffset_le (size : Nat) (w : Window) : maxOffset size w ≤ size := by
  unfold maxOffset
  omega

end Client

namespace System
open Client

/-! ## The main pane -/

/-- The offset of the main pane is within the history of the chosen chat. -/
def MainInBounds (s : System) : Prop :=
  s.client.chosenChatId ≠ -1 → s.client.scrollOffset .main ≤ s.client.chosenMessages.size

/-- If the UI thread is about to run `draw_main` over a chosen chat, its `advance` stays within the
history. -/
def MainDrawsInBounds (s : System) : Prop :=
  s.ui.head? = some .drawMain → s.held .messages = false → s.client.chosenChatId ≠ -1 →
    s.client.scrollOffset .main ≤ s.client.chosenMessages.size

/-- `o` opens a chat whose history reaches the offset of the main pane, and `G` in the main pane
does not go past the history there. -/
def KeepsMain (s : System) : Label → Prop
  | .input (.char key) =>
    (key = 'o' → s.client.currentPan ≠ .comp → ∀ chatId ∈ s.client.cursorChat, chatId ≠ -1 →
      s.client.scrollOffset .main ≤ (s.client.messages chatId).size) ∧
    (key = 'G' → s.client.currentPan = .main → s.client.chosenChatId ≠ -1 →
      ∀ w ∈ s.client.window .main,
        maxOffset s.client.chatlist.size w ≤ s.client.chosenMessages.size)
  | _ => True

instance (s : System) : ∀ l, Decidable (s.KeepsMain l)
  | .input (.char _) => inferInstanceAs (Decidable (_ ∧ _))
  | .input (.mouse _) | .input (.resize ..) | .input .ctrlQ | .input .tab | .input .err
  | .ui | .update _ | .answer .. | .tg => .isTrue trivial

theorem MainInBounds.of_sameView {s s' : System} (h : s.MainInBounds)
    (hm : s'.client.messages = s.client.messages) (hv : SameView s.client s'.client) :
    s'.MainInBounds := by
  unfold MainInBounds chosenMessages
  rw [hm, hv.chosenChatId, hv.scrollOffset]
  exact h

theorem MainInBounds.input {s : System} (h : s.MainInBounds) (hk : s.KeepsMain (.input k))
    (hc : s.client.processInput k = some (c, calls)) :
    MainInBounds { s with client := c, ui := calls ++ [.popAndGet] } := by
  obtain ⟨hd, he⟩ := processInput_cases hc
  cases he with
  | still hv => exact h.of_sameView hd.messages hv
  | scrolls key n hkey hn hchosen hoffset =>
    subst hkey
    intro hne
    have hle : s.client.scrollOffset .main ≤ (s.client.messages s.client.chosenChatId).size :=
      h (hchosen ▸ hne)
    change c.scrollOffset .main ≤ (c.messages c.chosenChatId).size
    rw [hd.messages, hchosen]
    rw [hchosen] at hne
    rcases scrolled_offset hoffset .main with ⟨hpan, heq⟩ | ⟨-, heq⟩
    · rw [heq]
      cases hn with
      | sideDown hside | sideUp hside =>
        rw [hside] at hpan
        contradiction
      | mainDown =>
        have hoff : s.client.offset = s.client.scrollOffset .main := by rw [offset, hpan]
        omega
      | mainUp => exact Nat.le_trans (Nat.min_le_left _ _) (maxOffset_le _ _)
      | toEnd _ hw => exact hk.2 rfl hpan hne _ (hpan ▸ hw)
      | toTop => exact Nat.zero_le _
    · rw [heq]
      exact hle
  | opens chatId hkey hpan hchat hchosen hoffset =>
    subst hkey
    intro hne
    change c.scrollOffset .main ≤ (c.messages c.chosenChatId).size
    rw [hd.messages, hchosen, hoffset]
    exact hk.1 rfl hpan chatId hchat (hchosen ▸ hne)

theorem MainInBounds.step {s s' : System} (h : s.MainInBounds) (hk : s.KeepsMain l)
    (hs : s.step l = some s') : s'.MainInBounds := by
  cases Steps.of_step hs with
  | input hui hc => exact h.input hk hc
  | popSome hui hq he =>
    obtain ⟨hd, hv⟩ := processEvent_frame he
    exact h.of_sameView hd.messages ⟨hv.chosenChatId, hv.scrollOffset⟩
  | write htg ha =>
    intro hne
    have hsize := TgAction.messages_size_le ha s.client.chosenChatId
    rw [TgAction.run_eq ha] at hne ⊢
    exact Nat.le_trans (h hne) hsize
  | drawSide | drawMain | getChatHistory | popNone | update | answer | lock | unlock => exact h

theorem init_mainInBounds (screen : Screen) : (init screen).MainInBounds := fun h => (h rfl).elim

/-- **Scrolling the messages stays inside the history** of the chosen chat in every state of a run
that opens no chat and jumps nowhere past it. -/
theorem mainDraws_inBounds (hg : Run.Guarded step KeepsMain (init screen) ls) :
    Run.Always step MainDrawsInBounds (init screen) ls :=
  have ha : Run.Always step MainInBounds (init screen) ls :=
    .of_guarded (fun _ _ _ h hk hs => h.step hk hs) (init_mainInBounds screen) hg
  ha.mono fun _ h _ _ => h

/-- A chat is opened, its history arrives, and the main pane scrolls in it. -/
def scrollHistory : List Label :=
  let m (id : Int) : Option Message := some ⟨id, 1, 10 * id, .messageText (ascii "b")⟩
  newChat 1 ++ [.ui, .ui, key 'o', .ui, .ui, .ui, .ui,
    .answer 0 (.messages ⟨4, [m 4, m 3, m 2, m 1]⟩)] ++ List.replicate 7 .tg ++
    [.input .tab, .ui, .ui, key 'k', .ui, .ui, .input (.resize screen5x4 id)]

theorem mainDraws_inBounds_scrollHistory :
    (∃ s, Run.exec step (init screen5x4) scrollHistory = some s ∧
      s.ui.head? = some .drawMain ∧ s.client.scrollOffset .main = 1) ∧
    Run.Always step MainDrawsInBounds (init screen5x4) scrollHistory :=
  ⟨⟨_, rfl, by decide, by decide⟩, mainDraws_inBounds (by decide)⟩

/-- With four chats in three rows, `G` in the main pane scrolls it by one, and `o` there opens a
chat without messages; then the terminal changes. -/
def jumpThenOpen : List Label :=
  newChat 1 ++ newChat 2 ++ newChat 3 ++ newChat 4 ++
    [.ui, .ui, .input .tab, .ui, .ui, key 'G', .ui, .ui, key 'o', .ui, .ui, .ui,
      .input (.resize screen5x4 id)]

theorem jumpThenOpen_not_inBounds :
    ∃ s, Run.exec step (init screen5x4) jumpThenOpen = some s ∧ ¬s.MainDrawsInBounds :=
  ⟨_, rfl, fun h => absurd (h rfl rfl (by decide)) (by decide)⟩

/-! ## The side pane -/

/-- The offset of the side pane is within the chat list. -/
def SideInBounds (s : System) : Prop := s.client.scrollOffset .side ≤ s.client.chatlist.size

/-- If the UI thread is about to run `draw_side`, its `advance` stays within the chat list. -/
def SideDrawsInBounds (s : System) : Prop :=
  s.ui.head? = some .drawSide → s.held .chatboxes = false →
    s.client.scrollOffset .side ≤ s.client.chatlist.size

/-- A position that takes a row of the chat list away leaves as many as the offset of the side pane
counts. -/
def KeepsSideBy (c : Client) : TgAction → Prop
  | .updatePosition chatId u => u.list.getId = c.currentChatlist →
    (c.store.view u.list.getId).Shrinks (ChatStore.key u.order) chatId →
    c.scrollOffset .side + 1 ≤ c.chatlist.size
  | _ => True

def KeepsSide (s : System) : Label → Prop
  | .tg => ∀ a ∈ s.tg.head?, KeepsSideBy s.client a
  | _ => True

instance (c : Client) : ∀ a, Decidable (KeepsSideBy c a)
  | .updatePosition .. => inferInstanceAs (Decidable (_ → _ → _))
  | .lock _ | .unlock _ | .addToList .. | .setChat _ | .setLastMessage .. | .emplace .. | .push _ =>
    .isTrue trivial

instance (s : System) : ∀ l, Decidable (s.KeepsSide l)
  | .tg => inferInstanceAs (Decidable (∀ a ∈ s.tg.head?, KeepsSideBy s.client a))
  | .input _ | .ui | .update _ | .answer .. => .isTrue trivial

/-- A handler's writes to the chat list. -/
theorem run_chatlist {c c' : Client} {a : TgAction} (ha : a.run c = some c')
    (hk : KeepsSideBy c a) (h : c.scrollOffset .side ≤ c.chatlist.size) :
    c'.scrollOffset .side ≤ c'.chatlist.size := by
  cases a with
  | addToList listId chatId =>
    cases ha
    have hview := ChatStore.addToList_view c.store listId chatId c.currentChatlist
    change _ ≤ ((c.store.addToList listId chatId).view c.currentChatlist).set.size
    rw [hview]
    split
    · exact Nat.le_trans h OrdSet.size_le_size_insert
    · exact h
  | updatePosition chatId u =>
    cases ha
    have hview := ChatStore.updatePosition_view c.store chatId u c.currentChatlist
    change _ ≤ ((c.store.updatePosition chatId u).view c.currentChatlist).set.size
    rw [hview]
    split
    next hlist =>
      apply IndexedSet.size_le_size_move
      · intro hshrinks
        apply hk hlist.symm
        rw [← hlist]
        exact hshrinks
      · exact h
    · exact h
  | setLastMessage chatId m =>
    obtain ⟨store, hstore, rfl⟩ := Option.map_eq_some_iff.mp ha
    have hview := ChatStore.setLastMessage_view hstore c.currentChatlist
    change _ ≤ (store.view c.currentChatlist).set.size
    rw [hview]
    exact h
  | emplace =>
    obtain ⟨_, -, rfl⟩ := Option.map_eq_some_iff.mp ha
    exact h
  | lock | unlock | setChat | push =>
    cases ha
    exact h

theorem SideInBounds.of_sameView {s s' : System} (h : s.SideInBounds)
    (hl : s'.client.chatlist = s.client.chatlist) (hv : SameView s.client s'.client) :
    s'.SideInBounds := by
  unfold SideInBounds
  rw [hl, hv.scrollOffset]
  exact h

theorem SideInBounds.input {s : System} (h : s.SideInBounds)
    (hc : s.client.processInput k = some (c, calls)) :
    SideInBounds { s with client := c, ui := calls ++ [.popAndGet] } := by
  obtain ⟨hd, he⟩ := processInput_cases hc
  cases he with
  | still hv => exact h.of_sameView hd.chatlist_eq hv
  | scrolls key n hkey hn hchosen hoffset =>
    change c.scrollOffset .side ≤ c.chatlist.size
    rw [hd.chatlist_eq]
    rcases scrolled_offset hoffset .side with ⟨hpan, heq⟩ | ⟨-, heq⟩
    · rw [heq]
      cases hn with
      | mainDown hmain | mainUp hmain =>
        rw [hmain] at hpan
        contradiction
      | sideUp =>
        have hle : s.client.scrollOffset .side ≤ s.client.chatlist.size := h
        have hoff : s.client.offset = s.client.scrollOffset .side := by rw [offset, hpan]
        omega
      | sideDown => exact Nat.le_trans (Nat.min_le_left _ _) (maxOffset_le _ _)
      | toEnd => exact maxOffset_le _ _
      | toTop => exact Nat.zero_le _
    · rw [heq]
      exact h
  | opens chatId hkey hpan hchat hchosen hoffset =>
    change c.scrollOffset .side ≤ c.chatlist.size
    rw [hd.chatlist_eq, hoffset]
    exact h

theorem SideInBounds.step {s s' : System} (h : s.SideInBounds) (hk : s.KeepsSide l)
    (hs : s.step l = some s') : s'.SideInBounds := by
  cases Steps.of_step hs with
  | input hui hc => exact h.input hc
  | popSome hui hq he =>
    obtain ⟨hd, hv⟩ := processEvent_frame he
    exact h.of_sameView hd.chatlist_eq ⟨hv.chosenChatId, hv.scrollOffset⟩
  | write htg ha =>
    have hk' := hk _ (by rw [htg]; rfl)
    exact run_chatlist ha hk' h
  | drawSide | drawMain | getChatHistory | popNone | update | answer | lock | unlock => exact h

/-- **Scrolling the chat list stays inside it** in every state of a run in which no position takes
a row away that the offset counts. -/
theorem sideDraws_inBounds (hg : Run.Guarded step KeepsSide (init screen) ls) :
    Run.Always step SideDrawsInBounds (init screen) ls :=
  have ha : Run.Always step SideInBounds (init screen) ls :=
    .of_guarded (fun _ _ _ h hk hs => h.step hk hs) (Nat.zero_le _) hg
  ha.mono fun _ h _ _ => h

/-- The last of four chats is scrolled to, and one chat is removed. -/
def scrollThenRemove : List Label :=
  newChat 1 ++ newChat 2 ++ newChat 3 ++ newChat 4 ++
    [.ui, .ui, key 'G', .ui, .ui, .ui] ++ setOrder 2 0 ++ [.input .err, .ui]

theorem sideDraws_inBounds_scrollThenRemove :
    (∃ s, Run.exec step (init screen5x4) scrollThenRemove = some s ∧
      s.ui.head? = some .drawSide ∧ s.client.scrollOffset .side = 1) ∧
    Run.Always step SideDrawsInBounds (init screen5x4) scrollThenRemove :=
  ⟨⟨_, rfl, by decide, by decide⟩, sideDraws_inBounds (by decide)⟩

/-- All four are removed. -/
def scrollThenRemoveAll : List Label :=
  newChat 1 ++ newChat 2 ++ newChat 3 ++ newChat 4 ++ [.ui, .ui, key 'G', .ui, .ui, .ui] ++
    setOrder 1 0 ++ setOrder 2 0 ++ setOrder 3 0 ++ setOrder 4 0 ++ [.input .err, .ui]

theorem scrollThenRemoveAll_not_inBounds :
    ∃ s, Run.exec step (init screen5x4) scrollThenRemoveAll = some s ∧ ¬s.SideDrawsInBounds :=
  ⟨_, rfl, fun h => absurd (h rfl rfl) (by decide)⟩

end System
end Chatcurse

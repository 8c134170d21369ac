import Chatcurse.Verify.System

/-!
# The chat that `o` opens

`o` counts down the chat list of the moment it is pressed; what the user sees was counted by the
most recent `draw_side`, whose client state is kept here as a history variable. The two agree when
the list is still the one that was drawn (`keyOpen_asShown`): no offset changes without a drawing
before the next key. They do not agree once an update reordered the list (`reordered_not_asShown`).
-/

namespace Chatcurse

/-- A chat is stored under its own id. -/
def ChatStore.KeyedById (s : ChatStore) : Prop :=
  ∀ chatId chat, s.idToChat chatId = some chat → chat.id = chatId

theorem TgAction.run_keyedById {c c' : Client} {a : TgAction} (ha : a.run c = some c')
    (h : c.store.KeyedById) : c'.store.KeyedById := by
  cases a with
  | updatePosition chatId u =>
    cases ha
    intro id chat hid
    exact h id chat ((congrFun (ChatStore.updatePosition_idToChat ..) id).symm.trans hid)
  | setChat chat =>
    cases ha
    intro id chat' hid
    by_cases heq : id = chat.id
    · subst heq
      simp only [ChatStore.setChat, Function.update_self] at hid
      rw [Option.some.inj hid]
    · simp only [ChatStore.setChat, Function.update_of_ne heq] at hid
      exact h id chat' hid
  | setLastMessage chatId m =>
    obtain ⟨store, hstore, rfl⟩ := Option.map_eq_some_iff.mp ha
    obtain ⟨chat, hchat, rfl⟩ := Option.map_eq_some_iff.mp hstore
    intro id chat' hid
    by_cases heq : id = chatId
    · subst heq
      simp only [Function.update_self] at hid
      rw [← Option.some.inj hid]
      exact h id chat hchat
    · simp only [Function.update_of_ne heq] at hid
      exact h id chat' hid
  | emplace =>
    obtain ⟨_, -, rfl⟩ := Option.map_eq_some_iff.mp ha
    exact h
  | lock | unlock | addToList | push =>
    cases ha
    exact h

namespace Client

/-- The chat whose title a drawing put on a row. -/
def shownAt (rows : List Write) (r : Nat) : Option Int :=
  (rows.find? (·.row = r)).bind (·.shows)

/-- The loop of `draw_side` puts the chats from the iterator on on the rows from `i` on. -/
theorem sideRows_shownAt {c : Client} (hk : c.store.KeyedById)
    (h : c.sideRows maxx i n pos = some rows) (r : Nat) :
    shownAt rows r = if i ≤ r ∧ r < i + n then (pos[r - i]?).map (·.2) else none := by
  induction n generalizing i pos rows with
  | zero =>
    cases h
    rw [if_neg (by omega)]
    rfl
  | succ n ih =>
    cases pos with
    | nil =>
      obtain ⟨rows', hrows, rfl⟩ := Option.map_eq_some_iff.mp h
      have hih := ih hrows
      by_cases hr : i = r
      · simp [shownAt, hr]
      · simp only [shownAt, List.find?_cons, hr, decide_false] at hih ⊢
        rw [hih]
        simp
    | cons p pos =>
      obtain ⟨chat, hchat, h⟩ := Option.bind_eq_some_iff.mp h
      obtain ⟨rows', hrows, rfl⟩ := Option.map_eq_some_iff.mp h
      have hid := hk p.2 chat hchat
      have hih := ih hrows
      by_cases hr : i = r
      · subst hr
        simp [shownAt, hid]
      · simp only [shownAt, List.find?_cons, hr, decide_false] at hih ⊢
        rw [hih]
        by_cases hlt : i + 1 ≤ r ∧ r < i + 1 + n
        · rw [if_pos hlt, if_pos (by omega), show r - i = (r - (i + 1)) + 1 by omega]
          rfl
        · rw [if_neg hlt, if_neg (by omega)]

/-- `draw_side` puts the chat of rank offset plus row on each row of its window. -/
theorem drawSide_shownAt {c : Client} {r : Nat} (hk : c.store.KeyedById)
    (h : c.drawSide = some rows) (hw : c.window .side = some w) (hr : (r : Int) < w.lines) :
    shownAt rows r = (c.chatlist.elems[c.scrollOffset .side + r]?).map (·.2) := by
  obtain ⟨w', hw', h⟩ := Option.bind_eq_some_iff.mp h
  obtain ⟨pos, hpos, h⟩ := Option.bind_eq_some_iff.mp h
  obtain rfl : w' = w := Option.some.inj (hw'.symm.trans hw)
  obtain ⟨-, rfl⟩ := OrdSet.advance_eq_some.mp hpos
  rw [sideRows_shownAt hk h]
  split
  next hlt => rw [List.getElem?_drop, Nat.sub_zero]
  next hge =>
    have hlen : c.chatlist.elems.length ≤ c.scrollOffset .side + r := by
      have hsize : c.chatlist.size = c.chatlist.elems.length := rfl
      omega
    rw [List.getElem?_eq_none hlen]
    rfl

end Client

namespace System
open Client

/-- The client when `draw_side` ran last. -/
def noteSide (s : System) (l : Label) (_ : System) (drawn : Client) : Client :=
  match l, s.ui with
  | .ui, .drawSide :: _ => s.client
  | _, _ => drawn

/-- A step from `s` to `s'` chooses the chat that `draw_side` put on the cursor's row when it ran
last, or none if it put none there. -/
def AsShown (s : System) (drawn : Client) (s' : System) : Prop :=
  ∃ rows, drawn.drawSide = some rows ∧ s'.client.chosenChatId =
    (shownAt rows (s.client.cursorPositions .side).1.toNat).getD s.client.chosenChatId

/-- The cursor of the side pane is on a row that the pane had when it was drawn last. -/
def OnDrawnRow (s : System) (drawn : Client) : Prop :=
  0 ≤ (s.client.cursorPositions .side).1 ∧
    ∃ w, drawn.window .side = some w ∧ (s.client.cursorPositions .side).1 < w.lines

/-- What was drawn last was drawn with the offset of now, unless a drawing is to come. -/
structure Drawn (s : System) (drawn : Client) : Prop where
  keyed : s.client.store.KeyedById
  last : .drawSide ∈ s.ui ∨ (drawn.store.KeyedById ∧ (∃ rows, drawn.drawSide = some rows) ∧
    drawn.scrollOffset .side = s.client.scrollOffset .side)

theorem init_drawn (screen : Screen) (drawn : Client) : Drawn (init screen) drawn :=
  ⟨nofun, .inl (by simp [init])⟩

theorem Drawn.input {s : System} (h : s.Drawn drawn) (hui : s.ui = [])
    (hc : s.client.processInput k = some (c, calls)) :
    Drawn { s with client := c, ui := calls ++ [.popAndGet] } drawn := by
  obtain ⟨hd, he⟩ := processInput_cases hc
  have hkeyed : c.store.KeyedById := hd.store ▸ h.keyed
  obtain ⟨hk, hrows, hoff⟩ : drawn.store.KeyedById ∧ (∃ rows, drawn.drawSide = some rows) ∧
      drawn.scrollOffset .side = s.client.scrollOffset .side := by
    rcases h.last with hmem | hlast
    · simp [hui] at hmem
    · exact hlast
  have hsame : c.scrollOffset .side = s.client.scrollOffset .side →
      Drawn { s with client := c, ui := calls ++ [.popAndGet] } drawn :=
    fun heq => ⟨hkeyed, .inr ⟨hk, hrows, hoff.trans heq.symm⟩⟩
  cases he with
  | still hv => exact hsame (by rw [hv.scrollOffset])
  | opens chatId hkey hpan hchat hchosen hoffset => exact hsame (by rw [hoffset])
  | scrolls key n hkey hn hchosen hoffset =>
    rcases scrolled_offset hoffset .side with ⟨hpan, -⟩ | ⟨-, heq⟩
    · cases hn with
      | mainDown hmain | mainUp hmain =>
        rw [hmain] at hpan
        contradiction
      | sideDown | sideUp | toEnd | toTop => exact ⟨hkeyed, .inl (by simp)⟩
    · exact hsame heq

theorem Drawn.step {s s' : System} (h : s.Drawn drawn) (hs : s.step l = some s') :
    s'.Drawn (noteSide s l s' drawn) := by
  cases Steps.of_step hs with
  | input hui hc => exact h.input hui hc
  | drawSide hui hfree hrows =>
    simp only [noteSide, hui]
    exact ⟨h.keyed, .inr ⟨h.keyed, ⟨_, hrows⟩, rfl⟩⟩
  | drawMain hui | getChatHistory hui | popNone hui =>
    simp only [noteSide, hui]
    refine ⟨h.keyed, h.last.imp_left fun hmem => ?_⟩
    simpa [hui] using hmem
  | popSome hui hq he =>
    obtain ⟨hd, hv⟩ := processEvent_frame he
    simp only [noteSide, hui]
    refine ⟨hd.store ▸ h.keyed, ?_⟩
    rcases h.last with hmem | ⟨hk, hrows, hoff⟩
    · exact .inl (List.mem_append_right _ (by simpa [hui] using hmem))
    · exact .inr ⟨hk, hrows, hoff.trans (by rw [hv.scrollOffset])⟩
  | write htg ha =>
    have hkeyed := TgAction.run_keyedById ha h.keyed
    rw [TgAction.run_eq ha] at hkeyed ⊢
    exact ⟨hkeyed, h.last⟩
  | update | answer | lock | unlock => exact ⟨h.keyed, h.last⟩

/-- **The chat that `o` opens** in the side pane is the one at the cursor's row of the list of now;
if the list is as it was drawn last and the cursor is on a row drawn then, it is the one shown. -/
theorem keyOpen_asShown
    (hrun : Run.exec (Run.observed step noteSide) (init screen, Client.init screen) ls =
      some (s, drawn))
    (hs : s.step (.input (.char 'o')) = some s') (hpan : s.client.currentPan = .side) :
    s'.client.chosenChatId = s.client.cursorChat.getD s.client.chosenChatId ∧
      (s.client.chatlist = drawn.chatlist → s.OnDrawnRow drawn → s.AsShown drawn s') := by
  have hdrawn : s.Drawn drawn :=
    Run.exec_inv (P := fun x => Drawn x.1 x.2)
      (fun x e x' hx hstep => by
        obtain ⟨t, ht, rfl⟩ := Option.map_eq_some_iff.mp hstep
        exact hx.step ht)
      (init_drawn screen _) hrun
  have hopen : s.ui = [] ∧
      s'.client.chosenChatId = s.client.cursorChat.getD s.client.chosenChatId := by
    obtain ⟨⟨-, hui⟩, h⟩ := Option.ite_none_right_eq_some.mp hs
    obtain ⟨r, hr, rfl⟩ := Option.map_eq_some_iff.mp h
    have heq : s.client.keyOpen = r := by
      simpa [processInput, paneKey, hpan] using hr
    refine ⟨hui, ?_⟩
    subst heq
    unfold keyOpen
    split
    next hchat => rw [hchat]; rfl
    next hchat => rw [hchat]; rfl
  obtain ⟨hui, hchosen⟩ := hopen
  refine ⟨hchosen, fun hlist hrow => ?_⟩
  obtain ⟨hk, ⟨rows, hrows⟩, hoff⟩ := hdrawn.last.resolve_left (by simp [hui])
  obtain ⟨hy, w, hw, hlt⟩ := hrow
  refine ⟨rows, hrows, ?_⟩
  obtain ⟨y, hy⟩ := Int.eq_ofNat_of_zero_le hy
  rw [hy] at hlt
  have hcursor : s.client.cursorChat = shownAt rows y := by
    rw [drawSide_shownAt hk hrows hw hlt, ← hlist, hoff]
    unfold cursorChat
    rw [if_pos] <;> simp only [offset, cursor, hpan, hy]
    · rfl
    · omega
  rw [hchosen, hcursor, hy]
  rfl

/-- Of two chats the second is opened. -/
def openSecond : List Label := newChat 1 ++ newChat 2 ++ [.ui, .ui, key 'j', .ui, .ui]

theorem keyOpen_asShown_openSecond :
    ∃ s drawn s', Run.exec (Run.observed step noteSide) (init screen5x4, Client.init screen5x4)
        openSecond = some (s, drawn) ∧
      s.step (key 'o') = some s' ∧ s'.client.chosenChatId = 1 ∧ s.AsShown drawn s' := by
  have hrun : Run.exec (Run.observed step noteSide) (init screen5x4, Client.init screen5x4)
      openSecond = some (_, _) := rfl
  refine ⟨_, _, _, hrun, rfl, rfl, ?_⟩
  exact (keyOpen_asShown hrun rfl rfl).2 rfl ⟨by decide, _, rfl, by decide⟩

/-- Two chats are drawn, and then the lower one gets a position above the other. -/
def reordered : List Label := newChat 1 ++ newChat 2 ++ [.ui, .ui] ++ setOrder 1 9

theorem reordered_not_asShown :
    ∃ s drawn s', Run.exec (Run.observed step noteSide) (init screen5x4, Client.init screen5x4)
        reordered = some (s, drawn) ∧
      s.step (key 'o') = some s' ∧ s.client.currentPan = .side ∧ ¬s.AsShown drawn s' := by
  refine ⟨_, _, _, rfl, rfl, rfl, ?_⟩
  rintro ⟨rows, hrows, hchosen⟩
  cases hrows
  revert hchosen
  decide

end System
end Chatcurse

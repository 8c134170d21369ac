import Chatcurse.System
import Chatcurse.Verify.EventQueue
import Chatcurse.Verify.Layout

/-!
# What the steps of the two threads do

A handler run without interruption is the handler as it is written (`runAll_updateProgram`,
`runAll_answerProgram`). For the UI thread, `PaneKeys` lists the ways through `paneKey`, and
`processInput_cases` says once which keys move an offset or choose a chat, where to, and what they
draw; every other key leaves both alone. The invariants of the other modules go by these. What an
input does to the windows is what `Frame` says (`processInput_mouse_frame`,
`processInput_resize_frame`).
-/

namespace Chatcurse

/-! ## Handlers -/

theorem runAll_append (c : Client) (as bs : List TgAction) :
    runAll c (as ++ bs) = (runAll c as).bind fun c => runAll c bs := by
  induction as generalizing c with
  | nil => rfl
  | cons a as ih =>
    cases h : a.run c with
    | none => simp [runAll, h]
    | some c' => simp [runAll, h, ih]

theorem runAll_addToLists (c : Client) (chatId : Int) (ls : List ChatList) :
    runAll c (ls.map (.addToList ·.getId chatId)) =
      some { c with store := ls.foldl (fun s list => s.addToList list.getId chatId) c.store } := by
  induction ls generalizing c with
  | nil => rfl
  | cons l ls ih => exact ih _

theorem runAll_updatePositions (c : Client) (chatId : Int) (ps : List ChatPosition) :
    runAll c (ps.map (.updatePosition chatId)) =
      some { c with store := ps.foldl (fun s pos => s.updatePosition chatId pos) c.store } := by
  induction ps generalizing c with
  | nil => rfl
  | cons p ps ih => exact ih _

theorem runAll_emplaces (c : Client) (chatId : Int) (ms : List (Option Message)) :
    runAll c (ms.map (.emplace chatId)) =
      (emplaceMessages c.messages chatId ms).map ({ c with messages := · }) := by
  induction ms generalizing c with
  | nil => rfl
  | cons m ms ih =>
    cases h : emplaceMessage c.messages chatId m with
    | none => simp [runAll, TgAction.run, emplaceMessages, h]
    | some messages => simp [runAll, TgAction.run, emplaceMessages, h, ih]

/-- The handler of an update, step by step, is `process_update` and the push of its event. -/
theorem runAll_updateProgram (c : Client) (u : Update) :
    runAll c u.program = (c.store.processUpdate u).map fun store =>
      { c with store := store, eventQueue := c.eventQueue.push .eventChatlist } := by
  cases u with
  | updateNewChat chat =>
    simp only [Update.program, List.cons_append, runAll, TgAction.run, Option.bind_some,
      List.append_assoc, runAll_append, runAll_addToLists, runAll_updatePositions]
    rfl
  | updateChatAddedToList chatId list => rfl
  | updateChatPosition chatId pos => rfl
  | updateChatLastMessage chatId m ps =>
    cases h : c.store.setLastMessage chatId m with
    | none =>
      simp [Update.program, runAll, TgAction.run, ChatStore.processUpdate,
        ChatStore.processUpdateChatLastMessage, h]
    | some store =>
      simp [Update.program, runAll, TgAction.run, ChatStore.processUpdate,
        ChatStore.processUpdateChatLastMessage, h, runAll_append, runAll_updatePositions]

/-- The handler of a history answer, step by step, is `process_get_chat_history`. -/
theorem runAll_answerProgram (c : Client) (received : Messages) :
    (Answer.program (.messages received)).bind (runAll c) =
      (processGetChatHistory c.messages received).map fun r =>
        { c with messages := r.1, eventQueue := r.2.elim c.eventQueue c.eventQueue.push } := by
  simp only [Answer.program, processGetChatHistory]
  by_cases h0 : received.totalCount = 0
  · simp [h0, runAll]
  · rw [if_neg h0, if_neg h0]
    cases hms : received.messages with
    | nil => rfl
    | cons m ms =>
      cases m with
      | none => rfl
      | some m =>
        simp only [Option.bind_some, List.cons_append, runAll, TgAction.run, runAll_append,
          runAll_emplaces]
        cases emplaceMessages c.messages m.chatId (some m :: ms) <;> rfl

/-- The handler of an answer does nothing, or adds messages of one chat and announces them. -/
theorem Answer.program_cases {a : Answer} (h : a.program = some p) :
    p = [] ∨ ∃ chatId, ∃ ms : List (Option Message), p = .lock .messages ::
      (ms.map (.emplace chatId) ++ [.push (.eventMessages chatId), .unlock .messages]) := by
  cases a with
  | other =>
    cases h
    exact .inl rfl
  | messages received =>
    simp only [program] at h
    split at h
    · cases h
      exact .inl rfl
    split at h
    next m ms hms =>
      cases h
      exact .inr ⟨m.chatId, received.messages, rfl⟩
    next => cases h

theorem Answer.mem_program {a : Answer} (h : a.program = some p) (hb : b ∈ p) :
    b = .lock .messages ∨ (∃ chatId m, b = .emplace chatId m) ∨
      (∃ chatId, b = .push (.eventMessages chatId)) ∨ b = .unlock .messages := by
  rcases program_cases h with rfl | ⟨chatId, ms, rfl⟩
  · cases hb
  · simp only [List.mem_cons, List.mem_append, List.mem_map, List.not_mem_nil, or_false] at hb
    rcases hb with rfl | ⟨m, -, rfl⟩ | rfl | rfl
    · exact .inl rfl
    · exact .inr (.inl ⟨chatId, m, rfl⟩)
    · exact .inr (.inr (.inl ⟨chatId, rfl⟩))
    · exact .inr (.inr (.inr rfl))

/-! ## Keys and events -/

namespace Client

/-- What the UI thread's own functions never write. -/
structure SameData (c c' : Client) : Prop where
  store : c'.store = c.store
  messages : c'.messages = c.messages
  currentChatlist : c'.currentChatlist = c.currentChatlist
  eventQueue : c'.eventQueue = c.eventQueue

/-- Neither the chosen chat nor an offset differs. -/
structure SameView (c c' : Client) : Prop where
  chosenChatId : c'.chosenChatId = c.chosenChatId
  scrollOffset : c'.scrollOffset = c.scrollOffset

theorem SameData.refl (c : Client) : SameData c c := ⟨rfl, rfl, rfl, rfl⟩

theorem SameView.refl (c : Client) : SameView c c := ⟨rfl, rfl⟩

theorem SameData.chatlist_eq {c c' : Client} (h : SameData c c') : c'.chatlist = c.chatlist := by
  unfold chatlist
  rw [h.store, h.currentChatlist]

/-- The keys that set the offset of the focused pane, to what, and what they draw. -/
inductive Scrolls (c : Client) : Char → Nat → List Call → Prop where
  | sideDown : c.currentPan = .side → c.window .side = some w →
    Scrolls c 'j' (min (maxOffset c.chatlist.size w) (c.offset + 1)) [.drawSide]
  | sideUp : c.currentPan = .side → Scrolls c 'k' (max 1 c.offset - 1) [.drawSide]
  | mainDown : c.currentPan = .main → Scrolls c 'j' (max 1 c.offset - 1) [.drawMain]
  | mainUp : c.currentPan = .main → c.window .main = some w →
    Scrolls c 'k' (min (maxOffset c.chosenMessages.size w) (c.offset + 1)) [.drawMain]
  | toEnd : c.currentPan ≠ .comp → c.window c.currentPan = some w →
    Scrolls c 'G' (maxOffset c.chatlist.size w) [.drawSide]
  | toTop : c.currentPan ≠ .comp → c.inputState.state = .S_KEY_PREF →
    Scrolls c 'g' 0 [.drawSide]

/-- The part of the client that `Frame` is about. -/
def frame (c : Client) : Frame := ⟨c.layout, c.inputState⟩

/-- `resize` rejects its sizes, or lays the windows out and then moves the three cursors in turn. -/
theorem resize_cases {c c' : Client} (h : c.resize w n = some (c', calls)) :
    (c' = c ∧ calls = [] ∧ c.layout.resize w n = c.layout) ∨
      ∃ c₁ c₂, ({ c with layout := c.layout.resize w n } : Client).clampCursor .side = some c₁ ∧
        c₁.clampCursor .main = some c₂ ∧ c₂.clampCursor .comp = some c' ∧
        calls = [.drawMain, .drawSide] := by
  unfold resize at h
  split at h
  next hw =>
    cases h
    exact .inl ⟨rfl, rfl, if_pos hw⟩
  split at h
  next hw hn =>
    cases h
    exact .inl ⟨rfl, rfl, by rw [Layout.resize, if_neg hw, if_pos hn]⟩
  · obtain ⟨c₁, h₁, h⟩ := Option.bind_eq_some_iff.mp h
    obtain ⟨c₂, h₂, h⟩ := Option.bind_eq_some_iff.mp h
    obtain ⟨c₃, h₃, h⟩ := Option.map_eq_some_iff.mp h
    cases h
    exact .inr ⟨c₁, c₂, h₁, h₂, h₃, rfl⟩

/-- `resize` writes the windows and the cursors. -/
theorem resize_writes {c c' : Client} (h : c.resize w n = some (c', calls)) :
    c' = { c with layout := c.layout.resize w n, cursorPositions := c'.cursorPositions } ∧
      (calls = [] ∨ calls = [.drawMain, .drawSide]) := by
  rcases resize_cases h with ⟨rfl, rfl, hl⟩ | ⟨c₁, c₂, h₁, h₂, h₃, rfl⟩
  · rw [hl]
    exact ⟨rfl, .inl rfl⟩
  · obtain ⟨_, -, rfl⟩ := Option.map_eq_some_iff.mp h₁
    obtain ⟨_, -, rfl⟩ := Option.map_eq_some_iff.mp h₂
    obtain ⟨_, -, rfl⟩ := Option.map_eq_some_iff.mp h₃
    exact ⟨rfl, .inr rfl⟩

theorem resize_frame {c c' : Client} (h : c.resize w n = some (c', calls)) :
    SameData c c' ∧ SameView c c' ∧ (calls = [] ∨ calls = [.drawMain, .drawSide]) ∧
      c'.frame = ⟨c.layout.resize w n, c.inputState⟩ := by
  obtain ⟨heq, hcalls⟩ := resize_writes h
  rw [heq]
  exact ⟨⟨rfl, rfl, rfl, rfl⟩, ⟨rfl, rfl⟩, hcalls, rfl⟩

/-- **What an input does** to the chosen chat and the offsets, and what it draws then. -/
inductive InputEffect (c : Client) (k : Key) (c' : Client) (calls : List Call) : Prop where
  | still (h : SameView c c') (hcalls : calls = [] ∨ calls = [.drawMain, .drawSide])
  | scrolls (key : Char) (n : Nat) (hk : k = .char key) (hn : Scrolls c key n calls)
    (hchosen : c'.chosenChatId = c.chosenChatId)
    (hoffset : c'.scrollOffset = Function.update c.scrollOffset c.currentPan n)
  | opens (chatId : Int) (hk : k = .char 'o') (hpan : c.currentPan ≠ .comp)
    (hchat : c.cursorChat = some chatId) (hchosen : c'.chosenChatId = chatId)
    (hoffset : c'.scrollOffset = c.scrollOffset)
    (hcalls : calls = [.drawSide, .getChatHistory chatId])

/-- The offset of a pane after the focused one was set. -/
theorem scrolled_offset {c c' : Client}
    (h : c'.scrollOffset = Function.update c.scrollOffset c.currentPan n) (pan : Pane) :
    c.currentPan = pan ∧ c'.scrollOffset pan = n ∨
      c.currentPan ≠ pan ∧ c'.scrollOffset pan = c.scrollOffset pan := by
  rcases eq_or_ne c.currentPan pan with rfl | hne
  · exact .inl ⟨rfl, by rw [h, Function.update_self]⟩
  · exact .inr ⟨hne, by rw [h, Function.update_of_ne (Ne.symm hne)]⟩

/-- The ways through `paneKey`. -/
inductive PaneKeys (c : Client) : Char → Client → List Call → Prop where
  | still : PaneKeys c key c []
  | left : PaneKeys c 'h' c.keyLeft []
  | right (hw : c.window c.currentPan = some w) :
    PaneKeys c 'l' (c.setColumn (min (c.cursor.2 + 1) (w.cols - 1))) []
  | down (hw : c.window c.currentPan = some w) (hlt : c.cursor.1 < w.lines - 1) :
    PaneKeys c 'j' (c.setRow (c.cursor.1 + 1)) []
  | up (hpos : 0 < c.cursor.1) : PaneKeys c 'k' (c.setRow (c.cursor.1 - 1)) []
  | atLast (hw : c.window c.currentPan = some w) (hn : Scrolls c key n calls) :
    PaneKeys c key ((c.setRow (w.lines - 1)).setOffset n) calls
  | atFirst (hn : Scrolls c key n calls) : PaneKeys c key ((c.setRow 0).setOffset n) calls
  | prefixFirst (hpan : c.currentPan ≠ .comp) :
    PaneKeys c 'g' { c with
      inputState := { c.inputState with state := .S_KEY_PREF, prefKey := 'g'.toNat } } []
  | prefixTwice (hpan : c.currentPan ≠ .comp) (hn : Scrolls c 'g' 0 calls) :
    PaneKeys c 'g' (({ c with inputState := c.inputState.reset }.setOffset 0).setRow 0) calls
  | prefixOther (hpan : c.currentPan ≠ .comp) :
    PaneKeys c 'g' { c with inputState := c.inputState.reset } []
  | opens (hpan : c.currentPan ≠ .comp) (hchat : c.cursorChat = some chatId) :
    PaneKeys c 'o' { c with chosenChatId := chatId } [.drawSide, .getChatHistory chatId]

theorem PaneKeys.of_paneKey {c c' : Client} (h : c.paneKey key = some (c', calls)) :
    PaneKeys c key c' calls := by
  unfold paneKey at h
  split at h
  next =>
    cases h
    exact .still
  next =>
    cases h
    exact .left
  next =>
    obtain ⟨c₁, h₁, h⟩ := Option.map_eq_some_iff.mp h
    obtain ⟨w, hw, rfl⟩ := Option.map_eq_some_iff.mp h₁
    cases h
    exact .right hw
  next hpan =>
    obtain ⟨w, hw, h⟩ := Option.map_eq_some_iff.mp h
    split at h <;> cases h
    · exact .atLast hw (.sideDown hpan (hpan ▸ hw))
    next hlt => exact .down hw (Int.not_le.mp hlt)
  next hpan =>
    have h := Option.some.inj h
    unfold sideUp at h
    split at h <;> cases h
    · exact .atFirst (.sideUp hpan)
    next hpos => exact .up (Int.not_le.mp hpos)
  next hpan =>
    obtain ⟨w, hw, h⟩ := Option.map_eq_some_iff.mp h
    split at h <;> cases h
    · exact .atLast hw (.mainDown hpan)
    next hlt => exact .down hw (Int.not_le.mp hlt)
  next hpan =>
    unfold mainUp at h
    split at h
    · obtain ⟨w, hw, h⟩ := Option.map_eq_some_iff.mp h
      cases h
      exact .atFirst (.mainUp hpan (hpan ▸ hw))
    next hpos =>
      cases h
      exact .up (Int.not_le.mp hpos)
  next hpan =>
    obtain ⟨w, hw, h⟩ := Option.map_eq_some_iff.mp h
    cases h
    exact .atLast hw (.toEnd hpan hw)
  next hpan =>
    have h := Option.some.inj h
    simp only [keyPrefix] at h
    split at h
    next hstate =>
      split at h <;> cases h
      · exact .prefixTwice hpan (.toTop hpan hstate)
      · exact .prefixOther hpan
    next =>
      cases h
      exact .prefixFirst hpan
  next hpan =>
    have h := Option.some.inj h
    unfold keyOpen at h
    split at h <;> cases h
    next hchat => exact .opens hpan hchat
    · exact .still
  next =>
    cases h
    exact .still

theorem paneKey_effect {c c' : Client} (h : c.paneKey key = some (c', calls)) :
    SameData c c' ∧ InputEffect c (.char key) c' calls := by
  cases PaneKeys.of_paneKey h with
  | still | left | right | down | up | prefixFirst | prefixOther =>
    exact ⟨⟨rfl, rfl, rfl, rfl⟩, .still ⟨rfl, rfl⟩ (.inl rfl)⟩
  | atLast hw hn => exact ⟨⟨rfl, rfl, rfl, rfl⟩, .scrolls _ _ rfl hn rfl rfl⟩
  | atFirst hn => exact ⟨⟨rfl, rfl, rfl, rfl⟩, .scrolls _ _ rfl hn rfl rfl⟩
  | prefixTwice hpan hn => exact ⟨⟨rfl, rfl, rfl, rfl⟩, .scrolls _ _ rfl hn rfl rfl⟩
  | opens hpan hchat => exact ⟨⟨rfl, rfl, rfl, rfl⟩, .opens _ rfl hpan hchat rfl rfl rfl⟩

theorem processInput_cases {c c' : Client} (h : c.processInput k = some (c', calls)) :
    SameData c c' ∧ InputEffect c k c' calls := by
  cases k with
  | mouse m =>
    cases m with
    | none =>
      cases h
      exact ⟨.refl _, .still (.refl _) (.inl rfl)⟩
    | some m =>
      simp only [processInput] at h
      split at h
      · obtain ⟨hd, hv, hcalls, -⟩ := resize_frame h
        exact ⟨⟨hd.store, hd.messages, hd.currentChatlist, hd.eventQueue⟩,
          .still ⟨hv.chosenChatId, hv.scrollOffset⟩ hcalls⟩
      · cases h
        exact ⟨⟨rfl, rfl, rfl, rfl⟩, .still ⟨rfl, rfl⟩ (.inl rfl)⟩
  | resize s adjust =>
    obtain ⟨hd, hv, hcalls, -⟩ := resize_frame h
    exact ⟨⟨hd.store, hd.messages, hd.currentChatlist, hd.eventQueue⟩,
      .still ⟨hv.chosenChatId, hv.scrollOffset⟩ hcalls⟩
  | ctrlQ | tab | err =>
    cases h
    exact ⟨⟨rfl, rfl, rfl, rfl⟩, .still ⟨rfl, rfl⟩ (.inl rfl)⟩
  | char key => exact paneKey_effect h

/-- The windows and the state of a drag follow `Frame`. -/
theorem processInput_mouse_frame {c c' : Client}
    (h : c.processInput (.mouse (some m)) = some (c', calls)) :
    c'.frame = c.frame.handle (.mouse m) := by
  rcases hm : c.inputState.processMouse c.layout m with ⟨input, sizes⟩
  cases sizes with
  | some sizes =>
    simp only [processInput, hm] at h
    obtain ⟨-, -, -, hf⟩ := resize_frame h
    rw [hf]
    simp only [Frame.handle, frame, hm]
  | none =>
    simp only [processInput, hm] at h
    cases h
    simp only [Frame.handle, frame, hm]

theorem processInput_mouse_inputState {c c' : Client}
    (h : c.processInput (.mouse (some m)) = some (c', calls)) :
    c'.inputState = (c.inputState.processMouse c.layout m).1 :=
  congrArg Frame.input (processInput_mouse_frame h)

theorem processInput_resize_frame {c c' : Client}
    (h : c.processInput (.resize s adjust) = some (c', calls)) :
    c'.frame = c.frame.handle (.resize s adjust) := by
  obtain ⟨-, -, -, hf⟩ := resize_frame h
  exact hf

theorem processEvent_frame {c c' : Client} (h : c.processEvent e = some (c', calls)) :
    SameData c c' ∧ SameView c c' := by
  cases e with
  | eventResize sideW compH =>
    obtain ⟨hd, hv, -⟩ := resize_frame h
    exact ⟨hd, hv⟩
  | eventQuit | eventChatlist | eventCyclePanel | eventMessages =>
    cases h
    exact ⟨⟨rfl, rfl, rfl, rfl⟩, ⟨rfl, rfl⟩⟩

/-- The two types of events that only draw. -/
theorem processEvent_calls {c c' : Client} (h : c.processEvent e = some (c', calls)) :
    (Event.ET_CHATLIST = EventBase.type e → calls = [.drawSide]) ∧
      (Event.ET_MESSAGES = EventBase.type e → calls = [.drawMain]) := by
  cases e with
  | eventChatlist =>
    cases h
    exact ⟨fun _ => rfl, fun ht => absurd ht (by decide)⟩
  | eventMessages chatId =>
    cases h
    have hne : Event.ET_CHATLIST ≠ Event.ET_MESSAGES := by decide
    exact ⟨fun ht => (hne ht).elim, fun _ => rfl⟩
  | eventResize sideW compH =>
    have hlist : Event.ET_CHATLIST ≠ Event.ET_RESIZE := by decide
    have hmessages : Event.ET_MESSAGES ≠ Event.ET_RESIZE := by decide
    exact ⟨fun ht => (hlist ht).elim, fun ht => (hmessages ht).elim⟩
  | eventQuit | eventCyclePanel =>
    exact ⟨fun ht => absurd ht (by decide), fun ht => absurd ht (by decide)⟩

end Client

/-! ## Steps -/

theorem TgAction.run_eq {c c' : Client} {a : TgAction} (h : a.run c = some c') :
    c' = { c with store := c'.store, messages := c'.messages, eventQueue := c'.eventQueue } := by
  cases a with
  | setLastMessage | emplace =>
    obtain ⟨_, -, rfl⟩ := Option.map_eq_some_iff.mp h
    rfl
  | lock | unlock | addToList | updatePosition | setChat | push =>
    cases h
    rfl

theorem TgAction.run_refines {c c' : Client} {a : TgAction} (h : a.run c = some c')
    (hq : ∃ p, EventQueue.Refines c.eventQueue p) : ∃ p, EventQueue.Refines c'.eventQueue p := by
  cases a with
  | push e =>
    cases h
    obtain ⟨p, hp⟩ := hq
    exact ⟨_, hp.push e⟩
  | setLastMessage | emplace =>
    obtain ⟨_, -, rfl⟩ := Option.map_eq_some_iff.mp h
    exact hq
  | lock | unlock | addToList | updatePosition | setChat =>
    cases h
    exact hq

/-- No write takes a message away. -/
theorem TgAction.messages_size_le {c c' : Client} {a : TgAction} (h : a.run c = some c')
    (chatId : Int) : (c.messages chatId).size ≤ (c'.messages chatId).size := by
  cases a with
  | setLastMessage =>
    obtain ⟨_, -, rfl⟩ := Option.map_eq_some_iff.mp h
    exact Nat.le_refl _
  | emplace id m =>
    obtain ⟨_, hm, rfl⟩ := Option.map_eq_some_iff.mp h
    obtain ⟨m, -, rfl⟩ := Option.map_eq_some_iff.mp hm
    by_cases heq : chatId = id
    · simpa [heq] using OrdSet.size_le_size_insert
    · simp [heq]
  | lock | unlock | addToList | updatePosition | setChat | push =>
    cases h
    exact Nat.le_refl _

namespace System

/-- The steps, one by one. -/
inductive Steps (s : System) : Label → System → Prop where
  | input (hui : s.ui = []) (h : s.client.processInput k = some (c, calls)) :
    Steps s (.input k) { s with client := c, ui := calls ++ [.popAndGet] }
  | drawSide (hui : s.ui = .drawSide :: rest) (hfree : s.held .chatboxes = false)
    (h : s.client.drawSide = some rows) : Steps s .ui { s with ui := rest }
  | drawMain (hui : s.ui = .drawMain :: rest) (hfree : s.held .messages = false)
    (h : s.client.drawMain = some rows) : Steps s .ui { s with ui := rest }
  | getChatHistory (hui : s.ui = .getChatHistory chatId :: rest) :
    Steps s .ui { s with ui := rest, outstanding := s.outstanding ++ [chatId] }
  | popNone (hui : s.ui = .popAndGet :: rest)
    (h : s.client.eventQueue.popAndGet = some (q, none)) :
    Steps s .ui { s with client := { s.client with eventQueue := q }, ui := rest }
  | popSome (hui : s.ui = .popAndGet :: rest)
    (h : s.client.eventQueue.popAndGet = some (q, some e))
    (he : { s.client with eventQueue := q }.processEvent e = some (c, calls)) :
    Steps s .ui { s with client := c, ui := calls ++ rest }
  | update (htg : s.tg = []) : Steps s (.update u) { s with tg := u.program }
  | answer (htg : s.tg = []) (hi : i < s.outstanding.length) (h : a.program = some p) :
    Steps s (.answer i a) { s with tg := p, outstanding := s.outstanding.eraseIdx i }
  | lock (htg : s.tg = .lock m :: rest) : Steps s .tg ({ s with tg := rest }.hold m true)
  | unlock (htg : s.tg = .unlock m :: rest) : Steps s .tg ({ s with tg := rest }.hold m false)
  | write (htg : s.tg = a :: rest) (h : a.run s.client = some c) :
    Steps s .tg { s with client := c, tg := rest }

theorem Steps.of_step {s s' : System} (h : s.step l = some s') : Steps s l s' := by
  cases l with
  | input k =>
    obtain ⟨⟨-, hui⟩, h⟩ := Option.ite_none_right_eq_some.mp h
    obtain ⟨⟨c, calls⟩, hc, rfl⟩ := Option.map_eq_some_iff.mp h
    exact .input hui hc
  | ui =>
    simp only [step] at h
    split at h
    next => cases h
    next call rest hui =>
      cases call with
      | drawSide =>
        obtain ⟨hfree, h⟩ := Option.ite_none_left_eq_some.mp h
        obtain ⟨rows, hrows, rfl⟩ := Option.map_eq_some_iff.mp h
        exact .drawSide hui (by simpa using hfree) hrows
      | drawMain =>
        obtain ⟨hfree, h⟩ := Option.ite_none_left_eq_some.mp h
        obtain ⟨rows, hrows, rfl⟩ := Option.map_eq_some_iff.mp h
        exact .drawMain hui (by simpa using hfree) hrows
      | getChatHistory chatId =>
        obtain ⟨-, h⟩ := Option.ite_none_left_eq_some.mp h
        cases h
        exact .getChatHistory hui
      | popAndGet =>
        obtain ⟨⟨c, calls⟩, hc, rfl⟩ := Option.map_eq_some_iff.mp h
        obtain ⟨⟨q, toUpdate⟩, hq, he⟩ := Option.bind_eq_some_iff.mp hc
        cases toUpdate with
        | none =>
          cases he
          exact .popNone hui hq
        | some e => exact .popSome hui hq he
  | update u =>
    obtain ⟨htg, h⟩ := Option.ite_none_right_eq_some.mp h
    cases h
    exact .update htg
  | answer i a =>
    obtain ⟨⟨htg, hi⟩, h⟩ := Option.ite_none_right_eq_some.mp h
    obtain ⟨p, hp, rfl⟩ := Option.map_eq_some_iff.mp h
    exact .answer htg hi hp
  | tg =>
    simp only [step] at h
    split at h
    next => cases h
    next a rest htg =>
      obtain ⟨c, hc, h⟩ := Option.bind_eq_some_iff.mp h
      cases a with
      | lock m =>
        obtain ⟨-, h⟩ := Option.ite_none_left_eq_some.mp h
        cases hc
        cases h
        exact .lock htg
      | unlock m =>
        cases hc
        cases h
        exact .unlock htg
      | addToList | updatePosition | setChat | setLastMessage | emplace | push =>
        cases h
        exact .write htg hc

/-- The events are queued as the coalescing specification says, in every run. -/
theorem refines_step {s s' : System} (h : ∃ p, EventQueue.Refines s.client.eventQueue p)
    (hs : s.step l = some s') : ∃ p, EventQueue.Refines s'.client.eventQueue p := by
  cases Steps.of_step hs with
  | input _ hc => exact (Client.processInput_cases hc).1.eventQueue ▸ h
  | popNone _ hq =>
    obtain ⟨p, hp⟩ := h
    exact ⟨_, hp.of_popAndGet hq⟩
  | @popSome _ q _ c _ _ hq he =>
    obtain ⟨p, hp⟩ := h
    have heq : c.eventQueue = q := (Client.processEvent_frame he).1.eventQueue
    exact ⟨_, heq ▸ hp.of_popAndGet hq⟩
  | write _ ha => exact TgAction.run_refines ha h
  | drawSide | drawMain | getChatHistory | update | answer | lock | unlock => exact h

/-! ### Small runs -/

def screen5x4 : Screen := ⟨5, 4, Frame.screen5x30.lines_pos, by decide⟩

def key (c : Char) : Label := .input (.char c)

/-- A chat of the main list is reported, and the handler runs. -/
def newChat (chatId : Int) : List Label :=
  .update (.updateNewChat ⟨chatId, ascii "a", none, [], [.chatListMain]⟩) :: List.replicate 5 .tg

/-- The chat gets another position in the main list. -/
def setOrder (chatId order : Int) : List Label :=
  .update (.updateChatPosition chatId ⟨.chatListMain, order⟩) :: List.replicate 4 .tg

end System
end Chatcurse

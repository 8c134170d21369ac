import Chatcurse.Client

/-!
# The two threads

The UI thread's loop (`src/chatcurse.cc`) and the Telegram thread's handlers (`src/tg.cc`) taking
turns. The UI thread processes a key in one step and then makes its calls one at a time; each of
these takes its mutex for as long as it lasts, and waits while the other thread holds it. The
Telegram thread runs a handler one write at a time, so that keys, which lock nothing, come between
them too. An answer to a `getChatHistory` query reaches the handler of that query (`Query`).
-/

namespace Chatcurse

/-- `_id_chatboxes` and `_id_messages` -/
inductive Mutex where
  | chatboxes
  | messages
  deriving DecidableEq

/-- What a handler of the Telegram thread does in one step. -/
inductive TgAction where
  | lock (m : Mutex)
  | unlock (m : Mutex)
  | addToList (listId chatId : Int)
  | updatePosition (chatId : Int) (u : ChatPosition)
  | setChat (chat : Chat)
  | setLastMessage (chatId : Int) (m : Option Message)
  | emplace (chatId : Int) (m : Option Message)
  | push (e : Event)
  deriving DecidableEq

namespace TgAction

/-- The write of an action; locking and unlocking write nothing here. -/
def run (c : Client) : TgAction → Option Client
  | lock _ | unlock _ => some c
  | addToList listId chatId => some { c with store := c.store.addToList listId chatId }
  | updatePosition chatId u => some { c with store := c.store.updatePosition chatId u }
  | setChat chat => some { c with store := c.store.setChat chat }
  | setLastMessage chatId m => (c.store.setLastMessage chatId m).map ({ c with store := · })
  | emplace chatId m => (emplaceMessage c.messages chatId m).map ({ c with messages := · })
  | push e => some { c with eventQueue := c.eventQueue.push e }

end TgAction

/-- The steps of the handlers under `process_update`. -/
def Update.program : Update → List TgAction
  | updateNewChat chat =>
    .lock .chatboxes :: chat.chatLists.map (.addToList ·.getId chat.id) ++
      chat.positions.map (.updatePosition chat.id) ++
      [.push .eventChatlist, .setChat chat, .unlock .chatboxes]
  | updateChatAddedToList chatId chatList =>
    [.lock .chatboxes, .addToList chatList.getId chatId, .push .eventChatlist, .unlock .chatboxes]
  | updateChatPosition chatId position =>
    [.lock .chatboxes, .updatePosition chatId position, .push .eventChatlist, .unlock .chatboxes]
  | updateChatLastMessage chatId lastMessage positions =>
    .lock .chatboxes :: .setLastMessage chatId lastMessage ::
      positions.map (.updatePosition chatId) ++ [.push .eventChatlist, .unlock .chatboxes]

/-- The steps of the handler of a `getChatHistory` query under `process_response`. -/
def Answer.program : Answer → Option (List TgAction)
  | .other => some []
  | .messages received =>
    if received.totalCount = 0 then some []
    else match received.messages with
      | some m :: _ => some (.lock .messages :: received.messages.map (.emplace m.chatId) ++
          [.push (.eventMessages m.chatId), .unlock .messages])
      | _ => none

structure System where
  client : Client
  /-- The calls the UI thread has still to make before its next key. -/
  ui : List Call
  /-- What the running handler of the Telegram thread has still to do. -/
  tg : List TgAction
  /-- The mutexes the running handler holds. -/
  held : Mutex → Bool
  /-- The chats whose history is requested and not yet received. -/
  outstanding : List Int

inductive Label where
  /-- The UI thread enters its loop with this key. -/
  | input (k : Client.Key)
  /-- The UI thread makes its next call. -/
  | ui
  /-- The Telegram thread receives an update. -/
  | update (u : Update)
  /-- The Telegram thread receives the answer to an outstanding request. -/
  | answer (i : Nat) (a : Answer)
  /-- The Telegram thread takes the next step of its handler. -/
  | tg

namespace System

/-- `init_layout` draws; the updates that came before are steps before these calls. -/
def init (s : Screen) : System := ⟨.init s, [.drawMain, .drawSide], [], fun _ => false, []⟩

/-- `pop_and_get` and the switch over what it returned. -/
def popAndProcess (c : Client) : Option (Client × List Call) :=
  c.eventQueue.popAndGet.bind fun (q, toUpdate) =>
    let c := { c with eventQueue := q }
    match toUpdate with
    | some e => c.processEvent e
    | none => some (c, [])

/-- The UI thread makes a call, and has `rest` to make after it. -/
def call (s : System) (rest : List Call) : Call → Option System
  | .drawSide =>
    if s.held .chatboxes then none else s.client.drawSide.map fun _ => { s with ui := rest }
  | .drawMain =>
    if s.held .messages then none else s.client.drawMain.map fun _ => { s with ui := rest }
  | .getChatHistory chatId =>
    if s.held .messages then none
    else some { s with ui := rest, outstanding := s.outstanding ++ [chatId] }
  | .popAndGet => (popAndProcess s.client).map fun r => { s with client := r.1, ui := r.2 ++ rest }

def hold (s : System) (m : Mutex) (b : Bool) : System :=
  { s with held := Function.update s.held m b }

/-- The Telegram thread takes a step, and has `rest` to take after it. -/
def act (s : System) (rest : List TgAction) (a : TgAction) : Option System :=
  (a.run s.client).bind fun c =>
    let s' := { s with client := c, tg := rest }
    match a with
    | .lock m => if s.held m then none else some (s'.hold m true)
    | .unlock m => some (s'.hold m false)
    | _ => some s'

def step (s : System) : Label → Option System
  | .input k =>
    if s.client.cont ∧ s.ui = [] then
      (s.client.processInput k).map fun r =>
        { s with client := r.1, ui := r.2 ++ [.popAndGet] }
    else none
  | .ui => match s.ui with
    | [] => none
    | c :: rest => s.call rest c
  | .update u => if s.tg = [] then some { s with tg := u.program } else none
  | .answer i a =>
    if s.tg = [] ∧ i < s.outstanding.length then
      a.program.map fun p => { s with tg := p, outstanding := s.outstanding.eraseIdx i }
    else none
  | .tg => match s.tg with
    | [] => none
    | a :: rest => s.act rest a

end System

/-! ## The handlers as they are written -/

/-- A handler from its first step to its last, with nothing in between. -/
def runAll (c : Client) : List TgAction → Option Client
  | [] => some c
  | a :: as => (a.run c).bind fun c => runAll c as

end Chatcurse

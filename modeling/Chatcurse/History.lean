import Chatcurse.Td
import Chatcurse.EventQueue
import Chatcurse.Theory.OrdSet

/-!
# The history store

`tl_app_state_struct::messages` with its comparator (`src/global.h`), the handler of a
`getChatHistory` answer (`src/tg.cc`) and a client that has such requests outstanding.
-/

namespace Chatcurse

/-- `cmp_msg_reverse_chrono` -/
def Newer (m₁ m₂ : Message) : Prop := m₁.date > m₂.date

instance : DecidableRel Newer := fun _ _ => inferInstanceAs (Decidable (_ > _))

instance : IsTrans Message Newer := ⟨fun _ _ _ h₁ h₂ => Int.lt_trans h₂ h₁⟩

instance : Std.Irrefl Newer := ⟨fun _ h => Int.lt_irrefl _ h⟩

abbrev MessageSet := OrdSet Newer

/-- chat id -> messages, newest first -/
abbrev MessageStore := Int → MessageSet

/-- `messages[chat_id].emplace(…)`; the comparator dereferences a null message. -/
def emplaceMessage (messages : MessageStore) (chatId : Int) (m : Option Message) :
    Option MessageStore :=
  m.map fun m => Function.update messages chatId ((messages chatId).insert m)

def emplaceMessages (messages : MessageStore) (chatId : Int) :
    List (Option Message) → Option MessageStore
  | [] => some messages
  | m :: ms => (emplaceMessage messages chatId m).bind fun messages =>
    emplaceMessages messages chatId ms

/-- `TgClient::process_get_chat_history`, with the event it pushes. Reading the chat of the first
message is undefined when there is none or it is null. -/
def processGetChatHistory (messages : MessageStore) (received : Messages) :
    Option (MessageStore × Option Event) :=
  if received.totalCount = 0 then some (messages, none)
  else match received.messages with
    | some m :: _ => (emplaceMessages messages m.chatId received.messages).map
        fun messages => (messages, some (.eventMessages m.chatId))
    | _ => none

/-- What the handler of a `getChatHistory` query is called with: `messages`, or an object of
another class (an error), which it ignores. -/
inductive Answer where
  | messages (received : Messages)
  | other
  deriving DecidableEq

/-- The store and the chats whose history is requested and not yet received. -/
structure History where
  messages : MessageStore
  outstanding : List Int

inductive HistoryEvent where
  /-- `TgClient::get_chat_history` -/
  | request (chatId : Int)
  /-- The answer to an outstanding request, by its place among them. -/
  | answer (i : Nat) (a : Answer)
  deriving DecidableEq

namespace History

def empty : History := ⟨fun _ => ∅, []⟩

def step (h : History) : HistoryEvent → Option History
  | .request chatId => some { h with outstanding := h.outstanding ++ [chatId] }
  | .answer i a =>
    if i < h.outstanding.length then
      match a with
      | .messages received => (processGetChatHistory h.messages received).map
          fun r => ⟨r.1, h.outstanding.eraseIdx i⟩
      | .other => some { h with outstanding := h.outstanding.eraseIdx i }
    else none

end History
end Chatcurse

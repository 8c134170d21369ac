/-!
# TDLib objects

The TDLib objects the client reads, with the fields it uses and the constructor identifiers of the
chat lists (`lib/td/td/generate/scheme/td_api.tl`; `get_id` of a generated class is the CRC32 of its
line in the scheme). A C++ `int32`, `int53` or `int64` that is only stored and compared is an `Int`,
a `std::string` is its bytes, an `object_ptr` that may be null is an `Option`.
-/

namespace Chatcurse

abbrev Bytes := List UInt8

/-- The bytes of an ASCII literal. -/
def ascii (s : String) : Bytes := s.toList.map fun c => c.toNat.toUInt8

inductive ChatList where
  | chatListMain
  | chatListArchive
  | chatListFolder (chatFolderId : Int)
  deriving DecidableEq

/-- The identifier of the constructor; it does not depend on the fields. -/
def ChatList.getId : ChatList → Int
  | .chatListMain => -400991316
  | .chatListArchive => 362770115
  | .chatListFolder _ => 385760856

structure ChatPosition where
  list : ChatList
  order : Int
  deriving DecidableEq

inductive MessageContent where
  | messageText (text : Bytes)
  /-- Any other content, by its constructor identifier. -/
  | other (id : Int)
  deriving DecidableEq

structure Message where
  id : Int
  chatId : Int
  date : Int
  content : MessageContent
  deriving DecidableEq

structure Chat where
  id : Int
  title : Bytes
  lastMessage : Option Message
  positions : List ChatPosition
  chatLists : List ChatList
  deriving DecidableEq

/-- The updates that reach the chat lists. -/
inductive Update where
  | updateNewChat (chat : Chat)
  | updateChatAddedToList (chatId : Int) (chatList : ChatList)
  | updateChatPosition (chatId : Int) (position : ChatPosition)
  | updateChatLastMessage (chatId : Int) (lastMessage : Option Message)
      (positions : List ChatPosition)
  deriving DecidableEq

/-- `messages`, the answer to `getChatHistory`; TDLib allows null messages in it. -/
structure Messages where
  totalCount : Int
  messages : List (Option Message)
  deriving DecidableEq

end Chatcurse

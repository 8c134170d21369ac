import Mathlib.Logic.Function.Basic
import Mathlib.Data.Option.Basic

/-!
# The event queue

`event_queue_struct` (`src/global.h`, `src/global.cc`) and the events of `src/event_types.h`. The
queue reads the type of an event and nothing else of it, so it is stated for any events that have
one. Both calls run under `q_mutex`.
-/

namespace Chatcurse

universe u

/-- `event_base` -/
class EventBase (ε : Type u) where
  type : ε → Int

inductive Event where
  | eventQuit
  | eventResize (sideW compH : Int)
  | eventChatlist
  | eventCyclePanel
  | eventMessages (chatId : Int)
  deriving DecidableEq

namespace Event

def ET_QUIT : Int := 0
def ET_RESIZE : Int := 1
def ET_CHATLIST : Int := 2
def ET_CYCLE_PANEL : Int := 3
def ET_MESSAGES : Int := 4

instance : EventBase Event where
  type
    | eventQuit => ET_QUIT
    | eventResize .. => ET_RESIZE
    | eventChatlist => ET_CHATLIST
    | eventCyclePanel => ET_CYCLE_PANEL
    | eventMessages _ => ET_MESSAGES

end Event

structure EventQueue (ε : Type u) where
  queue : List Int
  eventMap : Int → Option ε

namespace EventQueue
open EventBase

variable {ε : Type u} [EventBase ε]

def empty : EventQueue ε := ⟨[], fun _ => none⟩

def push (q : EventQueue ε) (e : ε) : EventQueue ε where
  queue := if q.eventMap (type e) = none then q.queue ++ [type e] else q.queue
  eventMap := Function.update q.eventMap (type e) (some e)

/-- `res_ptr->second` is undefined when `find` returned `end()`. -/
def popAndGet (q : EventQueue ε) : Option (EventQueue ε × Option ε) :=
  match q.queue with
  | [] => some (q, none)
  | front :: queue =>
    match q.eventMap front with
    | none => none
    | some res => some (⟨queue, Function.update q.eventMap front none⟩, some res)

end EventQueue
end Chatcurse

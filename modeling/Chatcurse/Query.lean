import Mathlib.Logic.Function.Basic

/-!
# Queries and their handlers

`TgClient::send_query`, `next_query_id` and `process_response` (`src/tg.cc`, `src/tg.h`), for
handlers of any type, and then a client and TDLib exchanging requests and answers. There a handler
is named by the number of the query it was given with; its own calls of `send_query` are the `send`
events between the answer it is called with and the `handled` that ends the call.
-/

namespace Chatcurse

universe u

/-- The members of `TgClient` that the queries use. -/
structure Queries (H : Type u) where
  currentQueryId : BitVec 64
  handlers : BitVec 64 → Option H

/-- What a `ClientManager::Response` carries: no object when `receive` timed out. -/
inductive ResponseObject where
  | none
  | updateOption
  | other
  deriving DecidableEq

/-- What `process_response` calls with the object. -/
inductive Dispatch (H : Type u) where
  | nothing
  | processUpdate
  | handler (h : H)
  deriving DecidableEq

namespace Queries

variable {H : Type u}

def empty : Queries H := ⟨0, fun _ => none⟩

/-- `next_query_id` returns the incremented counter as an `int32`. -/
def nextQueryId (q : Queries H) : BitVec 32 := (q.currentQueryId + 1).setWidth 32

/-- The `int32` as a key of `handlers_` and as a `RequestId`. -/
def nextRequestId (q : Queries H) : BitVec 64 := q.nextQueryId.signExtend 64

/-- `handlers_.emplace` does nothing on a present key. -/
def emplace (q : Queries H) (id : BitVec 64) (h : H) : Queries H :=
  if q.handlers id = none then { q with handlers := Function.update q.handlers id (some h) } else q

/-- `send_query`, but for the request that it sends under `nextRequestId`. -/
def sendQuery (q : Queries H) (handler : Option H) : Queries H :=
  let q' := { q with currentQueryId := q.currentQueryId + 1 }
  match handler with
  | some h => q'.emplace q.nextRequestId h
  | none => q'

@[simp] theorem emplace_currentQueryId (q : Queries H) (id : BitVec 64) (h : H) :
    (q.emplace id h).currentQueryId = q.currentQueryId := by unfold emplace; split <;> rfl

@[simp] theorem sendQuery_currentQueryId (q : Queries H) (handler : Option H) :
    (q.sendQuery handler).currentQueryId = q.currentQueryId + 1 := by
  cases handler with
  | none => rfl
  | some h => exact emplace_currentQueryId ..

/-- `process_response` up to the call it makes. -/
def processResponse (q : Queries H) (requestId : BitVec 64) (object : ResponseObject) :
    Dispatch H :=
  if object = .none then .nothing
  else if object = .updateOption then .nothing
  else if requestId = 0 then .processUpdate
  else match q.handlers requestId with
    | some h => .handler h
    | none => .nothing

/-- `handlers_.erase(handler)`, after the call. -/
def erase (q : Queries H) (id : BitVec 64) : Queries H :=
  { q with handlers := Function.update q.handlers id none }

end Queries

/-! ## Client and TDLib -/

/-- A query as it was sent. -/
structure Request where
  number : Nat
  id : BitVec 64
  hasHandler : Bool
  deriving DecidableEq

/-- An answer and what `process_response` called with it. -/
structure Answered where
  request : Request
  dispatch : Dispatch Nat
  deriving DecidableEq

structure Exchange where
  queries : Queries Nat
  /-- The requests TDLib has not answered yet. -/
  outstanding : List Request
  /-- The key of the handler that is being called. -/
  running : Option (BitVec 64)
  requests : List Request
  answers : List Answered

inductive ExchangeEvent where
  /-- `send_query` -/
  | send (hasHandler : Bool)
  /-- `process_response` of a response that is no answer -/
  | update (object : ResponseObject)
  /-- `process_response` of the answer to one of the outstanding requests -/
  | answer (i : Nat)
  /-- The handler returns, and is erased. -/
  | handled
  deriving DecidableEq

namespace Exchange

def init : Exchange := ⟨.empty, [], none, [], []⟩

/-- The request the next `send_query` sends. -/
def next (s : Exchange) (hasHandler : Bool) : Request :=
  ⟨s.requests.length, s.queries.nextRequestId, hasHandler⟩

def send (s : Exchange) (hasHandler : Bool) : Exchange :=
  let r := s.next hasHandler
  { s with
    queries := s.queries.sendQuery (if hasHandler then some r.number else none)
    outstanding := s.outstanding ++ [r]
    requests := s.requests ++ [r] }

/-- TDLib answers with an object that is no update. -/
def answer (s : Exchange) (i : Nat) (r : Request) : Exchange :=
  let dispatch := s.queries.processResponse r.id .other
  { s with
    outstanding := s.outstanding.eraseIdx i
    running := match dispatch with
      | .handler _ => some r.id
      | _ => none
    answers := s.answers ++ [⟨r, dispatch⟩] }

/-- `process_response` is not entered while a handler runs. -/
def step (s : Exchange) : ExchangeEvent → Option Exchange
  | .send hasHandler => some (s.send hasHandler)
  | .update _ => if s.running = none then some s else none
  | .answer i => if s.running = none then (s.outstanding[i]?).map (s.answer i) else none
  | .handled => s.running.map fun id => { s with queries := s.queries.erase id, running := none }

end Exchange
end Chatcurse

import Chatcurse.Query
import Chatcurse.Td

/-!
# Authorization

`TgClient::process_auth` with the handler that it gives to its queries, and what calls the two
(`src/tg.cc`, `src/tg.h`). What is typed at a prompt comes with the event that leads to the prompt.
A handler is named by the number of its query, as in `Exchange`, and beside the members of
`TgClient` a state has the history of the calls of `process_auth`.
-/

namespace Chatcurse

inductive AuthorizationState where
  | authorizationStateWaitTdlibParameters
  | authorizationStateWaitPhoneNumber
  | authorizationStateWaitEmailAddress
  | authorizationStateWaitEmailCode
  | authorizationStateWaitCode
  | authorizationStateWaitOtherDeviceConfirmation (link : Bytes)
  | authorizationStateWaitRegistration
  | authorizationStateWaitPassword
  | authorizationStateReady
  | authorizationStateLoggingOut
  | authorizationStateClosing
  | authorizationStateClosed
  deriving DecidableEq

/-- The functions the client sends, with what was typed for them. -/
inductive AuthFunction where
  | getOption
  | setTdlibParameters
  | setAuthenticationPhoneNumber (phoneNumber : Bytes)
  | requestQrCodeAuthentication
  | checkAuthenticationCode (code : Bytes)
  | setAuthenticationEmailAddress (emailAddress : Bytes)
  | checkAuthenticationEmailCode (code : Bytes)
  | registerUser (firstName lastName : Bytes)
  | logOut
  /-- A query of the client that has nothing to do with authorization. -/
  | other
  deriving DecidableEq

/-- A handler: that of `auth_query_handler` with the id it captured, or another. -/
structure AuthHandler where
  query : Nat
  auth : Option Nat
  deriving DecidableEq

/-- A query as it was sent, and what `process_auth` had been called for by then. -/
structure AuthRequest where
  number : Nat
  id : BitVec 64
  function : AuthFunction
  calls : Nat
  state : Option AuthorizationState

/-- A call of `process_auth` from a handler, with the query whose error led to it. -/
structure Rerun where
  request : AuthRequest
  /-- The number of calls before it. -/
  calls : Nat
  state : Option AuthorizationState

structure AuthClient where
  queries : Queries AuthHandler
  authState : Option AuthorizationState
  isAuth : Bool
  needRestart : Bool
  authQueryId : Nat
  /-- The global `logout_next`. -/
  logoutNext : Bool
  /-- The requests TDLib has not answered yet. -/
  outstanding : List AuthRequest
  /-- The key of the handler that is being called. -/
  running : Option (BitVec 64)
  /-- The number of queries this client sent. -/
  sent : Nat
  /-- The number of calls of `process_auth` in this client. -/
  calls : Nat
  reruns : List Rerun

inductive AuthEvent where
  /-- `updateAuthorizationState` -/
  | update (state : AuthorizationState) (typed : Bytes × Bytes)
  /-- The answer to one of the outstanding requests, an error or not. -/
  | answer (i : Nat) (error : Bool) (typed : Bytes × Bytes)
  /-- The handler returns, and is erased. -/
  | handled
  /-- `send_query` outside of `process_auth` -/
  | query (hasHandler : Bool)
  /-- `init_auth` replaces the client. -/
  | restart

namespace AuthClient

/-- `send_query`; a handler comes with the id it captured if it is of `auth_query_handler`. -/
def sendQuery (s : AuthClient) (f : AuthFunction) (handler : Option (Option Nat)) : AuthClient :=
  { s with
    queries := s.queries.sendQuery (handler.map (AuthHandler.mk s.sent))
    outstanding := s.outstanding ++ [⟨s.sent, s.queries.nextRequestId, f, s.calls, s.authState⟩]
    sent := s.sent + 1 }

/-- `TgClient()`, after what was left of another client. -/
def new (logoutNext : Bool) (reruns : List Rerun) : AuthClient :=
  let s : AuthClient :=
    { queries := .empty
      authState := none
      isAuth := false
      needRestart := false
      authQueryId := 0
      logoutNext := logoutNext
      outstanding := []
      running := none
      sent := 0
      calls := 0
      reruns := reruns }
  s.sendQuery .getOption none

/-- A prompt for what the state waits for, and the query with it. -/
def prompt (s : AuthClient) (f : AuthFunction) : AuthClient :=
  { s with logoutNext := false }.sendQuery f (some (some s.authQueryId))

/-- `process_auth` reads a null pointer before the first update. -/
def processAuth (s : AuthClient) (typed : Bytes × Bytes) : Option AuthClient :=
  let s := { s with authQueryId := s.authQueryId + 1, calls := s.calls + 1 }
  s.authState.map fun
    | .authorizationStateWaitTdlibParameters =>
      s.sendQuery .setTdlibParameters (some (some s.authQueryId))
    | .authorizationStateWaitPhoneNumber =>
      if typed.1 ≠ ascii "0" then s.prompt (.setAuthenticationPhoneNumber typed.1)
      else s.prompt .requestQrCodeAuthentication
    | .authorizationStateWaitCode => s.prompt (.checkAuthenticationCode typed.1)
    | .authorizationStateReady =>
      if s.logoutNext then { s with logoutNext := false }.sendQuery .logOut none
      else { s with isAuth := true }
    | .authorizationStateWaitEmailAddress => s.prompt (.setAuthenticationEmailAddress typed.1)
    | .authorizationStateWaitEmailCode => s.prompt (.checkAuthenticationEmailCode typed.1)
    | .authorizationStateWaitRegistration => s.prompt (.registerUser typed.1 typed.2)
    | .authorizationStateWaitOtherDeviceConfirmation _ => { s with logoutNext := false }
    | .authorizationStateLoggingOut => { s with isAuth := false }
    | .authorizationStateClosing => s
    | .authorizationStateClosed => { s with isAuth := false, needRestart := true }
    | .authorizationStateWaitPassword => s

/-- `process_response` of an answer, up to the return of the handler that it calls. -/
def answer (s : AuthClient) (i : Nat) (r : AuthRequest) (error : Bool) (typed : Bytes × Bytes) :
    Option AuthClient :=
  let s := { s with outstanding := s.outstanding.eraseIdx i }
  match s.queries.processResponse r.id .other with
  | .handler h =>
    let s := { s with running := some r.id }
    if h.auth = some s.authQueryId ∧ error then
      AuthClient.processAuth { s with reruns := s.reruns ++ [⟨r, s.calls, s.authState⟩] } typed
    else some s
  | .nothing | .processUpdate => some s

/-- `process_response` is not entered while a handler runs. -/
def step (s : AuthClient) : AuthEvent → Option AuthClient
  | .update state typed =>
    if s.running = none then { s with authState := some state }.processAuth typed else none
  | .answer i error typed =>
    if s.running = none then (s.outstanding[i]?).bind fun r => s.answer i r error typed else none
  | .handled => s.running.map fun id => { s with queries := s.queries.erase id, running := none }
  | .query hasHandler => some (s.sendQuery .other (if hasHandler then some none else none))
  | .restart =>
    if s.needRestart ∧ s.running = none then some (new s.logoutNext s.reruns) else none

end AuthClient
end Chatcurse

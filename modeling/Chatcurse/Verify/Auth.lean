import Chatcurse.Auth
import Chatcurse.Verify.Query

/-!
# Stale authorization answers

Each call of `process_auth` takes a new `auth_query_id_`, and a handler goes by the one it captured.
What an error answer goes by is its request id, and these come back after 2^32 queries. So answers
that are late are ignored as long as none of them finds the handler of a later authorization query:
`always_sound_iff` says that this is exactly what a client needs, and `guarded_own_of_sent_lt` that
it has it while ids do not come back.
-/

namespace Chatcurse

/-- Nothing else called `process_auth` after the query was sent, and the state is still the one the
query was for. -/
def Rerun.Timely (x : Rerun) : Prop :=
  x.calls = x.request.calls ∧ x.state = x.request.state

namespace AuthClient

open Exchange (requestId)

/-- What a client relies on. -/
structure Sound (s : AuthClient) : Prop where
  /-- At most one pending handler is current. -/
  unique : ∀ k k' h h', s.queries.handlers k = some h → s.queries.handlers k' = some h' →
    h.auth = some s.authQueryId → h'.auth = some s.authQueryId → k = k'
  timely : ∀ x ∈ s.reruns, x.Timely

/-- If the answer is an error and the handler under its id is current, then that is not the handler
of a later query. -/
def Own (s : AuthClient) : AuthEvent → Prop
  | .answer i true _ => ∀ r ∈ s.outstanding[i]?, r.id ≠ 0 → ∀ h ∈ s.queries.handlers r.id,
    h.auth = some s.authQueryId → h.query ≤ r.number
  | _ => True

/-- What holds of the counters in every run. -/
structure Inv (s : AuthClient) : Prop where
  numbered : s.queries.currentQueryId = BitVec.ofNat 64 s.sent
  counted : s.authQueryId = s.calls
  request : ∀ r ∈ s.outstanding, r.number < s.sent ∧ r.calls ≤ s.calls
  request_id : ∀ r ∈ s.outstanding, r.id = requestId r.number
  current : ∀ r ∈ s.outstanding, r.calls = s.calls → r.state = s.authState
  registered : ∀ k h, s.queries.handlers k = some h →
    h.query < s.sent ∧ ∀ c, h.auth = some c → c ≤ s.calls
  registered_id : ∀ k h, s.queries.handlers k = some h → k = requestId h.query
  /-- The calls of `process_auth` are in the order of the queries. -/
  order : ∀ r ∈ s.outstanding, ∀ k h c, s.queries.handlers k = some h → h.auth = some c →
    (h.query ≤ r.number ↔ c ≤ r.calls)
  unique : ∀ k k' h h', s.queries.handlers k = some h → s.queries.handlers k' = some h' →
    h.auth = some s.calls → h'.auth = some s.calls → k = k'

/-- Nothing was sent since the last call of `process_auth`. -/
structure Advanced (s : AuthClient) : Prop where
  request : ∀ r ∈ s.outstanding, r.calls < s.calls
  registered : ∀ k h c, s.queries.handlers k = some h → h.auth = some c → c < s.calls

/-! ### Sending -/

theorem mem_sendQuery_outstanding {s : AuthClient} : r ∈ (s.sendQuery f handler).outstanding ↔
    r ∈ s.outstanding ∨ r = ⟨s.sent, s.queries.nextRequestId, f, s.calls, s.authState⟩ := by
  simp [sendQuery]

theorem sendQuery_handlers {s : AuthClient}
    (hk : (s.sendQuery f handler).queries.handlers k = some h) : s.queries.handlers k = some h ∨
      k = s.queries.nextRequestId ∧ h.query = s.sent ∧ handler = some h.auth := by
  apply (Queries.handlers_of_sendQuery hk).imp_right
  rintro ⟨rfl, hh⟩
  obtain ⟨auth, hauth, rfl⟩ := Option.map_eq_some_iff.mp hh
  exact ⟨rfl, rfl, hauth⟩

/-- A query with a handler of `auth_query_handler` is the first since `process_auth` was called. -/
theorem Inv.sendQuery {s : AuthClient} {handler : Option (Option Nat)}
    (hi : s.Inv) (hadv : ∀ c, handler = some (some c) → c = s.calls ∧ s.Advanced) :
    (s.sendQuery f handler).Inv := by
  constructor
  case numbered =>
    have hcur : (s.sendQuery f handler).queries.currentQueryId = s.queries.currentQueryId + 1 :=
      Queries.sendQuery_currentQueryId ..
    have hsent : (s.sendQuery f handler).sent = s.sent + 1 := rfl
    rw [hcur, hi.numbered, hsent, BitVec.ofNat_add]
    rfl
  case counted => exact hi.counted
  case request =>
    intro r hr
    change r.number < s.sent + 1 ∧ r.calls ≤ s.calls
    rcases mem_sendQuery_outstanding.mp hr with hr | rfl
    · obtain ⟨hnum, hcalls⟩ := hi.request r hr
      exact ⟨by omega, hcalls⟩
    · exact ⟨Nat.lt_succ_self _, Nat.le_refl _⟩
  case request_id =>
    intro r hr
    rcases mem_sendQuery_outstanding.mp hr with hr | rfl
    · exact hi.request_id r hr
    · exact Exchange.nextRequestId_eq hi.numbered
  case current =>
    intro r hr hcalls
    rcases mem_sendQuery_outstanding.mp hr with hr | rfl
    · exact hi.current r hr hcalls
    · rfl
  case registered =>
    intro k h hk
    change h.query < s.sent + 1 ∧ ∀ c, h.auth = some c → c ≤ s.calls
    rcases sendQuery_handlers hk with hk | ⟨rfl, hq, hauth⟩
    · obtain ⟨hlt, hle⟩ := hi.registered k h hk
      exact ⟨by omega, hle⟩
    · refine ⟨by omega, fun c hc => ?_⟩
      rw [hc] at hauth
      exact Nat.le_of_eq (hadv c hauth).1
  case registered_id =>
    intro k h hk
    rcases sendQuery_handlers hk with hk | ⟨rfl, hq, -⟩
    · exact hi.registered_id k h hk
    · rw [hq]
      exact Exchange.nextRequestId_eq hi.numbered
  case order =>
    intro r hr k h c hk hc
    rcases sendQuery_handlers hk with hk | ⟨rfl, hq, hauth⟩
    · rcases mem_sendQuery_outstanding.mp hr with hr | rfl
      · exact hi.order r hr k h c hk hc
      · obtain ⟨hlt, hle⟩ := hi.registered k h hk
        exact iff_of_true (Nat.le_of_lt hlt) (hle c hc)
    · rw [hc] at hauth
      obtain ⟨rfl, ha⟩ := hadv c hauth
      rcases mem_sendQuery_outstanding.mp hr with hr | rfl
      · have hnum := (hi.request r hr).1
        have hcalls := ha.request r hr
        omega
      · exact iff_of_true (Nat.le_of_eq hq) (Nat.le_refl _)
  case unique =>
    -- Two current handlers cannot be one from before and the new one.
    have hnew : ∀ (h : AuthHandler) k' h', handler = some h.auth → h.auth = some s.calls →
        s.queries.handlers k' = some h' → h'.auth ≠ some s.calls := by
      intro h k' h' hauth hc hk' hc'
      rw [hc] at hauth
      exact Nat.lt_irrefl _ ((hadv s.calls hauth).2.registered k' h' s.calls hk' hc')
    intro k k' h h' hk hk' hc hc'
    rcases sendQuery_handlers hk with hk | ⟨rfl, -, hauth⟩ <;>
      rcases sendQuery_handlers hk' with hk' | ⟨rfl, -, hauth'⟩
    · exact hi.unique k k' h h' hk hk' hc hc'
    · exact (hnew h' k h hauth' hc' hk hc).elim
    · exact (hnew h k' h' hauth hc hk' hc').elim
    · rfl

/-! ### `process_auth` -/

/-- The client that `process_auth` sends its query from. -/
def called (s : AuthClient) (logoutNext isAuth needRestart : Bool) : AuthClient :=
  { s with
    authQueryId := s.authQueryId + 1
    calls := s.calls + 1
    logoutNext := logoutNext
    isAuth := isAuth
    needRestart := needRestart }

/-- All that `process_auth` can do. -/
theorem processAuth_cases {s : AuthClient} (h : s.processAuth typed = some s') :
    ∃ logoutNext isAuth needRestart, s' = s.called logoutNext isAuth needRestart ∨
      ∃ f handler, s' = (s.called logoutNext isAuth needRestart).sendQuery f handler ∧
        (handler = none ∨ handler = some (some (s.authQueryId + 1))) := by
  obtain ⟨state, -, rfl⟩ := Option.map_eq_some_iff.mp h
  cases state with
  | authorizationStateWaitTdlibParameters =>
    exact ⟨s.logoutNext, s.isAuth, s.needRestart, .inr ⟨.setTdlibParameters, _, rfl, .inr rfl⟩⟩
  | authorizationStateWaitPhoneNumber =>
    refine ⟨false, s.isAuth, s.needRestart, .inr ?_⟩
    dsimp only
    split
    · exact ⟨.setAuthenticationPhoneNumber typed.1, _, rfl, .inr rfl⟩
    · exact ⟨.requestQrCodeAuthentication, _, rfl, .inr rfl⟩
  | authorizationStateWaitEmailAddress =>
    exact ⟨false, s.isAuth, s.needRestart,
      .inr ⟨.setAuthenticationEmailAddress typed.1, _, rfl, .inr rfl⟩⟩
  | authorizationStateWaitEmailCode =>
    exact ⟨false, s.isAuth, s.needRestart,
      .inr ⟨.checkAuthenticationEmailCode typed.1, _, rfl, .inr rfl⟩⟩
  | authorizationStateWaitCode =>
    exact ⟨false, s.isAuth, s.needRestart,
      .inr ⟨.checkAuthenticationCode typed.1, _, rfl, .inr rfl⟩⟩
  | authorizationStateWaitRegistration =>
    exact ⟨false, s.isAuth, s.needRestart,
      .inr ⟨.registerUser typed.1 typed.2, _, rfl, .inr rfl⟩⟩
  | authorizationStateReady =>
    dsimp only
    split
    · exact ⟨false, s.isAuth, s.needRestart, .inr ⟨.logOut, none, rfl, .inl rfl⟩⟩
    · exact ⟨s.logoutNext, true, s.needRestart, .inl rfl⟩
  | authorizationStateWaitOtherDeviceConfirmation link =>
    exact ⟨false, s.isAuth, s.needRestart, .inl rfl⟩
  | authorizationStateLoggingOut => exact ⟨s.logoutNext, false, s.needRestart, .inl rfl⟩
  | authorizationStateClosing | authorizationStateWaitPassword =>
    exact ⟨s.logoutNext, s.isAuth, s.needRestart, .inl rfl⟩
  | authorizationStateClosed => exact ⟨s.logoutNext, false, true, .inl rfl⟩

theorem exists_processAuth {s : AuthClient} (h : s.authState = some state) :
    ∃ s', s.processAuth typed = some s' := by
  simp only [processAuth, h, Option.map_some]
  exact ⟨_, rfl⟩

theorem processAuth_reruns {s : AuthClient} (h : s.processAuth typed = some s') :
    s'.reruns = s.reruns := by
  obtain ⟨_, _, _, rfl | ⟨_, _, rfl, -⟩⟩ := processAuth_cases h <;> rfl

theorem Inv.called {s : AuthClient} (hi : s.Inv) (state : Option AuthorizationState)
    (logoutNext isAuth needRestart : Bool) :
    let t := AuthClient.called { s with authState := state } logoutNext isAuth needRestart
    t.Inv ∧ t.Advanced := by
  have hreq : ∀ r ∈ s.outstanding, r.calls < s.calls + 1 :=
    fun r hr => Nat.lt_succ_of_le (hi.request r hr).2
  have hreg : ∀ k h c, s.queries.handlers k = some h → h.auth = some c → c < s.calls + 1 :=
    fun k h c hk hc => Nat.lt_succ_of_le ((hi.registered k h hk).2 c hc)
  refine ⟨?_, hreq, hreg⟩
  constructor
  case numbered => exact hi.numbered
  case counted => exact congrArg (· + 1) hi.counted
  case request => exact fun r hr => ⟨(hi.request r hr).1, Nat.le_of_lt (hreq r hr)⟩
  case request_id => exact hi.request_id
  case current => exact fun r hr hcalls => (Nat.ne_of_lt (hreq r hr) hcalls).elim
  case registered =>
    exact fun k h hk => ⟨(hi.registered k h hk).1, fun c hc => Nat.le_of_lt (hreg k h c hk hc)⟩
  case registered_id => exact hi.registered_id
  case order => exact hi.order
  case unique =>
    exact fun k k' h h' hk _ hc _ => (Nat.lt_irrefl _ (hreg k h _ hk hc)).elim

theorem Inv.update {s : AuthClient} (hi : s.Inv) (state : Option AuthorizationState)
    (h : AuthClient.processAuth { s with authState := state } typed = some s') : s'.Inv := by
  obtain ⟨logoutNext, isAuth, needRestart, hs'⟩ := processAuth_cases h
  obtain ⟨hinv, hadv⟩ := hi.called state logoutNext isAuth needRestart
  rcases hs' with rfl | ⟨f, handler, rfl, hhandler⟩
  · exact hinv
  · refine hinv.sendQuery fun c hc => ⟨?_, hadv⟩
    rcases hhandler with rfl | rfl
    · cases hc
    · cases hc
      exact hinv.counted

theorem Inv.processAuth {s : AuthClient} (hi : s.Inv) (h : s.processAuth typed = some s') :
    s'.Inv := hi.update s.authState h

/-! ### Answers -/

/-- Requests that are answered and handlers that are erased leave the rest as it was. -/
theorem Inv.of_subset {s t : AuthClient} (hi : s.Inv) (ho : t.outstanding ⊆ s.outstanding)
    (hh : ∀ k h, t.queries.handlers k = some h → s.queries.handlers k = some h)
    (hcur : t.queries.currentQueryId = s.queries.currentQueryId) (hsent : t.sent = s.sent)
    (hcalls : t.calls = s.calls) (hid : t.authQueryId = s.authQueryId)
    (hstate : t.authState = s.authState) : t.Inv := by
  constructor
  case numbered => rw [hcur, hsent, hi.numbered]
  case counted => rw [hid, hcalls, hi.counted]
  case request =>
    rw [hsent, hcalls]
    exact fun r hr => hi.request r (ho hr)
  case request_id => exact fun r hr => hi.request_id r (ho hr)
  case current =>
    rw [hcalls, hstate]
    exact fun r hr => hi.current r (ho hr)
  case registered =>
    rw [hsent, hcalls]
    exact fun k h hk => hi.registered k h (hh k h hk)
  case registered_id => exact fun k h hk => hi.registered_id k h (hh k h hk)
  case order => exact fun r hr k h c hk => hi.order r (ho hr) k h c (hh k h hk)
  case unique =>
    rw [hcalls]
    exact fun k k' h h' hk hk' => hi.unique k k' h h' (hh k h hk) (hh k' h' hk')

/-- An answer is dropped unless it is an error and finds a current handler. -/
theorem answer_cases {s : AuthClient} (h : s.answer i r error typed = some s') :
    (∃ running, s' = { s with outstanding := s.outstanding.eraseIdx i, running := running } ∧
      (error → r.id ≠ 0 → ∀ h ∈ s.queries.handlers r.id, h.auth ≠ some s.authQueryId)) ∨
    ∃ h, error ∧ r.id ≠ 0 ∧ s.queries.handlers r.id = some h ∧ h.auth = some s.authQueryId ∧
      processAuth { s with
        outstanding := s.outstanding.eraseIdx i
        running := some r.id
        reruns := s.reruns ++ [⟨r, s.calls, s.authState⟩] } typed = some s' := by
  simp only [answer, Queries.processResponse, reduceCtorEq, if_false] at h
  by_cases hid : r.id = 0
  · simp only [if_pos hid] at h
    cases h
    exact .inl ⟨s.running, rfl, fun _ hne => (hne hid).elim⟩
  simp only [if_neg hid] at h
  cases hr : s.queries.handlers r.id with
  | none =>
    simp only [hr] at h
    cases h
    exact .inl ⟨s.running, rfl, fun _ _ h hmem => by cases hmem⟩
  | some handler =>
    simp only [hr] at h
    split at h
    next hc => exact .inr ⟨handler, hc.2, hid, rfl, hc.1, h⟩
    next hc =>
      cases h
      refine .inl ⟨some r.id, rfl, fun he _ h hmem ha => ?_⟩
      cases hmem
      exact hc ⟨ha, he⟩

theorem new_inv (logoutNext : Bool) (reruns : List Rerun) : (new logoutNext reruns).Inv := by
  unfold new
  apply Inv.sendQuery
  · constructor <;> simp [Queries.empty]
  · intro c hc
    cases hc

theorem Inv.answer {s : AuthClient} (hi : s.Inv) (h : s.answer i r error typed = some s') :
    s'.Inv := by
  have hsub : s.outstanding.eraseIdx i ⊆ s.outstanding := fun r hr => List.mem_of_mem_eraseIdx hr
  rcases answer_cases h with ⟨running, rfl, -⟩ | ⟨handler, -, -, -, -, hp⟩
  · exact hi.of_subset hsub (fun _ _ hk => hk) rfl rfl rfl rfl rfl
  · refine Inv.processAuth ?_ hp
    exact hi.of_subset hsub (fun _ _ hk => hk) rfl rfl rfl rfl rfl

theorem handlers_of_erase {q : Queries AuthHandler} (hk : (q.erase key).handlers k = some h) :
    q.handlers k = some h := by
  simp only [Queries.erase, Function.update_apply] at hk
  split at hk
  · cases hk
  · exact hk

theorem Inv.step {s : AuthClient} (hi : s.Inv) (hs : s.step e = some s') : s'.Inv := by
  cases e with
  | update state typed =>
    obtain ⟨-, h⟩ := Option.ite_none_right_eq_some.mp hs
    exact hi.update (some state) h
  | answer i error typed =>
    obtain ⟨-, h⟩ := Option.ite_none_right_eq_some.mp hs
    obtain ⟨r, -, h⟩ := Option.bind_eq_some_iff.mp h
    exact hi.answer h
  | handled =>
    obtain ⟨key, -, rfl⟩ := Option.map_eq_some_iff.mp hs
    exact hi.of_subset (List.Subset.refl _) (fun _ _ hk => handlers_of_erase hk) rfl rfl rfl rfl rfl
  | query hasHandler =>
    cases hs
    refine hi.sendQuery fun c hc => ?_
    split at hc <;> cases hc
  | restart =>
    obtain ⟨-, heq⟩ := Option.ite_none_right_eq_some.mp hs
    cases heq
    exact new_inv ..

/-! ### Who calls `process_auth` -/

/-- The handler is that of a query no later than the one answered just if nothing happened since. -/
theorem Inv.timely_iff {s : AuthClient} (hi : s.Inv) (hr : r ∈ s.outstanding)
    (hh : s.queries.handlers r.id = some h) (ha : h.auth = some s.authQueryId) :
    Rerun.Timely ⟨r, s.calls, s.authState⟩ ↔ h.query ≤ r.number := by
  rw [hi.order r hr r.id h _ hh ha, hi.counted]
  constructor
  · rintro ⟨hcalls, -⟩
    exact Nat.le_of_eq hcalls
  · intro hle
    have heq : r.calls = s.calls := Nat.le_antisymm (hi.request r hr).2 hle
    exact ⟨heq.symm, (hi.current r hr heq).symm⟩

theorem Inv.answer_timely {s : AuthClient} (hi : s.Inv) (hr : s.outstanding[i]? = some r)
    (h : s.answer i r error typed = some s') (hs : ∀ x ∈ s.reruns, x.Timely) :
    (∀ x ∈ s'.reruns, x.Timely) ↔ s.Own (.answer i error typed) := by
  rcases answer_cases h with ⟨running, rfl, hnone⟩ | ⟨handler, he, hid, hh, ha, hp⟩
  · apply iff_of_true hs
    cases error with
    | false => trivial
    | true =>
      intro r' hr' hid h' hh' ha'
      cases hr.symm.trans hr'
      exact (hnone rfl hid h' hh' ha').elim
  · rw [processAuth_reruns hp]
    cases error with
    | false => cases he
    | true =>
      have hmem : r ∈ s.outstanding := List.mem_of_getElem? hr
      rw [List.forall_mem_append, List.forall_mem_singleton, hi.timely_iff hmem hh ha]
      constructor
      · rintro ⟨-, hle⟩ r' hr' - h' hh' -
        cases hr.symm.trans hr'
        cases hh.symm.trans hh'
        exact hle
      · intro hown
        exact ⟨hs, hown r hr hid handler hh ha⟩

theorem Inv.step_timely {s : AuthClient} (hi : s.Inv) (hs : s.step e = some s')
    (ht : ∀ x ∈ s.reruns, x.Timely) : (∀ x ∈ s'.reruns, x.Timely) ↔ s.Own e := by
  cases e with
  | update state typed =>
    obtain ⟨-, h⟩ := Option.ite_none_right_eq_some.mp hs
    rw [processAuth_reruns h]
    exact iff_of_true ht trivial
  | answer i error typed =>
    obtain ⟨-, h⟩ := Option.ite_none_right_eq_some.mp hs
    obtain ⟨r, hr, h⟩ := Option.bind_eq_some_iff.mp h
    exact hi.answer_timely hr h ht
  | handled =>
    obtain ⟨key, -, rfl⟩ := Option.map_eq_some_iff.mp hs
    exact iff_of_true ht trivial
  | query hasHandler =>
    cases hs
    exact iff_of_true ht trivial
  | restart =>
    obtain ⟨-, heq⟩ := Option.ite_none_right_eq_some.mp hs
    cases heq
    exact iff_of_true ht trivial

theorem Inv.sound_iff {s : AuthClient} (hi : s.Inv) : s.Sound ↔ ∀ x ∈ s.reruns, x.Timely := by
  refine ⟨Sound.timely, fun ht => ⟨?_, ht⟩⟩
  rw [hi.counted]
  exact hi.unique

theorem always_inv (logoutNext : Bool) (es : List AuthEvent) :
    Run.Always step Inv (new logoutNext []) es :=
  .of_inv (fun _ _ _ hi hs => hi.step hs) (new_inv logoutNext [])

/-- **Late answers are ignored** just as long as each error answer finds, if the handler that is
current, the one of its own query. -/
theorem always_sound_iff (logoutNext : Bool) (es : List AuthEvent) :
    Run.Always step Sound (new logoutNext []) es ↔ Run.Guarded step Own (new logoutNext []) es := by
  have hiff : ∀ (s : AuthClient) e s', s.Inv ∧ s.Sound → s.step e = some s' →
      (s'.Inv ∧ s'.Sound ↔ s.Own e) := by
    rintro s e s' ⟨hi, hsound⟩ hs
    have hi' : s'.Inv := hi.step hs
    rw [and_iff_right hi', hi'.sound_iff]
    exact hi.step_timely hs hsound.timely
  have hnew : (new logoutNext []).Sound :=
    (new_inv logoutNext []).sound_iff.mpr (List.forall_mem_nil _)
  rw [← Run.always_iff_guarded hiff ⟨new_inv logoutNext [], hnew⟩]
  exact ⟨(always_inv logoutNext es).and, fun h => h.mono fun _ => And.right⟩

/-! ### Ids that come back -/

theorem Inv.own_of_sent_lt {s : AuthClient} (hi : s.Inv) (hlt : s.sent < 2 ^ 32) (e : AuthEvent) :
    s.Own e := by
  cases e with
  | answer i error typed =>
    cases error with
    | false => trivial
    | true =>
      intro r hr _ h hh _
      have hmem : r ∈ s.outstanding := List.mem_of_getElem? hr
      have hnum : r.number < s.sent := (hi.request r hmem).1
      have hquery : h.query < s.sent := (hi.registered r.id h hh).1
      have hid : requestId h.query = requestId r.number := by
        rw [← hi.registered_id r.id h hh, hi.request_id r hmem]
      exact Nat.le_of_eq (Exchange.requestId_injective (by omega) (by omega) hid)
  | update | handled | query | restart => trivial

/-- Clients that send fewer than 2^32 queries each ignore late answers. -/
theorem guarded_own_of_sent_lt (h : Run.Always step (·.sent < 2 ^ 32) (new logout []) es) :
    Run.Guarded step Own (new logout []) es :=
  ((always_inv logout es).and h).guarded fun _ e hs => hs.1.own_of_sent_lt hs.2 e

/-- A client whose `logOut` is not answered yet has asked for this many codes since. -/
structure Waited (n : Nat) (s : AuthClient) : Prop where
  inv : s.Inv
  running : s.running = none
  sent : s.sent = n + 2
  calls : s.calls = n + 1
  state : ∃ state, s.authState = some state
  logOut : s.outstanding[1]? = some ⟨1, requestId 1, .logOut, 1, some .authorizationStateReady⟩
  later : ∀ k h, s.queries.handlers k = some h → 2 ≤ h.query
  reruns : s.reruns = []

def waitCode : AuthEvent := .update .authorizationStateWaitCode ([], [])

/-- The client after another prompt for a code. -/
def askCode (s : AuthClient) : AuthClient :=
  (called { s with authState := some .authorizationStateWaitCode } false s.isAuth
    s.needRestart).sendQuery (.checkAuthenticationCode []) (some (some (s.authQueryId + 1)))

theorem step_waitCode {s : AuthClient} (hrun : s.running = none) :
    s.step waitCode = some s.askCode := if_pos hrun

theorem Waited.askCode {s : AuthClient} (hw : Waited n s) : Waited (n + 1) s.askCode where
  inv := hw.inv.step (step_waitCode hw.running)
  running := hw.running
  sent := congrArg (· + 1) hw.sent
  calls := congrArg (· + 1) hw.calls
  state := ⟨_, rfl⟩
  logOut := by
    obtain ⟨hlt, -⟩ := List.getElem?_eq_some_iff.mp hw.logOut
    exact (List.getElem?_append_left hlt).trans hw.logOut
  later := by
    intro k h hk
    rcases sendQuery_handlers hk with hk | ⟨-, hq, -⟩
    · exact hw.later k h hk
    · have hsent := hw.sent
      rw [hq]
      exact hsent ▸ Nat.le_add_left 2 n
  reruns := hw.reruns

theorem exec_waits (n : Nat) : ∃ s, Run.exec step (new true [])
    (.update .authorizationStateReady ([], []) :: List.replicate n waitCode) = some s ∧
      Waited n s := by
  induction n with
  | zero =>
    refine ⟨_, rfl, ?_⟩
    constructor
    case inv => exact (new_inv true []).step (e := .update .authorizationStateReady ([], [])) rfl
    case later =>
      intro k h hk
      cases hk
    case state => exact ⟨_, rfl⟩
    all_goals rfl
  | succ n ih =>
    obtain ⟨s, hs, hw⟩ := ih
    refine ⟨s.askCode, ?_, hw.askCode⟩
    rw [List.replicate_succ', ← List.cons_append, Run.exec_concat, hs]
    exact step_waitCode hw.running

/-- The 2^32-th prompt for a code has the id of the `logOut`. -/
theorem Waited.askCode_handlers {s : AuthClient} (hw : Waited (2 ^ 32 - 1) s) :
    s.askCode.queries.handlers (requestId 1) = some ⟨2 ^ 32 + 1, some s.askCode.authQueryId⟩ := by
  have hsent : s.sent = 2 ^ 32 + 1 := hw.sent
  have hkey : s.queries.nextRequestId = requestId 1 := by
    rw [Exchange.nextRequestId_eq hw.inv.numbered, hsent]
    decide
  have hfree : s.queries.handlers (requestId 1) = none := by
    by_contra hc
    obtain ⟨h, hh⟩ := Option.ne_none_iff_exists'.mp hc
    have hlt := (hw.inv.registered _ h hh).1
    have hle := hw.later _ h hh
    have hmod := Exchange.requestId_toNat_mod h.query
    rw [← hw.inv.registered_id _ h hh, Exchange.requestId_toNat_mod] at hmod
    omega
  rw [← hsent, ← hkey]
  exact Queries.sendQuery_handlers_self (hkey ▸ hfree) _

/-- The error for the `logOut` prompts for a code once more. -/
theorem late_not_sound :
    ∃ s, Run.exec step (new true []) (.update .authorizationStateReady ([], []) ::
      List.replicate (2 ^ 32) waitCode ++ [.answer 1 true ([], [])]) = some s ∧ ¬s.Sound := by
  obtain ⟨s, hs, hw⟩ := exec_waits (2 ^ 32 - 1)
  have hlate : Waited (2 ^ 32 - 1 + 1) s.askCode := hw.askCode
  obtain ⟨state, hstate⟩ := hlate.state
  obtain ⟨t, ht⟩ : ∃ t, s.askCode.step (.answer 1 true ([], [])) = some t := by
    have hid : requestId 1 ≠ 0 := by decide
    simp only [step, hlate.running, hlate.logOut, Option.bind_some, answer, Queries.processResponse,
      hw.askCode_handlers, if_true, reduceCtorEq, if_false, if_neg hid, and_self]
    exact exists_processAuth hstate
  refine ⟨t, ?_, fun hsound => ?_⟩
  · have hpow : 2 ^ 32 = (2 ^ 32 - 1) + 1 := by decide
    rw [Run.exec_concat, hpow, List.replicate_succ', ← List.cons_append, Run.exec_concat, hs,
      Option.bind_some, step_waitCode hw.running]
    exact ht
  · have hown : s.askCode.Own (.answer 1 true ([], [])) :=
      (hlate.inv.step_timely ht (by simp [hlate.reruns])).mp hsound.timely
    have hle : 2 ^ 32 + 1 ≤ 1 := hown _ hlate.logOut (by decide) _ hw.askCode_handlers rfl
    omega

end AuthClient
end Chatcurse

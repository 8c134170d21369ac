import Chatcurse.Query
import Chatcurse.Theory.Run
import Mathlib.Algebra.Group.Nat.Defs
import Mathlib.Data.List.Pairwise
import Mathlib.Data.List.Perm.Basic

/-!
# Answers reach the handlers they are for

The counter of the queries has 64 bits, but its `int32` value is what handlers and requests go by.
Ids therefore come back after 2^32 queries, and one of these has id 0. What a client needs is that
each id is `Fresh` when it is sent: then every answer reaches its handler (`faithful_of_fresh`).
Every id is fresh in a run of fewer than 2^32 queries (`guarded_fresh_of_lt`); the 2^32-th query is
sent with id 0 whatever happened before (`wrapped_not_faithful`).
-/

namespace Chatcurse

/-- A handler was registered before, or it is the one the query is sent with. -/
theorem Queries.handlers_of_sendQuery {H : Type u} {q : Queries H} {handler : Option H} {h : H}
    (hk : (q.sendQuery handler).handlers k = some h) :
    q.handlers k = some h ∨ k = q.nextRequestId ∧ handler = some h := by
  cases handler with
  | none => exact .inl hk
  | some h' =>
    simp only [Queries.sendQuery, Queries.emplace] at hk
    split at hk
    · simp only [Function.update_apply] at hk
      split at hk
      next heq => exact .inr ⟨heq, hk⟩
      next => exact .inl hk
    · exact .inl hk

theorem Queries.sendQuery_handlers_self {H : Type u} {q : Queries H}
    (hnone : q.handlers q.nextRequestId = none) (h : H) :
    (q.sendQuery (some h)).handlers q.nextRequestId = some h := by
  simp [Queries.sendQuery, Queries.emplace, hnone]

namespace Exchange

/-- What a client relies on. -/
structure Faithful (s : Exchange) : Prop where
  nonzero : ∀ r ∈ s.requests, r.id ≠ 0
  /-- An answer is passed to the handler of its query, or to nothing if there is none. -/
  delivered : ∀ a ∈ s.answers,
    a.dispatch = if a.request.hasHandler then .handler a.request.number else .nothing
  /-- No handler is called twice. -/
  once : (s.answers.map (·.dispatch)).Pairwise fun d e => ∀ n, d = .handler n → e ≠ .handler n
  /-- The handler of a query that is not answered yet is registered. -/
  registered : ∀ r ∈ s.outstanding, r.hasHandler → s.queries.handlers r.id = some r.number

/-- The id is not 0, no handler is registered under it, and an unanswered query of this id matters
only where one of the two has a handler. -/
def Fresh (s : Exchange) : ExchangeEvent → Prop
  | .send hasHandler => (s.next hasHandler).id ≠ 0 ∧
    (hasHandler → s.queries.handlers (s.next hasHandler).id = none) ∧
    ∀ r ∈ s.outstanding, r.id = (s.next hasHandler).id → ¬r.hasHandler ∧ ¬hasHandler
  | _ => True

instance (s : Exchange) : ∀ e, Decidable (s.Fresh e)
  | .send _ => inferInstanceAs (Decidable (_ ∧ _ ∧ _))
  | .update _ | .answer _ | .handled => inferInstanceAs (Decidable True)

/-- Two queries of one id, neither of which has a handler. -/
def Apart (r r' : Request) : Prop := r.id = r'.id → ¬r.hasHandler ∧ ¬r'.hasHandler

instance : Std.Symm Apart := ⟨fun _ _ h hid => (h hid.symm).symm⟩

/-- The numbers of the queries sent so far, the answered ones last. -/
def numbers (s : Exchange) : List Nat :=
  s.outstanding.map (·.number) ++ s.answers.map (·.request.number)

/-- The invariant of a client all of whose ids are fresh. -/
structure Inv (s : Exchange) : Prop where
  nonzero : ∀ r ∈ s.requests, r.id ≠ 0
  registered : ∀ r ∈ s.outstanding, r.hasHandler → s.queries.handlers r.id = some r.number
  owned : ∀ id, s.queries.handlers id ≠ none →
    s.running = some id ∨ ∃ r ∈ s.outstanding, r.id = id ∧ r.hasHandler
  running : ∀ id, s.running = some id → s.queries.handlers id ≠ none
  /-- What `handled` erases is not the handler of an unanswered query. -/
  spared : ∀ r ∈ s.outstanding, r.hasHandler → s.running ≠ some r.id
  apart : s.outstanding.Pairwise Apart
  delivered : ∀ a ∈ s.answers,
    a.dispatch = if a.request.hasHandler then .handler a.request.number else .nothing
  requested : ∀ r ∈ s.outstanding, r ∈ s.requests
  number_lt : ∀ n ∈ s.numbers, n < s.requests.length
  number_nodup : s.numbers.Nodup

theorem init_inv : init.Inv where
  nonzero := by simp [init]
  registered := by simp [init]
  owned := by simp [init, Queries.empty]
  running := by simp [init]
  spared := by simp [init]
  apart := .nil
  delivered := by simp [init]
  requested := by simp [init]
  number_lt := by simp [init, numbers]
  number_nodup := by simp [init, numbers]

/-! ### Sending -/

theorem mem_send_outstanding {s : Exchange} :
    r ∈ (s.send h).outstanding ↔ r ∈ s.outstanding ∨ r = s.next h := by simp [send]

theorem mem_send_requests {s : Exchange} :
    r ∈ (s.send h).requests ↔ r ∈ s.requests ∨ r = s.next h := by simp [send]

theorem send_numbers (s : Exchange) (h : Bool) :
    (s.send h).numbers.Perm (s.requests.length :: s.numbers) := by
  simp only [numbers, send, next, List.map_append, List.append_assoc]
  exact List.perm_middle

/-- The handlers after `send_query` under a fresh id. -/
theorem send_handlers {s : Exchange} (hf : s.Fresh (.send h)) (id : BitVec 64) :
    (s.send h).queries.handlers id =
      if h ∧ id = (s.next h).id then some (s.next h).number else s.queries.handlers id := by
  cases h with
  | false => simp [send, Queries.sendQuery]
  | true =>
    have hnone : s.queries.handlers s.queries.nextRequestId = none := hf.2.1 rfl
    simp [send, Queries.sendQuery, Queries.emplace, hnone, Function.update_apply, next]

theorem Inv.send {s : Exchange} (hi : s.Inv) (hf : s.Fresh (.send h)) : (s.send h).Inv := by
  have hh := send_handlers hf
  obtain ⟨hne, hnone, hap⟩ := hf
  constructor
  case nonzero =>
    intro r hr
    rcases mem_send_requests.mp hr with hr | rfl
    · exact hi.nonzero r hr
    · exact hne
  case registered =>
    intro r hr hrh
    rw [hh]
    rcases mem_send_outstanding.mp hr with hr | rfl
    · rw [if_neg fun hc => (hap r hr hc.2).1 hrh]
      exact hi.registered r hr hrh
    · rw [if_pos ⟨hrh, rfl⟩]
  case owned =>
    intro id hid
    rw [hh] at hid
    split at hid
    next hc => exact .inr ⟨s.next h, mem_send_outstanding.mpr (.inr rfl), hc.2.symm, hc.1⟩
    next hc =>
      apply (hi.owned id hid).imp_right
      rintro ⟨r, hr, hrid, hrh⟩
      exact ⟨r, mem_send_outstanding.mpr (.inl hr), hrid, hrh⟩
  case running =>
    intro id hid
    rw [hh]
    split
    · exact Option.some_ne_none _
    · exact hi.running id hid
  case spared =>
    intro r hr hrh hrun
    rcases mem_send_outstanding.mp hr with hr | rfl
    · exact hi.spared r hr hrh hrun
    · exact hi.running _ hrun (hnone hrh)
  case apart =>
    apply List.pairwise_append.mpr
    refine ⟨hi.apart, List.pairwise_singleton _ _, fun r hr r' hr' => ?_⟩
    rw [List.mem_singleton.mp hr']
    exact hap r hr
  case delivered => exact hi.delivered
  case requested =>
    intro r hr
    apply mem_send_requests.mpr
    exact (mem_send_outstanding.mp hr).imp_left (hi.requested r)
  case number_lt =>
    intro n hn
    have hlen : (s.send h).requests.length = s.requests.length + 1 := by simp [Exchange.send]
    rcases List.mem_cons.mp ((send_numbers s h).mem_iff.mp hn) with rfl | hn
    · omega
    · have hlt := hi.number_lt n hn
      omega
  case number_nodup =>
    apply (send_numbers s h).nodup_iff.mpr
    exact List.nodup_cons.mpr ⟨fun hn => Nat.lt_irrefl _ (hi.number_lt _ hn), hi.number_nodup⟩

/-! ### Answers -/

theorem answer_numbers {s : Exchange} (hr : s.outstanding[i]? = some r) :
    (s.answer i r).numbers.Perm s.numbers := by
  obtain ⟨hlt, rfl⟩ := List.getElem?_eq_some_iff.mp hr
  have hperm := (List.getElem_cons_eraseIdx_perm hlt).map Request.number
  simp only [numbers, answer, List.map_append]
  rw [← List.append_assoc]
  exact (List.perm_append_singleton _ _).trans (hperm.append_right _)

theorem Inv.apart_of_mem_eraseIdx {s : Exchange} (hi : s.Inv) (hr : s.outstanding[i]? = some r)
    (hr' : r' ∈ s.outstanding.eraseIdx i) : Apart r r' := by
  obtain ⟨hlt, rfl⟩ := List.getElem?_eq_some_iff.mp hr
  have hperm := List.getElem_cons_eraseIdx_perm hlt
  have hpair := (hperm.pairwise_iff fun h => Std.Symm.symm _ _ h).mpr hi.apart
  exact List.rel_of_pairwise_cons hpair hr'

/-- What an answer is passed to. -/
theorem Inv.dispatch {s : Exchange} (hi : s.Inv) (hrun : s.running = none)
    (hr : r ∈ s.outstanding) : s.queries.processResponse r.id .other =
      if r.hasHandler then .handler r.number else .nothing := by
  have hne : r.id ≠ 0 := hi.nonzero r (hi.requested r hr)
  simp only [Queries.processResponse, reduceCtorEq, if_false, if_neg hne]
  cases hrh : r.hasHandler with
  | true => rw [hi.registered r hr hrh]; rfl
  | false =>
    have hnone : s.queries.handlers r.id = none := by
      by_contra hc
      rcases hi.owned r.id hc with h | ⟨r', hr', hid, hrh'⟩
      · simp [hrun] at h
      · have hap : Apart r r' := hi.apart.forall hr hr' fun heq => by simp [← heq, hrh] at hrh'
        exact (hap hid.symm).2 hrh'
    rw [hnone]
    rfl

theorem Inv.answer_running {s : Exchange} (hi : s.Inv) (hrun : s.running = none)
    (hr : r ∈ s.outstanding) :
    (s.answer i r).running = if r.hasHandler then some r.id else none := by
  simp only [Exchange.answer, hi.dispatch hrun hr]
  cases r.hasHandler <;> rfl

theorem Inv.answer {s : Exchange} (hi : s.Inv) (hrun : s.running = none)
    (hr : s.outstanding[i]? = some r) : (s.answer i r).Inv := by
  have hmem : r ∈ s.outstanding := List.mem_of_getElem? hr
  have hrunning := hi.answer_running (i := i) hrun hmem
  have hsub : ∀ r' ∈ (s.answer i r).outstanding, r' ∈ s.outstanding :=
    fun r' hr' => List.mem_of_mem_eraseIdx hr'
  constructor
  case nonzero => exact hi.nonzero
  case registered => exact fun r' hr' => hi.registered r' (hsub r' hr')
  case owned =>
    intro id hid
    rcases hi.owned id hid with h | ⟨r', hr', hrid, hrh⟩
    · simp [hrun] at h
    · obtain ⟨hlt, rfl⟩ := List.getElem?_eq_some_iff.mp hr
      rcases List.mem_cons.mp ((List.getElem_cons_eraseIdx_perm hlt).mem_iff.mpr hr') with rfl | hr'
      · rw [hrunning, if_pos hrh, hrid]
        exact .inl rfl
      · exact .inr ⟨r', hr', hrid, hrh⟩
  case running =>
    intro id hid
    rw [hrunning] at hid
    obtain ⟨hrh, hrid⟩ := Option.ite_none_right_eq_some.mp hid
    have hreg : s.queries.handlers r.id = some r.number := hi.registered r hmem hrh
    cases hrid
    exact fun hnone => by simp [Exchange.answer, hreg] at hnone
  case spared =>
    intro r' hr' hrh' hid
    rw [hrunning] at hid
    obtain ⟨hrh, hrid⟩ := Option.ite_none_right_eq_some.mp hid
    exact (hi.apart_of_mem_eraseIdx hr hr' (Option.some.inj hrid)).2 hrh'
  case apart => exact hi.apart.sublist (List.eraseIdx_sublist _ _)
  case delivered =>
    intro a ha
    rcases List.mem_append.mp ha with ha | ha
    · exact hi.delivered a ha
    · rw [List.mem_singleton.mp ha]
      exact hi.dispatch hrun hmem
  case requested => exact fun r' hr' => hi.requested r' (hsub r' hr')
  case number_lt => exact fun n hn => hi.number_lt n ((answer_numbers hr).mem_iff.mp hn)
  case number_nodup => exact (answer_numbers hr).nodup_iff.mpr hi.number_nodup

theorem Inv.handled {s : Exchange} (hi : s.Inv) (hrun : s.running = some key) :
    Inv { s with queries := s.queries.erase key, running := none } where
  nonzero := hi.nonzero
  registered r hr hrh := by
    have hne : r.id ≠ key := fun h => hi.spared r hr hrh (h ▸ hrun)
    exact (Function.update_of_ne hne _ _).trans (hi.registered r hr hrh)
  owned id hid := by
    have hne : id ≠ key := fun h => hid (h ▸ Function.update_self ..)
    have hid' : s.queries.handlers id ≠ none :=
      fun h => hid ((Function.update_of_ne hne _ _).trans h)
    refine (hi.owned id hid').imp_left fun h => ?_
    exact (hne (Option.some.inj (h.symm.trans hrun))).elim
  running _ h := nomatch h
  spared _ _ _ := nofun
  apart := hi.apart
  delivered := hi.delivered
  requested := hi.requested
  number_lt := hi.number_lt
  number_nodup := hi.number_nodup

/-! ### Runs -/

theorem Inv.step {s s' : Exchange} (hi : s.Inv) (hf : s.Fresh e) (hs : s.step e = some s') :
    s'.Inv := by
  cases e with
  | send h => cases hs; exact hi.send hf
  | update object =>
    obtain ⟨-, heq⟩ := Option.ite_none_right_eq_some.mp hs
    cases heq
    exact hi
  | answer i =>
    obtain ⟨hrun, heq⟩ := Option.ite_none_right_eq_some.mp hs
    obtain ⟨r, hr, rfl⟩ := Option.map_eq_some_iff.mp heq
    exact hi.answer hrun hr
  | handled =>
    obtain ⟨key, hrun, rfl⟩ := Option.map_eq_some_iff.mp hs
    exact hi.handled hrun

/-- No handler is called twice, since no query is answered twice. -/
theorem Inv.once {s : Exchange} (hi : s.Inv) : (s.answers.map (·.dispatch)).Pairwise
    fun d e => ∀ n, d = .handler n → e ≠ .handler n := by
  have hnodup : (s.answers.map (·.request.number)).Nodup :=
    hi.number_nodup.sublist (List.sublist_append_right _ _)
  have hnumber : ∀ a ∈ s.answers, ∀ n, a.dispatch = .handler n → a.request.number = n := by
    intro a ha n hn
    rw [hi.delivered a ha] at hn
    cases hrh : a.request.hasHandler <;> simp_all
  rw [List.pairwise_map]
  refine (List.pairwise_map.mp hnodup).imp_of_mem fun ha hb hne n hn hn' => hne ?_
  rw [hnumber _ ha n hn, hnumber _ hb n hn']

theorem Inv.faithful {s : Exchange} (hi : s.Inv) : s.Faithful :=
  ⟨hi.nonzero, hi.delivered, hi.once, hi.registered⟩

/-- **Answers reach the handlers they are for** in every state of a run all of whose ids are
fresh. -/
theorem faithful_of_fresh (hf : Run.Guarded step Fresh init es) :
    Run.Always step Faithful init es :=
  have hinv : Run.Always step Inv init es :=
    .of_guarded (fun _ _ _ hi hf hs => hi.step hf hs) init_inv hf
  hinv.mono fun _ => Inv.faithful

/-- Two queries are answered in the other order; the handler of the first sends a third. -/
def nested : List ExchangeEvent :=
  [.send true, .send false, .answer 1, .answer 0, .send true, .handled, .answer 0, .handled]

theorem faithful_of_fresh_nested :
    (∃ s, Run.exec step init nested = some s ∧
      s.answers.map (·.dispatch) = [.nothing, .handler 0, .handler 2]) ∧
    Run.Always step Faithful init nested :=
  ⟨⟨_, rfl, by decide⟩, faithful_of_fresh (by decide)⟩

/-! ### The first 2^32 queries -/

/-- The id of the query with this number. -/
def requestId (number : Nat) : BitVec 64 :=
  ((BitVec.ofNat 64 number + 1).setWidth 32).signExtend 64

theorem setWidth_signExtend (x : BitVec 32) : (x.signExtend 64).setWidth 32 = x := by
  apply BitVec.eq_of_getLsbD_eq
  intro i hi
  have hi64 : i < 64 := by omega
  rw [BitVec.getLsbD_setWidth, BitVec.getLsbD_signExtend]
  simp [hi, hi64]

/-- Ids tell the queries apart as far as their numbers go modulo 2^32. -/
theorem requestId_toNat_mod (number : Nat) :
    (requestId number).toNat % 2 ^ 32 = (number + 1) % 2 ^ 32 := by
  have h := congrArg BitVec.toNat (setWidth_signExtend ((BitVec.ofNat 64 number + 1).setWidth 32))
  rw [← requestId, BitVec.toNat_setWidth] at h
  rw [h, BitVec.toNat_setWidth, BitVec.toNat_add, BitVec.toNat_ofNat]
  simp

theorem requestId_ne_zero (h : number + 1 < 2 ^ 32) : requestId number ≠ 0 := by
  intro h0
  have hmod := requestId_toNat_mod number
  rw [h0, Nat.mod_eq_of_lt h] at hmod
  simp at hmod

theorem requestId_injective (hm : m + 1 < 2 ^ 32) (hn : n + 1 < 2 ^ 32)
    (h : requestId m = requestId n) : m = n := by
  have hmod := requestId_toNat_mod m
  rw [h, requestId_toNat_mod, Nat.mod_eq_of_lt hm, Nat.mod_eq_of_lt hn] at hmod
  omega

/-- What holds of the ids in every run, fresh or not. -/
structure Numbered (s : Exchange) : Prop where
  current : s.queries.currentQueryId = BitVec.ofNat 64 s.requests.length
  id_eq : ∀ r ∈ s.requests, r.number < s.requests.length ∧ r.id = requestId r.number
  outstanding : ∀ r ∈ s.outstanding, r ∈ s.requests
  handlers : ∀ id, s.queries.handlers id ≠ none → ∃ r ∈ s.requests, r.id = id

theorem init_numbered : init.Numbered where
  current := rfl
  id_eq := by simp [init]
  outstanding := by simp [init]
  handlers := by simp [init, Queries.empty]

theorem nextRequestId_eq {H : Type u} {q : Queries H}
    (hcur : q.currentQueryId = BitVec.ofNat 64 number) : q.nextRequestId = requestId number := by
  simp only [Queries.nextRequestId, Queries.nextQueryId, hcur, requestId]

theorem Numbered.next_id {s : Exchange} (hn : s.Numbered) (h : Bool) :
    (s.next h).id = requestId s.requests.length := nextRequestId_eq hn.current

theorem send_handlers_ne_none {s : Exchange} {id : BitVec 64}
    (hid : (s.send h).queries.handlers id ≠ none) :
    s.queries.handlers id ≠ none ∨ id = (s.next h).id := by
  obtain ⟨n, hn⟩ := Option.ne_none_iff_exists'.mp hid
  rcases Queries.handlers_of_sendQuery hn with hn | ⟨hkey, -⟩
  · exact .inl (Option.ne_none_iff_exists'.mpr ⟨n, hn⟩)
  · exact .inr hkey

theorem Numbered.send {s : Exchange} (hn : s.Numbered) (h : Bool) : (s.send h).Numbered := by
  have hlen : (s.send h).requests.length = s.requests.length + 1 := by simp [Exchange.send]
  constructor
  case current =>
    have hcur : (s.send h).queries.currentQueryId = s.queries.currentQueryId + 1 :=
      Queries.sendQuery_currentQueryId ..
    rw [hcur, hlen, hn.current, BitVec.ofNat_add]
    rfl
  case id_eq =>
    intro r hr
    rw [hlen]
    rcases mem_send_requests.mp hr with hr | rfl
    · obtain ⟨hlt, hid⟩ := hn.id_eq r hr
      exact ⟨by omega, hid⟩
    · exact ⟨Nat.lt_succ_self _, hn.next_id h⟩
  case outstanding =>
    intro r hr
    apply mem_send_requests.mpr
    exact (mem_send_outstanding.mp hr).imp_left (hn.outstanding r)
  case handlers =>
    intro id hid
    rcases send_handlers_ne_none hid with hid | rfl
    · obtain ⟨r, hr, hrid⟩ := hn.handlers id hid
      exact ⟨r, mem_send_requests.mpr (.inl hr), hrid⟩
    · exact ⟨s.next h, mem_send_requests.mpr (.inr rfl), rfl⟩

theorem Numbered.step {s s' : Exchange} (hn : s.Numbered) (hs : s.step e = some s') :
    s'.Numbered := by
  cases e with
  | send h => cases hs; exact hn.send h
  | update object =>
    obtain ⟨-, heq⟩ := Option.ite_none_right_eq_some.mp hs
    cases heq
    exact hn
  | answer i =>
    obtain ⟨-, heq⟩ := Option.ite_none_right_eq_some.mp hs
    obtain ⟨r, -, rfl⟩ := Option.map_eq_some_iff.mp heq
    exact ⟨hn.current, hn.id_eq, fun r' hr' => hn.outstanding r' (List.mem_of_mem_eraseIdx hr'),
      hn.handlers⟩
  | handled =>
    obtain ⟨key, -, rfl⟩ := Option.map_eq_some_iff.mp hs
    refine ⟨hn.current, hn.id_eq, hn.outstanding, fun id hid => hn.handlers id fun hnone => hid ?_⟩
    by_cases heq : id = key
    · exact heq ▸ Function.update_self ..
    · exact (Function.update_of_ne heq _ _).trans hnone

theorem Numbered.fresh {s : Exchange} (hn : s.Numbered) (hlt : s.requests.length + 1 < 2 ^ 32)
    (h : Bool) : s.Fresh (.send h) := by
  have hnew : ∀ r ∈ s.requests, r.id ≠ (s.next h).id := by
    intro r hr heq
    obtain ⟨hr', hid⟩ := hn.id_eq r hr
    rw [hid, hn.next_id] at heq
    have hnum := requestId_injective (by omega) hlt heq
    omega
  refine ⟨?_, fun _ => ?_, fun r hr heq => (hnew r (hn.outstanding r hr) heq).elim⟩
  · rw [hn.next_id]
    exact requestId_ne_zero hlt
  · by_contra hc
    obtain ⟨r, hr, hid⟩ := hn.handlers _ hc
    exact hnew r hr hid

/-- The number of queries a run sends. -/
def sends : List ExchangeEvent → Nat
  | [] => 0
  | .send _ :: es => sends es + 1
  | _ :: es => sends es

theorem Numbered.guarded {s : Exchange} (hn : s.Numbered)
    (hlt : s.requests.length + sends es < 2 ^ 32) : Run.Guarded Exchange.step Fresh s es := by
  induction es generalizing s with
  | nil => trivial
  | cons e es ih =>
    intro s' hs
    have hn' := hn.step hs
    cases e with
    | send h =>
      cases hs
      simp only [sends] at hlt
      have hlen : (s.send h).requests.length = s.requests.length + 1 := by simp [Exchange.send]
      exact ⟨hn.fresh (by omega) h, ih hn' (by omega)⟩
    | update object =>
      obtain ⟨-, heq⟩ := Option.ite_none_right_eq_some.mp hs
      cases heq
      exact ⟨trivial, ih hn' hlt⟩
    | answer i =>
      obtain ⟨-, heq⟩ := Option.ite_none_right_eq_some.mp hs
      obtain ⟨r, -, rfl⟩ := Option.map_eq_some_iff.mp heq
      exact ⟨trivial, ih hn' hlt⟩
    | handled =>
      obtain ⟨key, -, rfl⟩ := Option.map_eq_some_iff.mp hs
      exact ⟨trivial, ih hn' hlt⟩

/-- In a run of fewer than 2^32 queries every id is fresh. -/
theorem guarded_fresh_of_lt (hlt : sends es < 2 ^ 32) : Run.Guarded step Fresh init es :=
  init_numbered.guarded (by rwa [init, List.length_nil, Nat.zero_add])

/-- A run of queries alone goes through. -/
theorem exec_replicate_send (h : Bool) (n : Nat) :
    ∃ s, Run.exec step init (List.replicate n (.send h)) = some s ∧ s.Numbered ∧
      s.requests.length = n := by
  induction n with
  | zero => exact ⟨init, rfl, init_numbered, rfl⟩
  | succ n ih =>
    obtain ⟨s, hs, hn, hlen⟩ := ih
    refine ⟨s.send h, ?_, hn.send h, by simp [Exchange.send, hlen]⟩
    rw [List.replicate_succ', Run.exec_concat, hs]
    rfl

/-- The query with number 2^32 - 1 is sent with id 0, which is that of the updates. -/
theorem wrapped_not_faithful :
    ∃ s, Run.exec step init (List.replicate (2 ^ 32) (.send false)) = some s ∧ ¬s.Faithful := by
  obtain ⟨s, hs, hn, hlen⟩ := exec_replicate_send false (2 ^ 32 - 1)
  refine ⟨s.send false, ?_, fun hf => ?_⟩
  · have hpow : 2 ^ 32 = (2 ^ 32 - 1) + 1 := by decide
    rw [hpow, List.replicate_succ', Run.exec_concat, hs]
    rfl
  · apply hf.nonzero (s.next false) (mem_send_requests.mpr (.inr rfl))
    rw [hn.next_id, hlen]
    decide

end Exchange
end Chatcurse

import Chatcurse.EventQueue
import Chatcurse.Theory.Coalesce
import Chatcurse.Theory.Run

/-!
# The event queue is a coalescing FIFO

`Refines q p` relates the two containers to the pending pushes `p` of the specification
`Coalesce`: the queue holds the types waiting for service and the map the latest push of each. Both
calls preserve it (`Refines.push`, `Refines.popAndGet`), so every sequence of calls returns what the
specification returns (`exec_coalesces`).
-/

namespace Chatcurse
namespace EventQueue
open EventBase
open Coalesce (Op pushed pops pending results waiting latest served rest)

universe u
variable {ε : Type u} [EventBase ε]

/-- The queue and the results of the pops so far. -/
structure Calls (ε : Type u) where
  events : EventQueue ε
  popped : List (Option ε)

def Calls.step (c : Calls ε) : Op ε → Option (Calls ε)
  | .push e => some { c with events := c.events.push e }
  | .pop => c.events.popAndGet.map fun (q, res) => ⟨q, c.popped ++ [res]⟩

def Calls.start : Calls ε := ⟨empty, []⟩

/-- The queue and the map are those of the pending pushes `p`. -/
structure Refines (q : EventQueue ε) (p : List ε) : Prop where
  queue : q.queue = waiting type p
  eventMap : ∀ t, q.eventMap t = latest type t p

theorem empty_refines : Refines (empty : EventQueue ε) [] := ⟨rfl, fun _ => rfl⟩

theorem Refines.push {q : EventQueue ε} (h : Refines q p) (e : ε) :
    Refines (q.push e) (p ++ [e]) where
  queue := by
    have hp : q.eventMap (type e) = none ↔ type e ∉ waiting type p := by
      rw [h.eventMap, ← Coalesce.latest_isSome, Option.isSome_iff_ne_none, not_not]
    simp only [EventQueue.push, Coalesce.waiting_push, h.queue, hp, ite_not]
  eventMap t := by
    change Function.update q.eventMap (type e) (some e) t = _
    rw [Coalesce.latest_push, ← h.eventMap, Function.update_apply]
    simp only [eq_comm]

theorem Refines.popAndGet {q : EventQueue ε} (h : Refines q p) :
    ∃ q', q.popAndGet = some (q', served type p) ∧ Refines q' (rest type p) := by
  cases p with
  | nil =>
    have hq : q.queue = [] := h.queue
    exact ⟨q, by rw [EventQueue.popAndGet, hq]; rfl, h⟩
  | cons a p =>
    have hq := h.queue
    rw [Coalesce.waiting_cons] at hq
    have hsome : (latest type (type a) (a :: p)).isSome :=
      Coalesce.latest_isSome.mpr (by simp)
    obtain ⟨b, hb⟩ := Option.isSome_iff_exists.mp hsome
    refine ⟨⟨waiting type (rest type (a :: p)), Function.update q.eventMap (type a) none⟩,
      ?_, rfl, fun t => ?_⟩
    · rw [EventQueue.popAndGet, hq, served, hb]
      simp only [h.eventMap, hb]
    · change Function.update q.eventMap (type a) none t = _
      by_cases ht : t = type a
      · rw [ht, Function.update_self, Coalesce.latest_rest_self]
      · have hl := Coalesce.latest_rest_append ht ([] : List ε) (p := p)
        rw [List.append_nil, List.append_nil] at hl
        rw [Function.update_of_ne ht, hl, h.eventMap]

/-- From a queue that refines `p`, the calls are defined and return what the specification
returns. -/
theorem exec_refines {c : Calls ε} (h : Refines c.events p) (ops : List (Op ε)) :
    ∃ c', Run.exec Calls.step c ops = some c' ∧
      Refines c'.events (ops.foldl (Coalesce.step type) p) ∧
      c'.popped = c.popped ++ results type p ops := by
  induction ops generalizing c p with
  | nil => exact ⟨c, rfl, h, by simp [results]⟩
  | cons op ops ih =>
    cases op with
    | push e => exact ih (h.push e)
    | pop =>
      obtain ⟨q, hq, hr⟩ := h.popAndGet
      obtain ⟨c', hc', hr', hp⟩ := ih (c := ⟨q, c.popped ++ [served type p]⟩) hr
      refine ⟨c', ?_, hr', ?_⟩
      · rw [Run.exec_cons, Calls.step, hq]
        exact hc'
      · rw [hp, results, List.append_assoc]
        rfl

/-- What holds of the queue `c` that some calls lead to. -/
structure Coalesces (ops : List (Op ε)) (c : Calls ε) : Prop where
  /-- The elements of the queue are pairwise distinct and are the keys of the map. -/
  nodup : c.events.queue.Nodup
  keys : ∀ t, t ∈ c.events.queue ↔ (c.events.eventMap t).isSome
  /-- The next pop finds its event. It returns null exactly when nothing is pending, and otherwise
  the latest push of the type whose oldest pending push came first. -/
  next : ∃ q res, c.events.popAndGet = some (q, res) ∧ (res = none ↔ pending type ops = []) ∧
    ∀ e p, pending type ops = e :: p → res = latest type (type e) (e :: p)
  /-- The pops so far returned what the specification returns, and no push twice. -/
  popped : c.popped = results type [] ops
  once : (c.popped.filterMap id).Subperm (pushed ops)
  /-- A push is the latest of its type and pending. -/
  push : ∀ e, type e ∈ (c.events.push e).queue ∧ (c.events.push e).eventMap (type e) = some e
  /-- A type with `front` queued ahead of it is not returned by the next `front.length` pops, and
  the pop after them returns the latest of its pushes, whatever is pushed in between. -/
  fifo : ∀ front t back mid, c.events.queue = front ++ t :: back → pops mid = front.length →
    ∃ c' early, Run.exec Calls.step c (mid ++ [.pop]) = some c' ∧
      early.length = front.length ∧ (∀ e, some e ∈ early → type e ≠ t) ∧
      c'.popped = c.popped ++ early ++
        [latest type t ((c.events.eventMap t).toList ++ pushed mid)]

theorem Refines.keys {q : EventQueue ε} (h : Refines q p) (t : Int) :
    t ∈ q.queue ↔ (q.eventMap t).isSome := by
  rw [h.queue, h.eventMap, Coalesce.latest_isSome]

omit [EventBase ε] in
/-- A pop finds nothing, or takes the event of the type that was first in the queue. -/
theorem popAndGet_cases {q : EventQueue ε} (hq : q.popAndGet = some (q', res)) :
    (q.queue = [] ∧ q' = q ∧ res = none) ∨
      ∃ front queue e, q.queue = front :: queue ∧ q.eventMap front = some e ∧
        q' = ⟨queue, Function.update q.eventMap front none⟩ ∧ res = some e := by
  unfold EventQueue.popAndGet at hq
  split at hq
  next hnil =>
    cases hq
    exact .inl ⟨hnil, rfl, rfl⟩
  next front queue hcons =>
    split at hq
    next => cases hq
    next e he =>
      cases hq
      exact .inr ⟨front, queue, e, hcons, he, rfl, rfl⟩

omit [EventBase ε] in
theorem popAndGet_none {q : EventQueue ε} (hq : q.popAndGet = some (q', none)) :
    q.queue = [] ∧ q' = q := by
  rcases popAndGet_cases hq with ⟨hnil, heq, -⟩ | ⟨front, queue, e, -, -, -, hres⟩
  · exact ⟨hnil, heq⟩
  · cases hres

/-- A pop returns an event of the type that was first in the queue. -/
theorem Refines.popAndGet_some {q : EventQueue ε} (h : Refines q p)
    (hq : q.popAndGet = some (q', some e)) : q.queue = type e :: q'.queue := by
  rcases popAndGet_cases hq with ⟨-, -, hres⟩ | ⟨front, queue, e', hcons, he', rfl, hres⟩
  · cases hres
  · cases hres
    rw [h.eventMap] at he'
    rw [hcons, (Coalesce.latest_eq_some he').2]

/-- A pop leaves the types it does not return in the queue. -/
theorem Refines.type_or_mem {q : EventQueue ε} (h : Refines q p)
    (hq : q.popAndGet = some (q', some e)) (ht : t ∈ q.queue) : t = type e ∨ t ∈ q'.queue := by
  rw [h.popAndGet_some hq] at ht
  exact List.mem_cons.mp ht

theorem Refines.of_popAndGet {q : EventQueue ε} (h : Refines q p)
    (hq : q.popAndGet = some (q', e)) : Refines q' (rest type p) := by
  obtain ⟨q'', hq'', hr⟩ := h.popAndGet
  obtain ⟨rfl, -⟩ := Prod.mk.inj (Option.some.inj (hq.symm.trans hq''))
  exact hr

theorem mem_push_queue (q : EventQueue ε) (h : t ∈ q.queue) (e : ε) : t ∈ (q.push e).queue := by
  unfold EventQueue.push
  split
  · exact List.mem_append_left _ h
  · exact h

theorem Refines.type_mem_push {q : EventQueue ε} (h : Refines q p) (e : ε) :
    type e ∈ (q.push e).queue := by
  rw [(h.push e).keys]
  exact Option.isSome_iff_exists.mpr ⟨e, Function.update_self ..⟩

theorem Refines.fifo {c : Calls ε} (h : Refines c.events p)
    (hq : c.events.queue = front ++ t :: back) (hn : pops mid = front.length) :
    ∃ c' early, Run.exec Calls.step c (mid ++ [.pop]) = some c' ∧
      early.length = front.length ∧ (∀ e, some e ∈ early → type e ≠ t) ∧
      c'.popped = c.popped ++ early ++
        [latest type t ((c.events.eventMap t).toList ++ pushed mid)] := by
  rw [h.queue] at hq
  obtain ⟨hres, hearly⟩ := Coalesce.results_fifo hq hn
  obtain ⟨c', hc', -, hpop⟩ := exec_refines h (mid ++ [.pop])
  refine ⟨c', results type p mid, hc', ?_, hearly, ?_⟩
  · rw [Coalesce.length_results, hn]
  · rw [hpop, hres, h.eventMap, ← Coalesce.latest_append, List.append_assoc]

/-- **The event queue refines a coalescing FIFO.** -/
theorem exec_coalesces (ops : List (Op ε)) :
    ∃ c, Run.exec Calls.step .start ops = some c ∧ Coalesces ops c := by
  obtain ⟨c, hc, hr, hp⟩ := exec_refines (c := Calls.start) empty_refines ops
  change Refines c.events (pending type ops) at hr
  change c.popped = results type [] ops at hp
  refine ⟨c, hc, ?_, hr.keys, ?_, hp, ?_, fun e => ?_, fun _ _ _ _ hq hn => hr.fifo hq hn⟩
  · rw [hr.queue]
    exact Coalesce.waiting_nodup _
  · obtain ⟨q, hq, -⟩ := hr.popAndGet
    exact ⟨q, _, hq, Coalesce.served_eq_none, fun e p he => by rw [he]; rfl⟩
  · have hsub : ((results type [] ops).filterMap id ++ pending type ops).Subperm (pushed ops) :=
      Coalesce.results_append_pending_subperm [] ops
    rw [hp]
    exact (List.sublist_append_left _ _).subperm.trans hsub
  · exact ⟨hr.type_mem_push e, Function.update_self ..⟩

end EventQueue
end Chatcurse

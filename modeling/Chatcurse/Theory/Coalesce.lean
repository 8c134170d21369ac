import Mathlib.Data.List.Dedup
import Mathlib.Data.List.Perm.Subperm

/-!
# Coalescing FIFO queues

What a coalescing queue is for, as a specification. Every push stays pending until its key is
popped. A pop serves the key whose oldest pending push came first; it returns the latest pending
push of that key and forgets all of them. `waiting` is the order in which the keys are served.
-/

universe u v

namespace Coalesce

/-- A call of the queue. -/
inductive Op (α : Type u) where
  | push (a : α)
  | pop

/-- The pushes among some calls, in order. -/
def pushed {α : Type u} : List (Op α) → List α
  | [] => []
  | .push a :: ops => a :: pushed ops
  | .pop :: ops => pushed ops

/-- The number of pops among some calls. -/
def pops {α : Type u} : List (Op α) → Nat
  | [] => 0
  | .push _ :: ops => pops ops
  | .pop :: ops => pops ops + 1

variable {α : Type u} {κ : Type v} [DecidableEq κ] (key : α → κ)

/-- The latest pending push of a key. -/
def latest (k : κ) (p : List α) : Option α := (p.filter fun a => key a = k).getLast?

/-- What a pop returns. -/
def served : List α → Option α
  | [] => none
  | a :: p => latest key (key a) (a :: p)

/-- What is pending after a pop. -/
def rest : List α → List α
  | [] => []
  | a :: p => p.filter fun b => key b ≠ key a

def step (p : List α) : Op α → List α
  | .push a => p ++ [a]
  | .pop => rest key p

/-- The pushes whose key has not been popped since, oldest first. -/
def pending (ops : List (Op α)) : List α := ops.foldl (step key) []

/-- The results of the pops, in order, from some pending pushes on. -/
def results (p : List α) : List (Op α) → List (Option α)
  | [] => []
  | .push a :: ops => results (p ++ [a]) ops
  | .pop :: ops => served key p :: results (rest key p) ops

/-- The keys in the order they will be served. -/
def waiting (p : List α) : List κ := (p.map key).eraseDups

variable {key}

@[simp] theorem pending_nil : pending key [] = [] := rfl

theorem rest_cons (a : α) (p : List α) :
    rest key (a :: p) = (a :: p).filter fun b => key b ≠ key a := by
  simp [rest]

/-! ## The latest push of a key -/

theorem latest_eq_some {p : List α} (h : latest key k p = some a) : a ∈ p ∧ key a = k := by
  have hmem := List.mem_of_getLast? h
  simpa using hmem

theorem latest_push (p : List α) (a : α) (k : κ) :
    latest key k (p ++ [a]) = if key a = k then some a else latest key k p := by
  by_cases h : key a = k <;> simp [latest, h]

/-- Of the pushes before, only the latest of the key matters. -/
theorem latest_append (p q : List α) (k : κ) :
    latest key k (p ++ q) = latest key k ((latest key k p).toList ++ q) := by
  cases h : latest key k p with
  | none =>
    have hp : p.filter (fun a => key a = k) = [] := List.getLast?_eq_none_iff.mp h
    simp [latest, hp]
  | some a =>
    have hk : key a = k := (latest_eq_some h).2
    have ha : (p.filter fun a => key a = k).getLast? = some a := h
    have hs : (some a).toList.filter (fun a => key a = k) = [a] := by simp [hk]
    rw [latest, latest, List.filter_append, List.filter_append, List.getLast?_append,
      List.getLast?_append, ha, hs, List.getLast?_singleton]

theorem latest_rest_append {a : α} {p : List α} (h : k ≠ key a) (q : List α) :
    latest key k (rest key (a :: p) ++ q) = latest key k (a :: p ++ q) := by
  have hf : (rest key (a :: p)).filter (fun b => key b = k) =
      (a :: p).filter fun b => key b = k := by
    rw [rest_cons, List.filter_filter]
    refine List.filter_congr fun b _ => ?_
    by_cases hb : key b = k
    · simp [hb, h]
    · simp [hb]
  rw [latest, latest, List.filter_append, List.filter_append, hf]

theorem latest_rest_self (a : α) (p : List α) : latest key (key a) (rest key (a :: p)) = none := by
  simp [latest, rest]

/-! ## The order of service -/

@[simp] theorem waiting_nil : waiting key [] = [] := rfl

theorem waiting_cons (a : α) (p : List α) :
    waiting key (a :: p) = key a :: waiting key (rest key (a :: p)) := by
  have hf : (p.map key).filter (fun k => !k == key a) = (rest key (a :: p)).map key := by
    rw [List.filter_map, rest]
    refine congrArg _ (List.filter_congr fun b _ => ?_)
    rw [Function.comp_apply, Bool.not_eq_eq_eq_not, beq_eq_decide]
    simp
  rw [waiting, List.map_cons, List.eraseDups_cons, hf, waiting]

@[simp] theorem mem_waiting {p : List α} : k ∈ waiting key p ↔ ∃ a ∈ p, key a = k := by
  simp [waiting]

theorem waiting_nodup (p : List α) : (waiting key p).Nodup := by
  induction h : p.length using Nat.strongRecOn generalizing p with
  | _ n ih =>
    cases p with
    | nil => exact List.nodup_nil
    | cons a p =>
      have hlen : (rest key (a :: p)).length < n :=
        h ▸ Nat.lt_succ_of_le (List.length_filter_le ..)
      rw [waiting_cons]
      refine List.nodup_cons.mpr ⟨fun hmem => ?_, ih _ hlen _ rfl⟩
      obtain ⟨b, hb, hk⟩ := mem_waiting.mp hmem
      simp [rest, hk] at hb

theorem waiting_push (p : List α) (a : α) :
    waiting key (p ++ [a]) =
      if key a ∈ waiting key p then waiting key p else waiting key p ++ [key a] := by
  rw [waiting, List.map_append, List.eraseDups_append]
  by_cases h : key a ∈ waiting key p
  · have hr : [key a].removeAll (p.map key) = [] := by simpa [List.removeAll] using h
    rw [if_pos h, List.map_singleton, hr, List.eraseDups_nil, List.append_nil, waiting]
  · have hr : [key a].removeAll (p.map key) = [key a] := by
      simpa [List.removeAll, List.filter_cons] using h
    rw [if_neg h, List.map_singleton, hr, waiting]
    rfl

theorem latest_isSome {p : List α} : (latest key k p).isSome ↔ k ∈ waiting key p := by
  simp [latest]

/-! ## Service -/

theorem served_eq_none {p : List α} : served key p = none ↔ p = [] := by
  cases p with
  | nil => simp [served]
  | cons a p => simp [served, latest]

/-- A pop takes its result out of the pending pushes. -/
theorem served_rest_subperm {p : List α} (h : served key p = some a) :
    (a :: rest key p).Subperm p := by
  cases p with
  | nil => cases h
  | cons b p =>
    have hmem : a ∈ (b :: p).filter fun c => key c = key b := List.mem_of_getLast? h
    have hsub : [a].Subperm ((b :: p).filter fun c => key c = key b) :=
      (List.singleton_sublist.mpr hmem).subperm
    have hperm := List.filter_append_perm (fun c => decide (key c = key b)) (b :: p)
    have hrest : rest key (b :: p) = (b :: p).filter fun c => !decide (key c = key b) := by
      rw [rest_cons]
      refine List.filter_congr fun c _ => ?_
      simp
    rw [hrest, ← List.singleton_append]
    exact ((List.subperm_append_right _).mpr hsub).trans hperm.subperm

/-- No push is returned twice: the results so far and what is pending are made of the pushes. -/
theorem results_append_pending_subperm (p : List α) (ops : List (Op α)) :
    ((results key p ops).filterMap id ++ ops.foldl (step key) p).Subperm (p ++ pushed ops) := by
  induction ops generalizing p with
  | nil => simp [results, pushed, List.Subperm.refl]
  | cons op ops ih =>
    cases op with
    | push a => simpa [results, pushed, step] using ih (p ++ [a])
    | pop =>
      cases h : served key p with
      | none =>
        cases served_eq_none.mp h
        simpa [results, pushed, step, served, rest] using ih []
      | some a =>
        have hrest := ih (rest key p)
        have ha : (a :: (rest key p ++ pushed ops)).Subperm (p ++ pushed ops) :=
          (List.subperm_append_right (pushed ops)).mpr (served_rest_subperm h)
        simpa [results, pushed, step, h] using (List.subperm_cons a |>.mpr hrest).trans ha

theorem length_results (p : List α) (ops : List (Op α)) :
    (results key p ops).length = pops ops := by
  induction ops generalizing p with
  | nil => rfl
  | cons op ops ih => cases op <;> simp [results, pops, ih]

/-- **First come, first served.** A key with `front` waiting ahead of it is not served by the next
`front.length` pops, whatever is pushed among them, and the pop after them returns its latest
push. -/
theorem results_fifo {p : List α} {ops : List (Op α)}
    (hw : waiting key p = front ++ k :: back) (hn : pops ops = front.length) :
    results key p (ops ++ [.pop]) = results key p ops ++ [latest key k (p ++ pushed ops)] ∧
      ∀ a, some a ∈ results key p ops → key a ≠ k := by
  induction ops generalizing p front back with
  | nil =>
    cases List.eq_nil_of_length_eq_zero hn.symm
    cases p with
    | nil => cases hw
    | cons a p =>
      rw [waiting_cons] at hw
      cases (List.cons.inj hw).1
      simp [results, served, pushed]
  | cons op ops ih =>
    cases op with
    | push a =>
      have hw' : ∃ back', waiting key (p ++ [a]) = front ++ k :: back' := by
        rw [waiting_push, hw]
        split
        · exact ⟨back, rfl⟩
        · exact ⟨back ++ [key a], by simp⟩
      obtain ⟨back', hw'⟩ := hw'
      obtain ⟨hr, hk⟩ := ih hw' hn
      exact ⟨by simpa [results, pushed] using hr, hk⟩
    | pop =>
      cases front with
      | nil => cases hn
      | cons f front =>
        cases p with
        | nil => cases hw
        | cons a p =>
          have hnd : (waiting key (a :: p)).Nodup := waiting_nodup _
          rw [hw] at hnd
          have hkf : k ≠ f := by
            rintro rfl
            exact (List.nodup_cons.mp hnd).1 (by simp)
          rw [waiting_cons] at hw
          obtain ⟨rfl, hw'⟩ := List.cons.inj hw
          obtain ⟨hr, hk⟩ := ih hw' (Nat.succ.inj hn)
          refine ⟨?_, fun b hb => ?_⟩
          · simp only [List.cons_append, results, pushed, hr, latest_rest_append hkf]
          · rcases List.mem_cons.mp hb with hb | hb
            · have hs := (latest_eq_some (hb.symm : served key (a :: p) = some b)).2
              exact hs ▸ hkf.symm
            · exact hk b hb

end Coalesce

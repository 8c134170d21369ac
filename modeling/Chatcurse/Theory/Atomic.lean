import Chatcurse.Theory.Run

/-!
# Operations in steps under a lock

An operation takes a lock, acts step by step and releases it. Steps that leave the data alone may
come between. While the lock is free, the data are those of the operations so far, each taken at
once and in their order, up to one that has not begun (`Phase.free`).
-/

universe u v w

namespace Atomic

variable {δ : Type u} {α : Type v} {ο : Type w}

section
variable (run : δ → α → Option δ) (op : δ → ο → Option δ) (lock unlock : α)

/-- An action without an effect on the lock or the data. -/
def Silent (a : α) : Prop := a ≠ lock ∧ a ≠ unlock ∧ ∀ d, run d a = some d

/-- The actions do what an operation does, and leave the lock alone. -/
structure Performs (o : ο) (as : List α) : Prop where
  exec_run : ∀ d, Run.exec run d as = op d o
  inside : ∀ a ∈ as, a ≠ lock ∧ a ≠ unlock

/-- The data after some operations, with the lock and the actions still to take. -/
inductive Phase (os : List ο) (d₀ d : δ) : Bool → List α → Prop where
  | idle (hdone : Run.exec op d₀ os = some d) (has : ∀ a ∈ as, Silent run lock unlock a) :
    Phase os d₀ d false as
  | waiting (hos : os = os' ++ [o]) (hdone : Run.exec op d₀ os' = some d)
    (has : Performs run op lock unlock o as) : Phase os d₀ d false (lock :: (as ++ [unlock]))
  | inside (hrest : Run.exec run d as = Run.exec op d₀ os)
    (has : ∀ a ∈ as, a ≠ lock ∧ a ≠ unlock) : Phase os d₀ d true (as ++ [unlock])

end

namespace Phase

variable {run : δ → α → Option δ} {op : δ → ο → Option δ} {lock unlock : α} {os : List ο}
  {d₀ d : δ} {held : Bool} {as rest : List α}

/-- Between two operations. -/
theorem done (h : Phase run op lock unlock os d₀ d held []) :
    held = false ∧ Run.exec op d₀ os = some d := by
  generalize has : ([] : List α) = as at h
  cases h with
  | idle hdone => exact ⟨rfl, hdone⟩
  | waiting => cases has
  | inside => exact absurd has.symm (List.append_ne_nil_of_right_ne_nil _ (List.cons_ne_nil _ _))

theorem begin (h : Phase run op lock unlock os d₀ d held []) {o : ο}
    (has : Performs run op lock unlock o as) :
    Phase run op lock unlock (os ++ [o]) d₀ d held (lock :: (as ++ [unlock])) := by
  obtain ⟨rfl, hdone⟩ := h.done
  exact .waiting rfl hdone has

/-- Other actions are taken. -/
theorem other (h : Phase run op lock unlock os d₀ d held [])
    (has : ∀ a ∈ as, Silent run lock unlock a) : Phase run op lock unlock os d₀ d held as := by
  obtain ⟨rfl, hdone⟩ := h.done
  exact .idle hdone has

/-- An operation without an effect. -/
theorem skip (h : Phase run op lock unlock os d₀ d held []) {o : ο} (ho : op d o = some d) :
    Phase run op lock unlock (os ++ [o]) d₀ d held [] := by
  obtain ⟨rfl, hdone⟩ := h.done
  refine .idle ?_ (List.forall_mem_nil _)
  exact Run.exec_concat_eq_some.mpr ⟨d, hdone, ho⟩

theorem of_lock (h : Phase run op lock unlock os d₀ d held (lock :: rest)) (hne : lock ≠ unlock) :
    Phase run op lock unlock os d₀ d true rest := by
  generalize has : lock :: rest = as at h
  cases h with
  | idle _ hsilent =>
    subst has
    exact absurd rfl (hsilent lock List.mem_cons_self).1
  | @waiting _ o _ hos hdone hperforms =>
    obtain ⟨-, rfl⟩ := List.cons.inj has
    refine .inside ?_ hperforms.inside
    rw [hperforms.exec_run, hos, Run.exec_concat, hdone]
    rfl
  | @inside as _ hinside =>
    cases as with
    | nil => exact absurd (List.cons.inj has).1 hne
    | cons a as =>
      obtain ⟨rfl, -⟩ := List.cons.inj has
      exact absurd rfl (hinside lock List.mem_cons_self).1

/-- The lock is taken when it is free. -/
theorem held_of_lock (h : Phase run op lock unlock os d₀ d held (lock :: rest))
    (hne : lock ≠ unlock) : held = false := by
  generalize has : lock :: rest = as at h
  cases h with
  | idle | waiting => rfl
  | @inside as _ hinside =>
    cases as with
    | nil => exact absurd (List.cons.inj has).1 hne
    | cons a as =>
      obtain ⟨rfl, -⟩ := List.cons.inj has
      exact absurd rfl (hinside lock List.mem_cons_self).1

theorem of_unlock (h : Phase run op lock unlock os d₀ d held (unlock :: rest))
    (hne : lock ≠ unlock) : Phase run op lock unlock os d₀ d false rest := by
  generalize has : unlock :: rest = as at h
  cases h with
  | idle _ hsilent =>
    subst has
    exact absurd rfl (hsilent unlock List.mem_cons_self).2.1
  | waiting => exact absurd (List.cons.inj has).1.symm hne
  | @inside as hrest hinside =>
    cases as with
    | nil =>
      obtain ⟨-, rfl⟩ := List.cons.inj has
      exact .idle hrest.symm (List.forall_mem_nil _)
    | cons a as =>
      obtain ⟨rfl, -⟩ := List.cons.inj has
      exact absurd rfl (hinside unlock List.mem_cons_self).2

theorem act (h : Phase run op lock unlock os d₀ d held (a :: rest)) (hlock : a ≠ lock)
    (hunlock : a ≠ unlock) (hrun : run d a = some d') :
    Phase run op lock unlock os d₀ d' held rest := by
  generalize has : a :: rest = as at h
  cases h with
  | idle hdone hsilent =>
    subst has
    obtain ⟨ha, hrest⟩ := List.forall_mem_cons.mp hsilent
    obtain rfl := Option.some.inj ((ha.2.2 d).symm.trans hrun)
    exact .idle hdone hrest
  | waiting => exact absurd (List.cons.inj has).1 hlock
  | @inside as hrest hinside =>
    cases as with
    | nil => exact absurd (List.cons.inj has).1 hunlock
    | cons b as =>
      obtain ⟨rfl, rfl⟩ := List.cons.inj has
      rw [Run.exec_cons, hrun] at hrest
      exact .inside hrest (List.forall_mem_cons.mp hinside).2

/-- **While the lock is free**, the data are those of the operations, but for one that still has to
take it. -/
theorem free (h : Phase run op lock unlock os d₀ d false as) :
    ∃ os', Run.exec op d₀ os' = some d ∧
      (os' = os ∨ ∃ o, os = os' ++ [o] ∧ as.head? = some lock) := by
  cases h with
  | idle hdone => exact ⟨os, hdone, .inl rfl⟩
  | waiting hos hdone => exact ⟨_, hdone, .inr ⟨_, hos, rfl⟩⟩

end Phase

end Atomic

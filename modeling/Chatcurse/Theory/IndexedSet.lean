import Chatcurse.Theory.OrdSet
import Mathlib.Logic.Function.Basic

/-!
# An ordered set with an index

Entries `(k, i)` of identifiers `i` ranked by a key `k`, beside an index from identifiers to keys
that says which entry an identifier has. The two are changed by separate operations:

* `put k i` records the key of `i` and inserts the entry, without looking for an older one;
* `move k i` replaces the entry of an indexed identifier, or removes it for `k = none`, and ignores
  an identifier that is not indexed.

`CoherentAt i` says that set and index agree on `i`. Moves keep it (`CoherentAt.move`). A `put`
keeps it exactly when it does not overwrite a different key (`coherentAt_put_iff`); when it does,
the older entry is left behind, and the moves after it repair the set exactly when one of them goes
back to that entry before any of them removes the identifier (`coherentAt_moves_put_iff`). A move
makes the set smaller, by one, exactly when it `Shrinks` it (`size_le_size_move`).
-/

universe u v

/-- Entries in the order of `lt`, and the key recorded for each identifier. -/
structure IndexedSet {κ : Type u} {ι : Type v} (lt : κ × ι → κ × ι → Prop) where
  set : OrdSet lt
  index : ι → Option κ

namespace IndexedSet

variable {κ : Type u} {ι : Type v} {lt : κ × ι → κ × ι → Prop}
variable [DecidableEq ι] [DecidableRel lt] [IsTrans (κ × ι) lt]

/-- Record the key `k` for `i` and insert the entry. -/
def put (x : IndexedSet lt) (k : κ) (i : ι) : IndexedSet lt where
  set := x.set.insert (k, i)
  index := Function.update x.index i (some k)

/-- Replace the entry of an indexed identifier. -/
def move (x : IndexedSet lt) (k : Option κ) (i : ι) : IndexedSet lt :=
  match x.index i with
  | none => x
  | some old =>
    match k with
    | some k =>
      { set := (x.set.erase (old, i)).insert (k, i), index := Function.update x.index i (some k) }
    | none => { set := x.set.erase (old, i), index := Function.update x.index i none }

def moves (x : IndexedSet lt) (ks : List (Option κ)) (i : ι) : IndexedSet lt :=
  ks.foldl (fun x k => x.move k i) x

/-- Set and index agree on the entries of `i`. -/
def CoherentAt (x : IndexedSet lt) (i : ι) : Prop := ∀ k, (k, i) ∈ x.set ↔ x.index i = some k

@[simp] theorem put_index (x : IndexedSet lt) (k : κ) (i j : ι) :
    (x.put k i).index j = if j = i then some k else x.index j := Function.update_apply ..

theorem move_of_none {x : IndexedSet lt} (h : x.index i = none) (k : Option κ) :
    x.move k i = x := by
  simp [move, h]

theorem move_index {x : IndexedSet lt} (k : Option κ) (i j : ι) :
    (x.move k i).index j = if j = i then (x.index i).bind fun _ => k else x.index j := by
  cases h : x.index i with
  | none =>
    rw [move_of_none h, Option.bind_none]
    split
    next e => exact e ▸ h
    · rfl
  | some old => cases k <;> simp [move, h, Function.update_apply]

@[simp] theorem moves_nil (x : IndexedSet lt) (i : ι) : x.moves [] i = x := rfl

@[simp] theorem moves_cons (x : IndexedSet lt) (k : Option κ) (ks : List (Option κ)) (i : ι) :
    x.moves (k :: ks) i = (x.move k i).moves ks i := rfl

theorem moves_of_none {x : IndexedSet lt} (h : x.index i = none) (ks : List (Option κ)) :
    x.moves ks i = x := by
  induction ks with
  | nil => rfl
  | cons k ks ih => rw [moves_cons, move_of_none h, ih]

theorem moves_index_of_ne {x : IndexedSet lt} (h : j ≠ i) (ks : List (Option κ)) :
    (x.moves ks i).index j = x.index j := by
  induction ks generalizing x with
  | nil => rfl
  | cons k ks ih => rw [moves_cons, ih, move_index, if_neg h]

section
variable [Std.Irrefl lt] [Std.Trichotomous lt]

theorem mem_put {x : IndexedSet lt} : p ∈ (x.put k i).set ↔ p = (k, i) ∨ p ∈ x.set :=
  OrdSet.mem_insert

@[simp] theorem put_put (x : IndexedSet lt) (k : κ) (i : ι) : (x.put k i).put k i = x.put k i := by
  have hset : (x.set.insert (k, i)).insert (k, i) = x.set.insert (k, i) :=
    OrdSet.ext_mem fun p => by simp
  simp only [put, hset, Function.update_idem]

/-- The entries after a move of an indexed identifier. -/
theorem mem_move {x : IndexedSet lt} (h : x.index i = some old) :
    p ∈ (x.move k i).set ↔ k = some p.1 ∧ p.2 = i ∨ p ∈ x.set ∧ p ≠ (old, i) := by
  simp only [move, h]
  cases k with
  | none => simp
  | some k =>
    rw [OrdSet.mem_insert, OrdSet.mem_erase]
    constructor <;> rintro (h | h)
    · exact .inl (by simp [h])
    · exact .inr h
    · exact .inl (Prod.ext (Option.some.inj h.1).symm h.2)
    · exact .inr h

/-- The move takes an entry away: the indexed one is there, and there is no new one to add. -/
def Shrinks (x : IndexedSet lt) (k : Option κ) (i : ι) : Prop :=
  ∃ old ∈ x.index i, (old, i) ∈ x.set ∧ ∀ k' ∈ k, k' ≠ old ∧ (k', i) ∈ x.set

instance [DecidableEq κ] (x : IndexedSet lt) (k : Option κ) (i : ι) : Decidable (x.Shrinks k i) :=
  inferInstanceAs (Decidable (∃ _ ∈ _, _ ∧ ∀ _ ∈ _, _))

/-- A move takes one entry away at most, and none unless it shrinks the set. -/
theorem size_le_size_move {x : IndexedSet lt} (n : Nat)
    (h : x.Shrinks k i → n + 1 ≤ x.set.size) (hn : n ≤ x.set.size) :
    n ≤ (x.move k i).set.size := by
  cases hi : x.index i with
  | none => rwa [move_of_none hi]
  | some old =>
    by_cases hold : (old, i) ∈ x.set
    · have herase := OrdSet.size_erase hold
      cases k with
      | none =>
        have hlt := h ⟨old, hi, hold, nofun⟩
        simp only [move, hi]
        omega
      | some k =>
        simp only [move, hi]
        by_cases hk : (k, i) ∈ x.set.erase (old, i)
        · obtain ⟨hmem, hne⟩ := OrdSet.mem_erase.mp hk
          have hlt := h ⟨old, hi, hold, fun k' hk' => by
            cases hk'
            exact ⟨fun heq => hne (by rw [heq]), hmem⟩⟩
          have hle := OrdSet.size_le_size_insert (s := x.set.erase (old, i)) (a := (k, i))
          omega
        · have hins := OrdSet.size_insert (OrdSet.not_mem_iff.mp hk)
          omega
    · have herase := OrdSet.erase_of_not_mem hold
      cases k with
      | none => simpa only [move, hi, herase] using hn
      | some k =>
        simp only [move, hi, herase]
        exact Nat.le_trans hn OrdSet.size_le_size_insert

theorem mem_move_of_ne {x : IndexedSet lt} (h : j ≠ i) :
    (k', j) ∈ (x.move k i).set ↔ (k', j) ∈ x.set := by
  cases hi : x.index i with
  | none => rw [move_of_none hi]
  | some old => rw [mem_move hi]; simp [h]

/-- A move leaves the entries of the other identifiers as they are, and in their order. -/
theorem move_others (x : IndexedSet lt) (k : Option κ) (i : ι) :
    (x.move k i).set.filter (·.2 ≠ i) = x.set.filter (·.2 ≠ i) :=
  OrdSet.ext_mem fun p => by
    rw [OrdSet.mem_filter, OrdSet.mem_filter]
    refine and_congr_left fun hp => ?_
    exact mem_move_of_ne (by simpa using hp)

/-- A move changes nothing about other identifiers. -/
theorem coherentAt_move_of_ne {x : IndexedSet lt} (h : j ≠ i) :
    (x.move k i).CoherentAt j ↔ x.CoherentAt j := by
  simp [CoherentAt, mem_move_of_ne h, move_index, h]

theorem CoherentAt.move {x : IndexedSet lt} (h : x.CoherentAt i) (k : Option κ) :
    (x.move k i).CoherentAt i := by
  cases hi : x.index i with
  | none => rwa [move_of_none hi]
  | some old =>
    intro k'
    rw [mem_move hi, h k', move_index, if_pos rfl, hi, Option.bind_some]
    refine ⟨?_, fun hk => .inl ⟨hk, rfl⟩⟩
    rintro (hk | ⟨hk, hne⟩)
    · exact hk.1
    · cases hk; exact (hne rfl).elim

theorem CoherentAt.moves {x : IndexedSet lt} (h : x.CoherentAt i) (ks : List (Option κ)) :
    (x.moves ks i).CoherentAt i := by
  induction ks generalizing x with
  | nil => exact h
  | cons k ks ih => exact ih (h.move k)

theorem coherentAt_moves_of_ne {x : IndexedSet lt} (h : j ≠ i) (ks : List (Option κ)) :
    (x.moves ks i).CoherentAt j ↔ x.CoherentAt j := by
  induction ks generalizing x with
  | nil => rfl
  | cons k ks ih => rw [moves_cons, ih, coherentAt_move_of_ne h]

theorem coherentAt_put_of_ne {x : IndexedSet lt} (h : j ≠ i) :
    (x.put k i).CoherentAt j ↔ x.CoherentAt j := by
  simp [CoherentAt, mem_put, h]

theorem coherentAt_put_iff {x : IndexedSet lt} (h : x.CoherentAt i) :
    (x.put k i).CoherentAt i ↔ ∀ old, x.index i = some old → old = k := by
  constructor
  · intro hc old hold
    have hk := (hc old).mp (mem_put.mpr (.inr ((h old).mpr hold)))
    simpa [eq_comm] using hk
  · intro ho k'
    rw [mem_put, h k']
    simp only [put_index, if_true, Option.some.injEq, Prod.mk.injEq, and_true]
    exact ⟨fun hk => hk.elim Eq.symm fun hk => (ho _ hk).symm, fun hk => .inl hk.symm⟩

/-! ## Entries left behind -/

/-- Set and index agree on `i` up to one entry that the index does not know. -/
structure StaleAt (x : IndexedSet lt) (i : ι) (old : κ) : Prop where
  mem : ∀ k, (k, i) ∈ x.set ↔ k = old ∨ x.index i = some k
  index_ne : x.index i ≠ some old

omit [DecidableEq ι] [DecidableRel lt] [IsTrans (κ × ι) lt] [Std.Irrefl lt] [Std.Trichotomous lt] in
theorem StaleAt.not_coherentAt {x : IndexedSet lt} (h : x.StaleAt i old) : ¬ x.CoherentAt i :=
  fun hc => h.index_ne ((hc old).mp ((h.mem old).mpr (.inl rfl)))

theorem CoherentAt.put_staleAt {x : IndexedSet lt} (h : x.CoherentAt i)
    (hold : x.index i = some old) (hne : old ≠ k) : (x.put k i).StaleAt i old where
  mem k' := by
    rw [mem_put, h k', hold]
    simp only [Prod.mk.injEq, and_true, Option.some.injEq, put_index, if_true]
    exact ⟨fun h => h.symm.imp Eq.symm Eq.symm, fun h => (h.imp Eq.symm Eq.symm).symm⟩
  index_ne := by simpa [eq_comm] using hne

/-- A move to the key of the entry left behind joins the two. -/
theorem StaleAt.move_self {x : IndexedSet lt} (h : x.StaleAt i old) (hi : x.index i = some c) :
    (x.move (some old) i).CoherentAt i := by
  intro k'
  rw [mem_move hi, h.mem k', move_index, if_pos rfl, hi]
  simp only [Option.some.injEq, ne_eq, Prod.mk.injEq, and_true, Option.bind_some]
  constructor
  · rintro (hk | ⟨hk | hk, hne⟩)
    · exact hk
    · exact hk.symm
    · exact (hne hk.symm).elim
  · exact fun hk => .inl hk

theorem StaleAt.move_of_ne {x : IndexedSet lt} (h : x.StaleAt i old) (hne : k ≠ some old) :
    (x.move k i).StaleAt i old := by
  cases hi : x.index i with
  | none => rwa [move_of_none hi]
  | some c =>
    have hc : c ≠ old := fun e => h.index_ne (e ▸ hi)
    refine ⟨fun k' => ?_, by simpa [move_index, hi] using hne⟩
    rw [mem_move hi, h.mem k', move_index, if_pos rfl, hi, Option.bind_some]
    simp only [and_true, Option.some.injEq, ne_eq, Prod.mk.injEq]
    constructor
    · rintro (hk | ⟨hk | hk, hne⟩)
      · exact .inr hk
      · exact .inl hk
      · exact (hne hk.symm).elim
    · rintro (rfl | hk)
      · exact .inr ⟨.inl rfl, fun e => hc e.symm⟩
      · exact .inl hk

/-- **Repair.** With an entry left behind and the identifier indexed, a sequence of moves restores
agreement exactly when it reaches that entry's key before it removes the identifier. -/
theorem StaleAt.coherentAt_moves_iff {x : IndexedSet lt} (h : x.StaleAt i old)
    (hi : x.index i = some c) (ks : List (Option κ)) :
    (x.moves ks i).CoherentAt i ↔ some old ∈ ks.takeWhile (·.isSome) := by
  induction ks generalizing x c with
  | nil => simpa using h.not_coherentAt
  | cons k ks ih =>
    rw [moves_cons]
    cases k with
    | none =>
      have hn : (x.move none i).index i = none := by simp [move_index, hi]
      rw [moves_of_none hn]
      simpa using (h.move_of_ne (by simp)).not_coherentAt
    | some k =>
      by_cases hk : k = old
      · subst hk
        exact iff_of_true ((h.move_self hi).moves ks) (by simp)
      · have hk' : (some k : Option κ) ≠ some old := by simpa using hk
        rw [ih (h.move_of_ne hk') (c := k) (by simp [move_index, hi])]
        simp [Ne.symm hk]

/-- When a `put` followed by moves keeps agreement. -/
theorem coherentAt_moves_put_iff {x : IndexedSet lt} (h : x.CoherentAt i) (ks : List (Option κ)) :
    ((x.put k i).moves ks i).CoherentAt i ↔
      ∀ old, x.index i = some old → old = k ∨ some old ∈ ks.takeWhile (·.isSome) := by
  by_cases hput : (x.put k i).CoherentAt i
  · refine iff_of_true (hput.moves ks) fun old hold => .inl ?_
    exact (coherentAt_put_iff h).mp hput old hold
  · rw [coherentAt_put_iff h] at hput
    simp only [not_forall] at hput
    obtain ⟨old, hold, hne⟩ := hput
    rw [(h.put_staleAt hold hne).coherentAt_moves_iff (c := k) (by simp)]
    simp [hold, hne]

end
end IndexedSet

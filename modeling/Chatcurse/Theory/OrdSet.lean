import Mathlib.Order.RelClasses
import Mathlib.Data.List.Nodup
import Mathlib.Data.List.Perm.Basic

/-!
# Ordered sets under a comparator

An ordered container in the manner of `std::set`: the elements in iteration order, kept strictly
increasing for a comparator `lt`. Two elements are equivalent when neither is below the other;
insertion of an element that has an equivalent one does nothing, and erasure of a key removes what
is equivalent to it. Nothing here asks `lt` to separate distinct elements: the lemmas that need
that (`mem_insert`, `mem_erase`) assume `Std.Trichotomous lt`.
-/

universe u

/-- A set of elements listed in the order of `lt`. -/
@[ext] structure OrdSet {α : Type u} (lt : α → α → Prop) where
  elems : List α
  sorted : elems.Pairwise lt

namespace OrdSet

variable {α : Type u} {lt : α → α → Prop}

instance : Membership α (OrdSet lt) := ⟨fun s a => a ∈ s.elems⟩

theorem mem_def {s : OrdSet lt} : a ∈ s ↔ a ∈ s.elems := .rfl

instance [DecidableEq α] (a : α) (s : OrdSet lt) : Decidable (a ∈ s) :=
  inferInstanceAs (Decidable (a ∈ s.elems))

instance : EmptyCollection (OrdSet lt) := ⟨⟨[], .nil⟩⟩

instance : Inhabited (OrdSet lt) := ⟨∅⟩

@[simp] theorem not_mem_empty (a : α) : a ∉ (∅ : OrdSet lt) := List.not_mem_nil

def size (s : OrdSet lt) : Nat := s.elems.length

@[simp] theorem size_empty : (∅ : OrdSet lt).size = 0 := rfl

/-- The iterator `n` steps after the first element: what is left to visit from there. Stepping
past the end is undefined. -/
def advance (s : OrdSet lt) (n : Nat) : Option (List α) :=
  if n ≤ s.size then some (s.elems.drop n) else none

theorem advance_eq_some {s : OrdSet lt} :
    s.advance n = some rest ↔ n ≤ s.size ∧ rest = s.elems.drop n := by
  unfold advance; split <;> simp_all [eq_comm]

section insert
variable [DecidableRel lt]

/-- Insertion into the iteration order, doing nothing on an equivalent element. -/
def insertList (lt : α → α → Prop) [DecidableRel lt] (a : α) : List α → List α
  | [] => [a]
  | b :: l => if lt a b then a :: b :: l else if lt b a then b :: insertList lt a l else b :: l

theorem mem_of_mem_insertList {l : List α} (h : b ∈ insertList lt a l) : b = a ∨ b ∈ l := by
  induction l with
  | nil => exact .inl (List.mem_singleton.mp h)
  | cons c l ih =>
    unfold insertList at h
    split at h
    · exact List.mem_cons.mp h
    split at h
    · rcases List.mem_cons.mp h with rfl | h
      · exact .inr List.mem_cons_self
      · exact (ih h).imp_right (List.mem_cons_of_mem _)
    · exact .inr h

theorem insertList_subset {l : List α} (h : b ∈ l) : b ∈ insertList lt a l := by
  induction l with
  | nil => cases h
  | cons c l ih =>
    unfold insertList
    split
    · exact List.mem_cons_of_mem _ h
    split
    · rcases List.mem_cons.mp h with rfl | h
      · exact List.mem_cons_self
      · exact List.mem_cons_of_mem _ (ih h)
    · exact h

theorem insertList_sorted [IsTrans α lt] {l : List α} (h : l.Pairwise lt) :
    (insertList lt a l).Pairwise lt := by
  induction l with
  | nil => exact List.pairwise_singleton ..
  | cons c l ih =>
    obtain ⟨hc, hl⟩ := List.pairwise_cons.mp h
    unfold insertList
    split
    next hac =>
      refine List.pairwise_cons.mpr ⟨fun b hb => ?_, h⟩
      rcases List.mem_cons.mp hb with rfl | hb
      · exact hac
      · exact IsTrans.trans _ _ _ hac (hc b hb)
    split
    next hca =>
      refine List.pairwise_cons.mpr ⟨fun b hb => ?_, ih hl⟩
      rcases mem_of_mem_insertList hb with rfl | hb
      · exact hca
      · exact hc b hb
    · exact h

theorem insertList_of_equiv [IsTrans α lt] {l : List α} (h : l.Pairwise lt) (hb : b ∈ l)
    (h₁ : ¬ lt a b) (h₂ : ¬ lt b a) : insertList lt a l = l := by
  induction l with
  | nil => cases hb
  | cons c l ih =>
    obtain ⟨hc, hl⟩ := List.pairwise_cons.mp h
    unfold insertList
    rcases List.mem_cons.mp hb with rfl | hb
    · rw [if_neg h₁, if_neg h₂]
    · rw [if_neg fun hac => h₁ (IsTrans.trans _ _ _ hac (hc b hb)), ih hl hb, ite_self]

/-- With no equivalent element, insertion adds one element and keeps the others. -/
theorem insertList_perm {l : List α} (h : ∀ b ∈ l, lt a b ∨ lt b a) :
    (insertList lt a l).Perm (a :: l) := by
  induction l with
  | nil => rfl
  | cons c l ih =>
    unfold insertList
    split
    · rfl
    next hac =>
      rw [if_pos ((h c List.mem_cons_self).resolve_left hac)]
      have hl := ih fun b hb => h b (List.mem_cons_of_mem _ hb)
      exact (hl.cons c).trans (.swap ..)

def insert [IsTrans α lt] (s : OrdSet lt) (a : α) : OrdSet lt where
  elems := insertList lt a s.elems
  sorted := insertList_sorted s.sorted

variable [IsTrans α lt]

theorem mem_of_mem_insert {s : OrdSet lt} (h : b ∈ s.insert a) : b = a ∨ b ∈ s :=
  mem_of_mem_insertList h

theorem mem_insert_of_mem {s : OrdSet lt} (h : b ∈ s) : b ∈ s.insert a :=
  insertList_subset h

/-- An equivalent element wins over the one to insert. -/
theorem insert_of_equiv {s : OrdSet lt} (hb : b ∈ s) (h₁ : ¬ lt a b) (h₂ : ¬ lt b a) :
    s.insert a = s :=
  OrdSet.ext (insertList_of_equiv s.sorted hb h₁ h₂)

theorem insert_perm {s : OrdSet lt} (h : ∀ b ∈ s, lt a b ∨ lt b a) :
    (s.insert a).elems.Perm (a :: s.elems) := insertList_perm h

theorem self_mem_insert {s : OrdSet lt} (h : ∀ b ∈ s, lt a b ∨ lt b a) : a ∈ s.insert a :=
  (insert_perm h).mem_iff.mpr List.mem_cons_self

/-- After an insertion some element stands for the inserted one. -/
theorem exists_equiv_insert [Std.Irrefl lt] (s : OrdSet lt) (a : α) :
    ∃ b ∈ s.insert a, ¬ lt a b ∧ ¬ lt b a := by
  by_cases h : ∀ b ∈ s, lt a b ∨ lt b a
  · exact ⟨a, self_mem_insert h, Std.Irrefl.irrefl a, Std.Irrefl.irrefl a⟩
  · simp only [not_forall, not_or] at h
    obtain ⟨b, hb, h⟩ := h
    exact ⟨b, mem_insert_of_mem hb, h⟩

theorem size_insert {s : OrdSet lt} (h : ∀ b ∈ s, lt a b ∨ lt b a) :
    (s.insert a).size = s.size + 1 := (insert_perm h).length_eq

theorem size_le_size_insert {s : OrdSet lt} : s.size ≤ (s.insert a).size := by
  by_cases h : ∀ b ∈ s, lt a b ∨ lt b a
  · rw [size_insert h]; exact Nat.le_succ _
  · simp only [not_forall, not_or] at h
    obtain ⟨b, hb, h₁, h₂⟩ := h
    exact Nat.le_of_eq (congrArg size (insert_of_equiv hb h₁ h₂)).symm

end insert

/-- Removal of every element equivalent to `a`. -/
def erase [DecidableRel lt] (s : OrdSet lt) (a : α) : OrdSet lt where
  elems := s.elems.filter fun b => lt a b ∨ lt b a
  sorted := s.sorted.filter _

/-- The elements that satisfy `p`, in their order. -/
def filter (s : OrdSet lt) (p : α → Bool) : OrdSet lt := ⟨s.elems.filter p, s.sorted.filter p⟩

@[simp] theorem mem_filter {s : OrdSet lt} {p : α → Bool} : a ∈ s.filter p ↔ a ∈ s ∧ p a :=
  List.mem_filter

/-! ## Iteration order -/

theorem nodup [Std.Irrefl lt] (s : OrdSet lt) : s.elems.Nodup :=
  List.Pairwise.imp (fun {a b} (h : lt a b) => by rintro rfl; exact Std.Irrefl.irrefl _ h) s.sorted

/-- Two elements of a set that are equivalent are one. -/
theorem eq_of_equiv {s : OrdSet lt} (ha : a ∈ s) (hb : b ∈ s) (h₁ : ¬ lt a b) (h₂ : ¬ lt b a) :
    a = b := by
  obtain ⟨l, hl⟩ := s
  change a ∈ l at ha
  change b ∈ l at hb
  induction hl with
  | nil => cases ha
  | cons hc _ ih =>
    rcases List.mem_cons.mp ha with rfl | ha'
    · exact (List.mem_cons.mp hb).elim Eq.symm fun hb => (h₁ (hc _ hb)).elim
    · rcases List.mem_cons.mp hb with rfl | hb'
      · exact (h₂ (hc _ ha')).elim
      · exact ih ha' hb'

/-- A set is determined by its elements. -/
theorem ext_mem [Std.Irrefl lt] [IsTrans α lt] {s t : OrdSet lt} (h : ∀ a, a ∈ s ↔ a ∈ t) :
    s = t := by
  refine OrdSet.ext (List.Perm.eq_of_pairwise (fun a b _ _ hab hba => ?_) s.sorted t.sorted ?_)
  · exact (Std.Irrefl.irrefl _ (IsTrans.trans _ _ _ hab hba : lt a a)).elim
  · exact (List.perm_ext_iff_of_nodup s.nodup t.nodup).mpr h

/-- Iteration visits what is below an element of the set, the element, and what is above it. -/
theorem elems_eq_of_mem [DecidableRel lt] [Std.Irrefl lt] [IsTrans α lt] {s : OrdSet lt}
    (h : a ∈ s) :
    s.elems = s.elems.filter (lt · a) ++ a :: s.elems.filter (lt a ·) := by
  obtain ⟨l, hl⟩ := s
  change a ∈ l at h
  change l = _
  have hirrefl : ¬lt a a := Std.Irrefl.irrefl a
  induction hl with
  | nil => cases h
  | @cons b l hb hl ih =>
    rcases List.mem_cons.mp h with rfl | ha
    · have hbelow : l.filter (lt · a) = [] := by
        rw [List.filter_eq_nil_iff]
        intro c hc hlt
        have hca : lt c a := by simpa using hlt
        exact hirrefl (IsTrans.trans _ _ _ (hb c hc) hca)
      have habove : l.filter (lt a ·) = l := by
        rw [List.filter_eq_self]
        intro c hc
        simpa using hb c hc
      simp [hirrefl, hbelow, habove]
    · have hba : lt b a := hb a ha
      have hab : ¬lt a b := fun hab => hirrefl (IsTrans.trans _ _ _ hab hba)
      have hl := ih ha
      rw [List.filter_cons_of_pos (by simpa using hba),
        List.filter_cons_of_neg (by simpa using hab), List.cons_append, ← hl]

/-- The rank of an element is the number of elements below it. -/
theorem getElem?_of_mem [DecidableRel lt] [Std.Irrefl lt] [IsTrans α lt] {s : OrdSet lt}
    (h : a ∈ s) : s.elems[(s.elems.filter (lt · a)).length]? = some a := by
  have heq := congrArg (·[(s.elems.filter (lt · a)).length]?) (elems_eq_of_mem h)
  apply heq.trans
  rw [List.getElem?_append_right (Nat.le_refl _), Nat.sub_self]
  rfl

/-! ## Comparators that separate distinct elements -/

section
variable [Std.Trichotomous lt]

theorem lt_or_lt_of_ne {a b : α} (h : a ≠ b) : lt a b ∨ lt b a := by
  by_contra hn
  exact h (Std.Trichotomous.trichotomous a b (fun h => hn (.inl h)) fun h => hn (.inr h))

variable [Std.Irrefl lt]

theorem not_mem_iff {s : OrdSet lt} : a ∉ s ↔ ∀ b ∈ s, lt a b ∨ lt b a := by
  refine ⟨fun h b hb => lt_or_lt_of_ne fun e => h (e ▸ hb), fun h ha => ?_⟩
  rcases h a ha with h | h <;> exact Std.Irrefl.irrefl _ h

variable [DecidableRel lt]

@[simp] theorem mem_erase {s : OrdSet lt} : b ∈ s.erase a ↔ b ∈ s ∧ b ≠ a := by
  simp only [erase, mem_def, List.mem_filter, decide_eq_true_eq]
  refine and_congr_right fun _ => ⟨?_, fun h => lt_or_lt_of_ne (Ne.symm h)⟩
  rintro (h | h) rfl <;> exact Std.Irrefl.irrefl _ h

variable [IsTrans α lt]

@[simp] theorem mem_insert {s : OrdSet lt} : b ∈ s.insert a ↔ b = a ∨ b ∈ s := by
  refine ⟨mem_of_mem_insert, ?_⟩
  rintro (rfl | h)
  · by_cases hb : b ∈ s
    · exact mem_insert_of_mem hb
    · exact self_mem_insert (not_mem_iff.mp hb)
  · exact mem_insert_of_mem h

theorem erase_of_not_mem {s : OrdSet lt} (h : a ∉ s) : s.erase a = s :=
  ext_mem fun b => by
    rw [mem_erase]
    exact and_iff_left_of_imp fun hb e => h (e ▸ hb)

theorem insert_erase {s : OrdSet lt} (h : a ∈ s) : (s.erase a).insert a = s :=
  ext_mem fun b => by
    rw [mem_insert, mem_erase]
    by_cases e : b = a
    · simp [e, h]
    · simp [e]

theorem size_erase {s : OrdSet lt} (h : a ∈ s) : (s.erase a).size + 1 = s.size := by
  conv_rhs => rw [← insert_erase h]
  exact (size_insert (not_mem_iff.mp fun h => (mem_erase.mp h).2 rfl)).symm

end
end OrdSet

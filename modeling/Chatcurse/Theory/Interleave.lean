import Chatcurse.Theory.Hamming
import Mathlib.Algebra.BigOperators.Group.List.Lemmas
import Mathlib.Algebra.Ring.Nat
import Mathlib.Data.List.GetD

/-!
# Interleaved blocks

A word is cut into slices of given lengths, which the slices one after another are again
(`flatten_slices`). Blocks are written by rows, the first letter of each block, then the second of
each, where some blocks can skip a row. The letters of one block are found again by their places
(`column_map`), in the order of the rows (`filter_places`).
-/

universe u

namespace Interleave

variable {α : Type u}

/-! ## Slices -/

def slices : List Nat → List α → List (List α)
  | [], _ => []
  | n :: lens, l => l.take n :: slices lens (l.drop n)

@[simp] theorem length_slices (lens : List Nat) (l : List α) :
    (slices lens l).length = lens.length := by
  induction lens generalizing l with
  | nil => rfl
  | cons n lens ih => exact congrArg (· + 1) (ih _)

theorem flatten_slices {lens : List Nat} {l : List α} (h : l.length = lens.sum) :
    (slices lens l).flatten = l := by
  induction lens generalizing l with
  | nil => exact (List.length_eq_zero_iff.mp h).symm
  | cons n lens ih =>
    rw [List.sum_cons] at h
    have hrest : (l.drop n).length = lens.sum := by
      rw [List.length_drop]
      omega
    rw [slices, List.flatten_cons, ih hrest, List.take_append_drop]

theorem length_getD_slices {lens : List Nat} {l : List α} (h : l.length = lens.sum) (j : Nat) :
    ((slices lens l).getD j []).length = lens.getD j 0 := by
  induction lens generalizing l j with
  | nil => rfl
  | cons n lens ih =>
    rw [List.sum_cons] at h
    cases j with
    | zero =>
      simp only [slices, List.getD_cons_zero, List.length_take]
      omega
    | succ j =>
      have hrest : (l.drop n).length = lens.sum := by
        rw [List.length_drop]
        omega
      exact ih hrest j

/-! ## Rows -/

/-- The places by rows, each the row and the block. -/
def places (rows cols : Nat) (skip : Nat → Nat → Bool) : List (Nat × Nat) :=
  (List.range rows).flatMap fun i => ((List.range cols).filter fun j => !skip i j).map (i, ·)

/-- The letters of a word that are at the places of a block. -/
def column (order : List (Nat × Nat)) (j : Nat) (w : List α) : List α :=
  ((order.zip w).filter fun p => p.1.2 = j).map (·.2)

theorem column_map (order : List (Nat × Nat)) (f : Nat × Nat → α) (j : Nat) :
    column order j (order.map f) = (order.filter (·.2 = j)).map f := by
  induction order with
  | nil => rfl
  | cons p order ih =>
    rw [column] at ih ⊢
    rw [List.map_cons, List.zip_cons_cons, List.filter_cons, List.filter_cons]
    split
    · rw [List.map_cons, List.map_cons, ih]
    · exact ih

theorem length_column {order : List (Nat × Nat)} {w : List α} (h : w.length = order.length)
    (j : Nat) : (column order j w).length = (order.filter (·.2 = j)).length := by
  induction order generalizing w with
  | nil => rfl
  | cons p order ih =>
    cases w with
    | nil => cases h
    | cons a w =>
      have hrest := ih (Nat.succ.inj h)
      rw [column] at hrest ⊢
      rw [List.zip_cons_cons, List.filter_cons, List.filter_cons]
      split
      · rw [List.map_cons, List.length_cons, List.length_cons, hrest]
      · exact hrest

theorem dist_column_le [DecidableEq α] (order : List (Nat × Nat)) (j : Nat) (w w' : List α) :
    Hamming.dist (column order j w) (column order j w') ≤ Hamming.dist w w' := by
  induction order generalizing w w' with
  | nil => simp [column, Hamming.dist]
  | cons p order ih =>
    cases w with
    | nil => simp [column, Hamming.dist]
    | cons a w =>
      cases w' with
      | nil => simp [column, Hamming.dist]
      | cons a' w' =>
        have hrest := ih w w'
        rw [column, column] at hrest ⊢
        rw [List.zip_cons_cons, List.zip_cons_cons, List.filter_cons, List.filter_cons,
          Hamming.dist]
        split
        · rw [List.map_cons, List.map_cons, Hamming.dist]
          exact Nat.add_le_add_left hrest _
        · exact hrest.trans (Nat.le_add_left _ _)

theorem mem_places : p ∈ places rows cols skip ↔
    p.1 < rows ∧ p.2 < cols ∧ skip p.1 p.2 = false := by
  obtain ⟨i, j⟩ := p
  simp [places, and_assoc]

theorem filter_row (cols i j : Nat) (skip : Nat → Nat → Bool) (hj : j < cols) :
    ((((List.range cols).filter fun j => !skip i j).map (i, ·)).filter fun p => p.2 = j) =
      if skip i j then [] else [(i, j)] := by
  have hsame : (List.range cols).filter (· = j) = [j] := by
    rw [List.filter_eq, List.count_eq_one_of_mem List.nodup_range (List.mem_range.mpr hj)]
    rfl
  have hcomm : ((List.range cols).filter fun k => !skip i k).filter (· = j) =
      ((List.range cols).filter (· = j)).filter fun k => !skip i k := by
    rw [List.filter_filter, List.filter_filter]
    exact List.filter_congr fun k _ => Bool.and_comm _ _
  have hfilter : (fun p : Nat × Nat => decide (p.2 = j)) ∘ (i, ·) = (decide <| · = j) := rfl
  rw [List.filter_map, hfilter, hcomm, hsame, List.filter_cons, List.filter_nil]
  cases skip i j <;> rfl

/-- The places of a block in the order of the rows. -/
theorem filter_places (hj : j < cols) : (places rows cols skip).filter (·.2 = j) =
    ((List.range rows).filter fun i => !skip i j).map (·, j) := by
  rw [places, List.filter_flatMap]
  induction List.range rows with
  | nil => rfl
  | cons i is ih =>
    rw [List.flatMap_cons, ih, filter_row cols i j skip hj, List.filter_cons]
    cases skip i j <;> rfl

/-- The places are those of the blocks together. -/
theorem length_places (rows cols : Nat) (skip : Nat → Nat → Bool) :
    (places rows cols skip).length =
      ((List.range cols).map fun j =>
        ((List.range rows).filter fun i => !skip i j).length).sum := by
  induction rows with
  | zero => simp [places]
  | succ rows ih =>
    have hrow : ∀ i, ((List.range cols).filter fun j => !skip i j).length =
        ((List.range cols).map fun j => if skip i j then 0 else 1).sum := by
      intro i
      induction List.range cols with
      | nil => rfl
      | cons j js ih =>
        rw [List.filter_cons, List.map_cons, List.sum_cons, ← ih]
        cases skip i j
        · exact Nat.add_comm _ _
        · exact (Nat.zero_add _).symm
    have hlast : (places (rows + 1) cols skip).length =
        (places rows cols skip).length +
          ((List.range cols).filter fun j => !skip rows j).length := by
      rw [places, List.range_succ, List.flatMap_append, List.length_append]
      simp [places]
    rw [hlast, ih, hrow, ← List.sum_map_add]
    congr 1
    refine List.map_congr_left fun j _ => ?_
    rw [List.range_succ, List.filter_append, List.length_append, List.filter_cons, List.filter_nil]
    cases skip rows j <;> rfl

/-! ## Letters -/

theorem map_getD_range (l : List α) (a : α) : (List.range l.length).map (l.getD · a) = l := by
  refine List.ext_getElem (by simp) fun i hi hi' => ?_
  rw [List.getElem_map, List.getElem_range, List.getD_eq_getElem _ _ hi']

/-- The letters around one that is skipped. -/
theorem map_getD_skip (l m : List α) (x a : α) :
    ((List.range (l.length + 1 + m.length)).filter fun i => !decide (i = l.length)).map
      ((l ++ [x] ++ m).getD · a) = l ++ m := by
  have hlen : (l ++ [x]).length = l.length + 1 := by simp
  have hbefore : (List.range l.length).filter (fun i => !decide (i = l.length)) =
      List.range l.length := by
    refine List.filter_eq_self.mpr fun i hi => ?_
    have hlt := List.mem_range.mp hi
    simp only [Bool.not_eq_true', decide_eq_false_iff_not]
    omega
  have hafter : ((List.range m.length).map (l.length + 1 + ·)).filter
      (fun i => !decide (i = l.length)) = (List.range m.length).map (l.length + 1 + ·) := by
    refine List.filter_eq_self.mpr fun i hi => ?_
    obtain ⟨k, -, rfl⟩ := List.mem_map.mp hi
    simp only [Bool.not_eq_true', decide_eq_false_iff_not]
    omega
  have hl : (List.range l.length).map ((l ++ [x] ++ m).getD · a) = l := by
    refine Eq.trans (List.map_congr_left fun i hi => ?_) (map_getD_range l a)
    have hlt := List.mem_range.mp hi
    rw [List.append_assoc, List.getD_append _ _ _ _ hlt]
  have hm : (List.range m.length).map
      (((l ++ [x] ++ m).getD · a) ∘ (l.length + 1 + ·)) = m := by
    refine Eq.trans (List.map_congr_left fun i hi => ?_) (map_getD_range m a)
    rw [Function.comp_apply, List.getD_append_right _ _ _ _ (by omega), hlen,
      Nat.add_sub_cancel_left]
  rw [List.range_add, List.range_succ, List.filter_append, List.filter_append, hbefore, hafter,
    List.map_append, List.map_append, hl, List.map_map, hm, List.filter_cons, List.filter_nil]
  simp

end Interleave

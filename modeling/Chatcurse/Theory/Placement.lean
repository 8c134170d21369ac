import Mathlib.Data.List.Nodup
import Mathlib.Logic.Function.Basic

/-!
# Letters at the free places of an order

Letters are put one after another at the free ones among some places that come in a fixed order. If
the order names no place twice, the letters are read from the free places in the same order
(`place_spec`), and nothing else is changed.
-/

universe u v

namespace Placement

variable {ι : Type u} {α : Type v} [DecidableEq ι]

/-- One place of the order, with the number of letters that have been put. -/
def put (free : ι → Bool) (n : Nat) (letter : Nat → α) (s : (ι → α) × Nat) (p : ι) :
    (ι → α) × Nat :=
  if free p && s.2 < n then (Function.update s.1 p (letter s.2), s.2 + 1) else s

def place (free : ι → Bool) (n : Nat) (letter : Nat → α) (order : List ι) (v : ι → α) :
    (ι → α) × Nat :=
  order.foldl (put free n letter) (v, 0)

theorem foldl_put (free : ι → Bool) {n : Nat} (letter : Nat → α) {order : List ι}
    (h : order.Nodup) (v : ι → α) {i : Nat} (hi : i ≤ n) :
    (order.foldl (put free n letter) (v, i)).2 = min n (i + (order.filter free).length) ∧
      (∀ p, p ∉ order.filter free → (order.foldl (put free n letter) (v, i)).1 p = v p) ∧
      ((order.filter free).map (order.foldl (put free n letter) (v, i)).1).take (n - i) =
        (List.range' i (min (n - i) (order.filter free).length)).map letter := by
  induction order generalizing v i with
  | nil => simp [hi]
  | cons p order ih =>
    obtain ⟨hp, horder⟩ := List.nodup_cons.mp h
    rw [List.foldl_cons]
    by_cases hfree : free p = true
    · rw [List.filter_cons_of_pos hfree]
      rcases Nat.lt_or_ge i n with hlt | hge
      · have hput : put free n letter (v, i) p = (Function.update v p (letter i), i + 1) := by
          simp [put, hfree, hlt]
        obtain ⟨hcount, hframe, hread⟩ := ih horder (Function.update v p (letter i)) hlt
        have hhere := hframe p fun hmem => hp (List.mem_filter.mp hmem).1
        rw [Function.update_self] at hhere
        have hn : n - i = n - (i + 1) + 1 := by omega
        have hmin : min (n - i) ((order.filter free).length + 1) =
            min (n - (i + 1)) (order.filter free).length + 1 := by omega
        rw [hput, List.length_cons]
        refine ⟨by rw [hcount]; omega, fun q hq => ?_, ?_⟩
        · obtain ⟨hqp, hq⟩ := not_or.mp (mt List.mem_cons.mpr hq)
          rw [hframe q hq, Function.update_of_ne hqp]
        · rw [List.map_cons, hhere, hn, List.take_succ_cons, hread, ← hn, hmin, List.range'_succ,
            List.map_cons]
      · obtain rfl : i = n := by omega
        have hput : put free i letter (v, i) p = (v, i) := by simp [put]
        obtain ⟨hcount, hframe, -⟩ := ih horder v hi
        rw [hput]
        refine ⟨by rw [hcount, List.length_cons]; omega,
          fun q hq => hframe q (List.not_mem_of_not_mem_cons hq), by simp⟩
    · have hput : put free n letter (v, i) p = (v, i) := by simp [put, hfree]
      rw [hput, List.filter_cons_of_neg hfree]
      exact ih horder v hi

/-- **Letters that are put** are all there if there are places for them, are read in their order, and
nothing else is changed. -/
theorem place_spec {free : ι → Bool} {n : Nat} (letter : Nat → α) {order : List ι}
    (h : order.Nodup) (v : ι → α) (hn : n ≤ (order.filter free).length) :
    (place free n letter order v).2 = n ∧
      (∀ p, p ∉ order.filter free → (place free n letter order v).1 p = v p) ∧
      ((order.filter free).map (place free n letter order v).1).take n =
        (List.range n).map letter := by
  obtain ⟨hcount, hframe, hread⟩ := foldl_put free letter h v (Nat.zero_le n)
  rw [Nat.zero_add, Nat.min_eq_left hn] at hcount
  rw [Nat.sub_zero, Nat.min_eq_left hn, ← List.range_eq_range'] at hread
  exact ⟨hcount, hframe, hread⟩

end Placement

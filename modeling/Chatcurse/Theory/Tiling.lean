import Mathlib.Algebra.Ring.Nat
import Mathlib.Data.Finset.Prod
import Mathlib.Data.Finset.Union
import Mathlib.Order.Interval.Finset.Nat

/-!
# Rectangles in a square

The cells of a square that are in none of the given rectangles, and their number if the rectangles
do not overlap (`card_uncovered`). A rectangle is cut along a column and a row so that parts of
different rectangles, the column and the row do not overlap (`mem_cut`).
-/

namespace Tiling

/-- The cells with `x0 ≤ x < x1` and `y0 ≤ y < y1`. -/
structure Rect where
  x0 : Nat
  x1 : Nat
  y0 : Nat
  y1 : Nat
  deriving DecidableEq

namespace Rect

def Mem (r : Rect) (x y : Nat) : Prop := (r.x0 ≤ x ∧ x < r.x1) ∧ r.y0 ≤ y ∧ y < r.y1

instance (r : Rect) (x y : Nat) : Decidable (r.Mem x y) := inferInstanceAs (Decidable (_ ∧ _))

def area (r : Rect) : Nat := (r.x1 - r.x0) * (r.y1 - r.y0)

/-- One of the rectangles is past the other. -/
def Apart (r s : Rect) : Prop := r.x1 ≤ s.x0 ∨ s.x1 ≤ r.x0 ∨ r.y1 ≤ s.y0 ∨ s.y1 ≤ r.y0

instance (r s : Rect) : Decidable (Apart r s) := inferInstanceAs (Decidable (_ ∨ _))

def cells (r : Rect) : Finset (Nat × Nat) := Finset.Ico r.x0 r.x1 ×ˢ Finset.Ico r.y0 r.y1

theorem mem_cells {r : Rect} {p : Nat × Nat} : p ∈ r.cells ↔ r.Mem p.1 p.2 := by
  rw [cells, Finset.mem_product, Finset.mem_Ico, Finset.mem_Ico, Mem]

theorem card_cells (r : Rect) : r.cells.card = r.area := by
  rw [cells, Finset.card_product, Nat.card_Ico, Nat.card_Ico, area]

/-- The parts of a rectangle left and right of the column `a`, above and below the row `b`. -/
def cut (a b : Nat) (r : Rect) : List Rect :=
  [⟨r.x0, min r.x1 a, r.y0, min r.y1 b⟩, ⟨max r.x0 (a + 1), r.x1, r.y0, min r.y1 b⟩,
    ⟨r.x0, min r.x1 a, max r.y0 (b + 1), r.y1⟩, ⟨max r.x0 (a + 1), r.x1, max r.y0 (b + 1), r.y1⟩]

theorem mem_cut {r : Rect} : (∃ s ∈ r.cut a b, s.Mem x y) ↔ r.Mem x y ∧ x ≠ a ∧ y ≠ b := by
  simp only [cut, List.mem_cons, List.not_mem_nil, or_false, exists_eq_or_imp, exists_eq_left, Mem]
  omega

end Rect

/-- The cells of a square. -/
def square (n : Nat) : Finset (Nat × Nat) := Finset.range n ×ˢ Finset.range n

def covered : List Rect → Finset (Nat × Nat)
  | [] => ∅
  | r :: rs => r.cells ∪ covered rs

theorem mem_covered {rs : List Rect} {p : Nat × Nat} :
    p ∈ covered rs ↔ ∃ r ∈ rs, r.Mem p.1 p.2 := by
  induction rs with
  | nil => simp [covered]
  | cons r rs ih => rw [covered, Finset.mem_union, ih, Rect.mem_cells, List.exists_mem_cons_iff]

theorem card_covered {rs : List Rect} (h : rs.Pairwise Rect.Apart) :
    (covered rs).card = (rs.map Rect.area).sum := by
  induction rs with
  | nil => rfl
  | cons r rs ih =>
    obtain ⟨hr, hrs⟩ := List.pairwise_cons.mp h
    have hdisj : Disjoint r.cells (covered rs) := by
      refine Finset.disjoint_left.mpr fun p hp hq => ?_
      obtain ⟨s, hs, hmem⟩ := mem_covered.mp hq
      have hapart := hr s hs
      have hmem' := Rect.mem_cells.mp hp
      simp only [Rect.Apart, Rect.Mem] at hapart hmem hmem'
      omega
    rw [covered, Finset.card_union_of_disjoint hdisj, Rect.card_cells, ih hrs, List.map_cons,
      List.sum_cons]

/-- **The uncovered cells** of a square. -/
theorem card_uncovered {rs : List Rect} (h : rs.Pairwise Rect.Apart)
    (hin : ∀ r ∈ rs, r.x1 ≤ n ∧ r.y1 ≤ n) :
    ((square n).filter fun p => ¬∃ r ∈ rs, r.Mem p.1 p.2).card + (rs.map Rect.area).sum =
      n * n := by
  have hsub : covered rs ⊆ square n := by
    intro p hp
    obtain ⟨r, hr, hmem⟩ := mem_covered.mp hp
    obtain ⟨hx, hy⟩ := hin r hr
    simp only [Rect.Mem] at hmem
    simp only [square, Finset.mem_product, Finset.mem_range]
    omega
  have hfilter : (square n).filter (fun p => ¬∃ r ∈ rs, r.Mem p.1 p.2) = square n \ covered rs := by
    ext p
    rw [Finset.mem_filter, Finset.mem_sdiff, mem_covered]
  have hsquare : (square n).card = n * n := by
    rw [square, Finset.card_product, Finset.card_range]
  have hle := Finset.card_le_card hsub
  rw [hfilter, Finset.card_sdiff_of_subset hsub, hsquare, card_covered h]
  rw [hsquare, card_covered h] at hle
  omega

end Tiling

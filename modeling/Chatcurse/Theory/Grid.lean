import Mathlib.Data.List.Basic

/-!
# Writing text into a grid of cells

A grid of `rows` by `cols` cells, and the writing of a text at a place in it as a terminal does it:
from left to right, on to the next row past the right margin; a line feed clears the rest of its row
and goes on in the next one. Nothing is written below the last row.

The cells of its own row that a text leaves are its `line`, and after that blanks or what was there
(`write_own`). A text that `Stays` on its row leaves the other rows alone (`write_of_stays`); one
that does not decides the first cell of the next row, whatever that was (`exists_write_below`).
-/

universe u

/-- A cell for each row and column. -/
abbrev Grid (α : Type u) := Nat → Nat → α

namespace Grid

/-- What a text consists of. -/
inductive Item (α : Type u) where
  | put (a : α)
  | feed

variable {α : Type u}

def Item.isFeed : Item α → Bool
  | put _ => false
  | feed => true

def set (g : Grid α) (y x : Nat) (a : α) : Grid α :=
  fun y' x' => if y' = y ∧ x' = x then a else g y' x'

/-- Blanks from column `x` of row `y` on. -/
def clear (g : Grid α) (blank : α) (y x : Nat) : Grid α :=
  fun y' x' => if y' = y ∧ x ≤ x' then blank else g y' x'

/-- The text `s` written at row `y` and column `x`. -/
def write (rows cols : Nat) (blank : α) (y x : Nat) : List (Item α) → Grid α → Grid α
  | [], g => g
  | .feed :: s, g =>
    if y + 1 < rows then write rows cols blank (y + 1) 0 s (g.clear blank y x)
    else g.clear blank y x
  | .put a :: s, g =>
    if x + 1 < cols then write rows cols blank y (x + 1) s (g.set y x a)
    else if y + 1 < rows then write rows cols blank (y + 1) 0 s (g.set y x a)
    else g.set y x a

/-- The text up to its first line feed. -/
def line : List (Item α) → List α
  | .put a :: s => a :: line s
  | .feed :: _ | [] => []

/-- A text at column `x` that ends on its row. -/
def Stays (cols : Nat) : Nat → List (Item α) → Prop
  | _, [] => True
  | _, .feed :: s => s = []
  | x, .put _ :: s => if x + 1 < cols then Stays cols (x + 1) s else s = []

variable {rows cols : Nat} {blank : α}

theorem line_map_put (as : List α) : line (as.map .put) = as := by
  induction as with
  | nil => rfl
  | cons a as ih => exact congrArg (a :: ·) ih

/-- A text without line feeds ends on its row if it fits there. -/
theorem stays_map_put_iff {as : List α} (hx : x < cols) :
    Stays cols x (as.map .put) ↔ x + as.length ≤ cols := by
  induction as generalizing x with
  | nil => exact iff_of_true trivial (Nat.le_of_lt hx)
  | cons a as ih =>
    simp only [List.map_cons, Stays, List.length_cons]
    split
    next hlt => rw [ih hlt, Nat.add_right_comm, Nat.add_assoc]
    next hge =>
      rw [List.map_eq_nil_iff, ← List.length_eq_zero_iff]
      omega

theorem stays_map_put {as : List α} (h : x + as.length ≤ cols) : Stays cols x (as.map .put) := by
  cases as with
  | nil => trivial
  | cons a as =>
    rw [List.length_cons] at h
    exact (stays_map_put_iff (by omega)).mpr h

/-- A text that fits on its row ends there if no line feed comes before its last item. -/
theorem stays_iff_dropLast {s : List (Item α)} (h : x + s.length ≤ cols) :
    Stays cols x s ↔ ∀ i ∈ s.dropLast, i.isFeed = false := by
  induction s generalizing x with
  | nil => exact iff_of_true trivial nofun
  | cons b s ih =>
    cases s with
    | nil =>
      refine iff_of_true ?_ nofun
      cases b <;> simp [Stays]
    | cons b' s =>
      rw [List.dropLast_cons_cons, List.forall_mem_cons]
      rw [List.length_cons] at h
      cases b with
      | feed => exact iff_of_false (List.cons_ne_nil _ _) fun h => Bool.noConfusion h.1
      | put a =>
        have hlt : x + 1 < cols := by
          rw [List.length_cons] at h
          omega
        rw [Stays, if_pos hlt, ih (by omega)]
        exact (and_iff_right rfl).symm

theorem set_of_ne {g : Grid α} (h : y' ≠ y) : g.set y x a y' = g y' := by
  funext x'
  exact if_neg fun h' => h h'.1

theorem clear_of_ne {g : Grid α} (h : y' ≠ y) : g.clear blank y x y' = g y' := by
  funext x'
  exact if_neg fun h' => h h'.1

/-- Nothing is written above. -/
theorem write_above {s : List (Item α)} {g : Grid α} (h : y' < y) :
    write rows cols blank y x s g y' = g y' := by
  induction s generalizing y x g with
  | nil => rfl
  | cons b s ih =>
    cases b with
    | feed =>
      unfold write
      split
      · rw [ih (Nat.lt_succ_of_lt h), clear_of_ne (Nat.ne_of_lt h)]
      · rw [clear_of_ne (Nat.ne_of_lt h)]
    | put a =>
      have hset : g.set y x a y' = g y' := set_of_ne (Nat.ne_of_lt h)
      unfold write
      split
      · rw [ih h, hset]
      split
      · rw [ih (Nat.lt_succ_of_lt h), hset]
      · exact hset

/-- Nothing is written to the left. -/
theorem write_left {s : List (Item α)} {g : Grid α} (h : x' < x) :
    write rows cols blank y x s g y x' = g y x' := by
  induction s generalizing x g with
  | nil => rfl
  | cons b s ih =>
    cases b with
    | feed =>
      have hclear : g.clear blank y x y x' = g y x' := if_neg (by omega)
      unfold write
      split
      · rw [write_above (Nat.lt_succ_self y), hclear]
      · exact hclear
    | put a =>
      have hset : g.set y x a y x' = g y x' := if_neg (by omega)
      unfold write
      split
      · rw [ih (Nat.lt_succ_of_lt h), hset]
      split
      · rw [write_above (Nat.lt_succ_self y), hset]
      · exact hset

/-- **Its own row.** A text leaves its line there; what comes after the line is blank if a line
feed ends it, and what it was before otherwise. -/
theorem write_own {s : List (Item α)} {g : Grid α} (hx : x ≤ x') (hx' : x' < cols) :
    write rows cols blank y x s g y x' =
      (line s)[x' - x]?.getD (if s.any (·.isFeed) then blank else g y x') := by
  induction s generalizing x g with
  | nil => rfl
  | cons b s ih =>
    cases b with
    | feed =>
      have hclear : g.clear blank y x y x' = blank := if_pos ⟨rfl, hx⟩
      unfold write
      split
      · rw [write_above (Nat.lt_succ_self y), hclear]
        rfl
      · rw [hclear]
        rfl
    | put a =>
      have hline : line (.put a :: s) = a :: line s := rfl
      unfold write
      split
      next hlt =>
        rcases Nat.eq_or_lt_of_le hx with rfl | hxx
        · rw [write_left (Nat.lt_succ_self x), hline, Nat.sub_self]
          exact if_pos ⟨rfl, rfl⟩
        · have hset : g.set y x a y x' = g y x' := if_neg (by omega)
          rw [ih hxx, hset, hline, show x' - x = (x' - (x + 1)) + 1 by omega]
          rfl
      next hge =>
        obtain rfl : x' = x := by omega
        have hset : g.set y x' a y x' = a := if_pos ⟨rfl, rfl⟩
        rw [hline, Nat.sub_self]
        split
        · rw [write_above (Nat.lt_succ_self y), hset]
          rfl
        · rw [hset]
          rfl

/-- **The other rows** are left alone by a text that ends on its own. -/
theorem write_of_stays {s : List (Item α)} {g : Grid α} (h : Stays cols x s) (hne : y' ≠ y) :
    write rows cols blank y x s g y' = g y' := by
  induction s generalizing x g with
  | nil => rfl
  | cons b s ih =>
    cases b with
    | feed =>
      have hs : s = [] := h
      subst hs
      unfold write
      split <;> exact clear_of_ne hne
    | put a =>
      have hset : g.set y x a y' = g y' := set_of_ne hne
      unfold Stays at h
      unfold write
      split
      next hlt =>
        rw [if_pos hlt] at h
        rw [ih h, hset]
      next hge =>
        rw [if_neg hge] at h
        subst h
        split <;> exact hset

theorem exists_write_start {s : List (Item α)} (hs : s ≠ []) (hcols : 0 < cols) :
    ∃ a, ∀ g : Grid α, write rows cols blank y 0 s g y 0 = a := by
  cases s with
  | nil => exact (hs rfl).elim
  | cons b s =>
    cases b with
    | put a => exact ⟨a, fun g => write_own (Nat.le_refl 0) hcols⟩
    | feed => exact ⟨blank, fun g => write_own (Nat.le_refl 0) hcols⟩

/-- **The next row** begins with a cell that a text decides if it does not end on its own. -/
theorem exists_write_below {s : List (Item α)} (h : ¬Stays cols x s) (hrows : y + 1 < rows)
    (hcols : 0 < cols) : ∃ a, ∀ g : Grid α, write rows cols blank y x s g (y + 1) 0 = a := by
  induction s generalizing x with
  | nil => exact (h trivial).elim
  | cons b s ih =>
    cases b with
    | feed =>
      obtain ⟨a, ha⟩ := exists_write_start h hcols
      refine ⟨a, fun g => ?_⟩
      rw [write, if_pos hrows]
      exact ha _
    | put b =>
      unfold Stays at h
      by_cases hlt : x + 1 < cols
      · rw [if_pos hlt] at h
        obtain ⟨a, ha⟩ := ih h
        refine ⟨a, fun g => ?_⟩
        rw [write, if_pos hlt]
        exact ha _
      · rw [if_neg hlt] at h
        obtain ⟨a, ha⟩ := exists_write_start h hcols
        refine ⟨a, fun g => ?_⟩
        rw [write, if_neg hlt, if_pos hrows]
        exact ha _

end Grid

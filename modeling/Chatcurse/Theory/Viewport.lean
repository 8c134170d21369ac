import Mathlib.Order.Lattice
import Mathlib.Data.Nat.Init

/-!
# A viewport over a list

`rows` consecutive places of a list of `n` items are shown from `offset` on, and one of the rows is
selected; a list shorter than the rows is followed by empty places. A motion moves the selected row,
or at the edge the rows shown. Whatever its offset and row are, a valid viewport selects the place
`index`, and a motion moves that in `max n rows` places, stopping at both ends (`index_move`). So
every place can be selected (`exists_targets`).
-/

@[ext] structure Viewport where
  offset : Nat
  row : Nat

namespace Viewport

/-- The place that is selected. -/
def index (v : Viewport) : Nat := v.offset + v.row

/-- The selected row is shown, and the offset leaves no more rows empty than it must. -/
structure Valid (rows n : Nat) (v : Viewport) : Prop where
  row_lt : v.row < rows
  offset_le : v.offset ≤ max n rows - rows

inductive Motion where
  | next
  | prev
  | toEnd
  | toStart
  deriving DecidableEq

/-- Where a motion leads in a list of `places` places. -/
def Motion.target (places : Nat) : Motion → Nat → Nat
  | next, i => min (i + 1) (places - 1)
  | prev, i => i - 1
  | toEnd, _ => places - 1
  | toStart, _ => 0

def move (rows n : Nat) : Motion → Viewport → Viewport
  | .next, v => if rows - 1 ≤ v.row then ⟨min (max n rows - rows) (v.offset + 1), rows - 1⟩
    else { v with row := v.row + 1 }
  | .prev, v => if v.row = 0 then ⟨max 1 v.offset - 1, 0⟩ else { v with row := v.row - 1 }
  | .toEnd, _ => ⟨max n rows - rows, rows - 1⟩
  | .toStart, _ => ⟨0, 0⟩

variable {rows n : Nat}

theorem move_next_last {v : Viewport} (h : rows - 1 ≤ v.row) :
    v.move rows n .next = ⟨min (max n rows - rows) (v.offset + 1), rows - 1⟩ := if_pos h

theorem move_next_inner {v : Viewport} (h : v.row < rows - 1) :
    v.move rows n .next = ⟨v.offset, v.row + 1⟩ := if_neg (Nat.not_le.mpr h)

theorem move_prev_first {v : Viewport} (h : v.row = 0) :
    v.move rows n .prev = ⟨max 1 v.offset - 1, 0⟩ := if_pos h

theorem move_prev_inner {v : Viewport} (h : v.row ≠ 0) :
    v.move rows n .prev = ⟨v.offset, v.row - 1⟩ := if_neg h

theorem valid_move {v : Viewport} (h : v.Valid rows n) (m : Motion) :
    (v.move rows n m).Valid rows n := by
  obtain ⟨hrow, hoff⟩ := h
  cases m with
  | next =>
    simp only [move]
    split
    · exact ⟨by simp only; omega, Nat.min_le_left _ _⟩
    · exact ⟨by simp only; omega, hoff⟩
  | prev =>
    simp only [move]
    split
    · exact ⟨by simp only; omega, by simp only; omega⟩
    · exact ⟨by simp only; omega, hoff⟩
  | toEnd => exact ⟨by simp only [move]; omega, Nat.le_refl _⟩
  | toStart => exact ⟨by simp only [move]; omega, Nat.zero_le _⟩

/-- **A motion** moves the selected place, however it is split into offset and row. -/
theorem index_move {v : Viewport} (h : v.Valid rows n) (m : Motion) :
    (v.move rows n m).index = m.target (max n rows) v.index := by
  obtain ⟨hrow, hoff⟩ := h
  cases m with
  | next =>
    simp only [move, Motion.target, index]
    split <;> simp only <;> omega
  | prev =>
    simp only [move, Motion.target, index]
    split <;> simp only <;> omega
  | toEnd =>
    simp only [move, Motion.target, index]
    omega
  | toStart => rfl

/-- The place that motions lead to from place `i`. -/
def Motion.targets (places i : Nat) (ms : List Motion) : Nat :=
  ms.foldl (fun i m => m.target places i) i

theorem targets_replicate_next (h : i + k < places) :
    Motion.targets places i (List.replicate k .next) = i + k := by
  induction k generalizing i with
  | zero => rfl
  | succ k ih =>
    have hstep : Motion.next.target places i = i + 1 := Nat.min_eq_left (by omega)
    rw [List.replicate_succ, Motion.targets, List.foldl_cons, ← Motion.targets, hstep,
      ih (by omega)]
    omega

/-- Every place is reached from any. -/
theorem exists_targets (h : i < places) (start : Nat) :
    ∃ ms, Motion.targets places start ms = i :=
  ⟨.toStart :: List.replicate i .next, by
    rw [Motion.targets, List.foldl_cons, ← Motion.targets]
    exact (targets_replicate_next (i := 0) (by omega)).trans (Nat.zero_add i)⟩

end Viewport

import Mathlib.Data.List.FinRange

/-!
# Pictures in lines of text

A picture is rows of cells. It is written with glyphs for two cells one above the other, two rows to
a line, and a row that is missing under the last one is filled up. If a glyph can be read back, so
can the lines, as the rows of the picture and the filled one (`readLines_lines`). Lines that end in
a separator are found again in the text (`splitOn_terminated`), and the rows and columns of a frame
around a picture are the first and the last ones (`map_range_framed`).
-/

universe u v

namespace Raster

variable {α : Type u} {γ : Type v}

/-- The first `h` rows and `w` columns. -/
def rows (h w : Nat) (p : Nat → Nat → α) : List (List α) :=
  (List.range h).map fun y => (List.range w).map (p y)

/-- Two rows, one above the other. -/
def line (glyph : α → α → γ) (w : Nat) (upper lower : Nat → α) : List γ :=
  (List.range w).map fun x => glyph (upper x) (lower x)

def lines (glyph : α → α → γ) (fill : α) (h w : Nat) (p : Nat → Nat → α) : List (List γ) :=
  (List.range ((h + 1) / 2)).map fun k =>
    line glyph w (p (2 * k)) (if 2 * k + 1 < h then p (2 * k + 1) else fun _ => fill)

/-- The two rows of a line, if all its glyphs are read. -/
def readLine (read : γ → Option (α × α)) (l : List γ) : Option (List (List α)) :=
  (l.mapM read).map fun cells => [cells.map (·.1), cells.map (·.2)]

def readLines (read : γ → Option (α × α)) (ls : List (List γ)) : Option (List (List α)) :=
  (ls.mapM (readLine read)).map List.flatten

/-! ## Reading the lines -/

theorem mapM_map_eq_some {β δ ζ : Type*} {f : δ → Option ζ} {g : β → δ} {k : β → ζ} {l : List β}
    (h : ∀ b ∈ l, f (g b) = some (k b)) : (l.map g).mapM f = some (l.map k) := by
  induction l with
  | nil => rfl
  | cons b l ih =>
    obtain ⟨hb, hl⟩ := List.forall_mem_cons.mp h
    rw [List.map_cons, List.mapM_cons, hb, ih hl]
    rfl

theorem readLine_line {glyph : α → α → γ} {read : γ → Option (α × α)}
    (hread : ∀ a b, read (glyph a b) = some (a, b)) (w : Nat) (upper lower : Nat → α) :
    readLine read (line glyph w upper lower) =
      some [(List.range w).map upper, (List.range w).map lower] := by
  have hcells : (line glyph w upper lower).mapM read =
      some ((List.range w).map fun x => (upper x, lower x)) :=
    mapM_map_eq_some fun x _ => hread (upper x) (lower x)
  rw [readLine, hcells, Option.map_some, List.map_map, List.map_map]
  rfl

/-- Numbers by pairs. -/
theorem flatMap_pairs {β : Type*} (f : Nat → β) (m : Nat) :
    (List.range m).flatMap (fun k => [f (2 * k), f (2 * k + 1)]) = (List.range (2 * m)).map f := by
  induction m with
  | zero => rfl
  | succ m ih =>
    have hm : 2 * (m + 1) = 2 * m + 1 + 1 := by omega
    rw [List.range_succ, List.flatMap_append, ih, hm, List.range_succ, List.range_succ]
    simp

/-- The last of an odd number of rows is followed by a filled one. -/
theorem flatMap_lines {β : Type*} (f : Nat → β) (z : β) (h : Nat) :
    (List.range ((h + 1) / 2)).flatMap
        (fun k => [f (2 * k), if 2 * k + 1 < h then f (2 * k + 1) else z]) =
      (List.range h).map f ++ if h % 2 = 1 then [z] else [] := by
  obtain ⟨m, rfl | rfl⟩ : ∃ m, h = 2 * m ∨ h = 2 * m + 1 := ⟨h / 2, by omega⟩
  · have hhalf : (2 * m + 1) / 2 = m := by omega
    have hinner : ∀ k ∈ List.range m, [f (2 * k), if 2 * k + 1 < 2 * m then f (2 * k + 1) else z] =
        [f (2 * k), f (2 * k + 1)] := by
      intro k hk
      have hlt := List.mem_range.mp hk
      rw [if_pos (by omega)]
    rw [hhalf, List.flatMap_congr hinner, flatMap_pairs, if_neg (by omega), List.append_nil]
  · have hhalf : (2 * m + 1 + 1) / 2 = m + 1 := by omega
    have hinner : ∀ k ∈ List.range m,
        [f (2 * k), if 2 * k + 1 < 2 * m + 1 then f (2 * k + 1) else z] =
          [f (2 * k), f (2 * k + 1)] := by
      intro k hk
      have hlt := List.mem_range.mp hk
      rw [if_pos (by omega)]
    rw [hhalf, List.range_succ, List.flatMap_append, List.flatMap_congr hinner, flatMap_pairs,
      List.range_succ, if_pos (by omega)]
    simp

/-- **The lines of a picture** are read as its rows and the row that fills up the last line. -/
theorem readLines_lines {glyph : α → α → γ} {read : γ → Option (α × α)}
    (hread : ∀ a b, read (glyph a b) = some (a, b)) (fill : α) (h w : Nat) (p : Nat → Nat → α) :
    readLines read (lines glyph fill h w p) =
      some (rows h w p ++ if h % 2 = 1 then [List.replicate w fill] else []) := by
  have hlines : (lines glyph fill h w p).mapM (readLine read) =
      some ((List.range ((h + 1) / 2)).map fun k => [(List.range w).map (p (2 * k)),
        (List.range w).map (if 2 * k + 1 < h then p (2 * k + 1) else fun _ => fill)]) :=
    mapM_map_eq_some fun k _ => readLine_line hread w _ _
  have hfill : (List.range w).map (fun _ => fill) = List.replicate w fill := by simp
  rw [readLines, hlines, Option.map_some, rows, ← flatMap_lines, List.flatMap_def]
  congr 2
  refine List.map_congr_left fun k _ => ?_
  split
  · rfl
  · rw [hfill]

/-! ## Text and frames -/

/-- Lines that end in a separator, each of them. -/
theorem splitOn_terminated [DecidableEq γ] {sep : γ} {ls : List (List γ)}
    (h : ∀ l ∈ ls, sep ∉ l) : (ls.flatMap (· ++ [sep])).splitOn sep = ls ++ [[]] := by
  induction ls with
  | nil => rfl
  | cons l ls ih =>
    obtain ⟨hl, hls⟩ := List.forall_mem_cons.mp h
    rw [List.flatMap_cons, List.append_assoc, List.singleton_append,
      List.splitOn_append_cons_self_of_not_mem hl, ih hls, List.cons_append]

/-- `b` cells before and `b` after. -/
def framed (b : Nat) (a : α) (l : List α) : List α := List.replicate b a ++ l ++ List.replicate b a

theorem framed_injective (b : Nat) (a : α) : Function.Injective (framed b a) :=
  fun _ _ h => List.append_cancel_left (List.append_cancel_right h)

theorem map_range_framed {f : Nat → α} {g : Fin n → α} (hbefore : ∀ k < b, f k = a)
    (hinner : ∀ i : Fin n, f (b + i) = g i) (hafter : ∀ k < b, f (b + n + k) = a) :
    (List.range (b + n + b)).map f = framed b a (List.ofFn g) := by
  rw [framed, List.range_add, List.range_add, List.map_append, List.map_append, List.map_map,
    List.map_map]
  congr 2
  · refine (List.eq_replicate_iff.mpr ⟨by simp, fun x hx => ?_⟩)
    obtain ⟨k, hk, rfl⟩ := List.mem_map.mp hx
    exact hbefore k (List.mem_range.mp hk)
  · rw [← List.map_coe_finRange_eq_range, List.map_map, List.ofFn_eq_map]
    exact List.map_congr_left fun i _ => hinner i
  · refine (List.eq_replicate_iff.mpr ⟨by simp, fun x hx => ?_⟩)
    obtain ⟨k, hk, rfl⟩ := List.mem_map.mp hx
    exact hafter k (List.mem_range.mp hk)

end Raster

import Chatcurse.Verify.QrBlocks
import Chatcurse.QrDraw
import Mathlib.Algebra.Order.BigOperators.Group.List
import Mathlib.Algebra.Group.Action.Defs

/-!
# The penalty of a symbol

A run adds at most one point for each of its modules, and a finder-like pattern needs a light run
that is long enough to pay for it (`RunsInv`). So the assertions of `getPenaltyScore` hold for every
symbol (`getPenaltyScore_bounds`).
-/

namespace Chatcurse
namespace Canvas

/-! ## Finder-like patterns -/

theorem finderPenaltyCountPatterns_le (runHistory : List Nat) :
    finderPenaltyCountPatterns runHistory ≤ 2 ∧
      (runHistory.getD 0 0 < 4 → finderPenaltyCountPatterns runHistory ≤ 1) := by
  rw [finderPenaltyCountPatterns]
  constructor
  · split <;> split <;> omega
  · intro h
    split
    next hboth =>
      split
      next =>
        simp only [Bool.and_eq_true, decide_eq_true_eq] at hboth
        omega
      next => omega
    next => split <;> omega

/-- The points of a run of one colour. -/
def runPenalty (run : Nat) : Nat := if run ≥ 5 then run - 2 else 0

theorem runPenalty_le (run : Nat) : runPenalty run ≤ run := by
  rw [runPenalty]
  split <;> omega

theorem runPenalty_succ (run : Nat) : runPenalty (run + 1) =
    runPenalty run + if run + 1 = 5 then PENALTY_N1 else if run + 1 > 5 then 1 else 0 := by
  simp only [runPenalty, PENALTY_N1]
  split_ifs <;> omega

/-- What the runs along a line have added after `k` modules. -/
structure RunsInv (size k : Nat) (r : Runs) : Prop where
  run_le : r.run ≤ k
  history_length : r.runHistory.length = 7
  history_le : ∀ n ∈ r.runHistory, n ≤ 2 * size
  /-- Nothing but the first run, which is light. -/
  initial : r.runHistory.getD 0 0 = 0 →
    r.runColor = false ∧ r.run = k ∧ r.result ≤ runPenalty k
  /-- All modules before a dark run pay for the patterns. -/
  dark : r.runColor = true →
    0 < r.run ∧ r.result ≤ 80 + 21 * (k - r.run) + runPenalty r.run
  /-- There is a dark module before a light run that does not pay yet. -/
  light : r.runColor = false → r.runHistory.getD 0 0 ≠ 0 →
    (0 < r.run ∧ r.run < k) ∧ r.result + 20 ≤ 80 + 21 * (k - r.run) + runPenalty r.run

theorem RunsInv.start (size : Nat) : RunsInv size 0 {} where
  run_le := le_rfl
  history_length := rfl
  history_le := by
    intro n hn
    rw [List.eq_of_mem_replicate hn]
    exact Nat.zero_le _
  initial := fun _ => ⟨rfl, rfl, le_rfl⟩
  dark := fun h => absurd h (by decide)
  light := fun _ h => absurd rfl h

theorem length_addHistory {runHistory : List Nat} (h : runHistory.length = 7) (size n : Nat) :
    (finderPenaltyAddHistory size n runHistory).length = 7 := by
  rw [finderPenaltyAddHistory, List.length_cons, List.length_dropLast, h]

theorem addHistory_le {runHistory : List Nat} {size n b : Nat} (h : ∀ m ∈ runHistory, m ≤ b)
    (hn : n + size ≤ b) : ∀ m ∈ finderPenaltyAddHistory size n runHistory, m ≤ b := by
  intro m hm
  rcases List.mem_cons.mp hm with rfl | hm
  · split <;> omega
  · exact h m (List.dropLast_subset _ hm)

theorem addHistory_head (size n : Nat) (runHistory : List Nat) :
    (finderPenaltyAddHistory size n runHistory).getD 0 0 =
      if runHistory.getD 0 0 = 0 then n + size else n := rfl

/-- One module of the colour of the run. -/
theorem RunsInv.add_same {size k : Nat} {r : Runs} (h : RunsInv size k r) :
    RunsInv size (k + 1) (r.add size r.runColor) := by
  obtain ⟨hrun, hlength, hhistory, hinitial, hdark, hlight⟩ := h
  have hsucc := runPenalty_succ r.run
  rw [Runs.add, if_pos rfl]
  refine ⟨Nat.succ_le_succ hrun, hlength, hhistory, fun h0 => ?_, fun hc => ?_, fun hc h0 => ?_⟩
  · obtain ⟨hcolour, hall, hresult⟩ := hinitial h0
    rw [← hall] at hresult ⊢
    exact ⟨hcolour, rfl, by simp only; omega⟩
  · obtain ⟨hpos, hresult⟩ := hdark hc
    simp only
    omega
  · obtain ⟨hpos, hresult⟩ := hlight hc h0
    simp only
    omega

/-- A light module after a dark run. -/
theorem RunsInv.end_dark {size k : Nat} {r : Runs} (h : RunsInv size k r) (hk : k < size)
    (hc : r.runColor = true) : RunsInv size (k + 1) (r.add size false) := by
  obtain ⟨hrun, hlength, hhistory, -, hdark, -⟩ := h
  have hle := addHistory_le hhistory (show r.run + size ≤ 2 * size by omega)
  have hlength' := length_addHistory hlength size r.run
  have hhead := addHistory_head size r.run r.runHistory
  have hpenalty := runPenalty_le r.run
  have hone : runPenalty 1 = 0 := rfl
  obtain ⟨hpos, hresult⟩ := hdark hc
  rw [Runs.add, hc, if_neg Bool.false_ne_true]
  refine ⟨by simp only; omega, hlength', hle, fun h0 => ?_, fun h => absurd h Bool.false_ne_true,
    fun _ _ => ?_⟩
  · simp only at h0
    split at hhead <;> omega
  · simp only [Bool.not_true, Bool.false_eq_true, if_false]
    omega

/-- A dark module after a light run: the patterns that end there are counted. -/
theorem RunsInv.end_light {size k : Nat} {r : Runs} (h : RunsInv size k r) (hk : k < size)
    (hc : r.runColor = false) : RunsInv size (k + 1) (r.add size true) := by
  obtain ⟨hrun, hlength, hhistory, hinitial, -, hlight⟩ := h
  have hle := addHistory_le hhistory (show r.run + size ≤ 2 * size by omega)
  have hlength' := length_addHistory hlength size r.run
  have hhead := addHistory_head size r.run r.runHistory
  have hpenalty := runPenalty_le r.run
  have hone : runPenalty 1 = 0 := rfl
  obtain ⟨hcount, hcount'⟩ := finderPenaltyCountPatterns_le
    (finderPenaltyAddHistory size r.run r.runHistory)
  rw [Runs.add, hc, if_neg Bool.false_ne_true.symm]
  refine ⟨by simp only; omega, hlength', hle, fun h0 => ?_, fun _ => ?_,
    fun h => absurd h Bool.false_ne_true.symm⟩
  · simp only at h0
    by_cases hfirst : r.runHistory.getD 0 0 = 0
    · rw [if_pos hfirst] at hhead
      omega
    · rw [if_neg hfirst] at hhead
      have hpos := (hlight hc hfirst).1
      omega
  · simp only [Bool.not_false, if_true, PENALTY_N3]
    refine ⟨Nat.one_pos, ?_⟩
    by_cases hfirst : r.runHistory.getD 0 0 = 0
    · obtain ⟨-, hall, hresult⟩ := hinitial hfirst
      rw [hall] at hpenalty
      omega
    · obtain ⟨⟨hpos, hlt⟩, hresult⟩ := hlight hc hfirst
      rw [if_neg hfirst] at hhead
      rw [hhead] at hcount'
      rcases Nat.lt_or_ge r.run 4 with hshort | hlong
      · have hcount1 := hcount' hshort
        omega
      · omega

theorem RunsInv.add {size k : Nat} {r : Runs} (h : RunsInv size k r) (hk : k < size)
    (color : Bool) : RunsInv size (k + 1) (r.add size color) := by
  rcases eq_or_ne color r.runColor with rfl | hcolour
  · exact h.add_same
  cases hc : r.runColor with
  | true =>
    rw [hc] at hcolour
    rw [Bool.eq_false_iff.mpr hcolour]
    exact h.end_dark hk hc
  | false =>
    rw [hc] at hcolour
    rw [Bool.eq_true_of_not_eq_false hcolour]
    exact h.end_light hk hc

/-- A whole line, or the start of one. -/
theorem RunsInv.foldl {size k : Nat} (line : List Bool) {r : Runs} (h : RunsInv size k r)
    (hk : k + line.length ≤ size) :
    RunsInv size (k + line.length) (line.foldl (Runs.add size) r) := by
  induction line generalizing k r with
  | nil => exact h
  | cons color line ih =>
    rw [List.length_cons] at hk
    have hnext := ih (h.add (by omega) color) (by omega)
    rwa [Nat.add_assoc, Nat.add_comm 1] at hnext

theorem linePenalty_le {size : Nat} {line : List Bool} (h : line.length ≤ size) :
    linePenalty size line ≤ 160 + 21 * size := by
  have hinv := (RunsInv.start size).foldl line (by omega)
  rw [Nat.zero_add] at hinv
  have hresult : (line.foldl (Runs.add size) {}).result ≤ 80 + 21 * line.length := by
    have hpenalty := runPenalty_le (line.foldl (Runs.add size) {}).run
    have hrun := hinv.run_le
    cases hc : (line.foldl (Runs.add size) {}).runColor with
    | true =>
      have hdark := hinv.dark hc
      omega
    | false =>
      by_cases hfirst : (line.foldl (Runs.add size) {}).runHistory.getD 0 0 = 0
      · have hinitial := hinv.initial hfirst
        rw [hinitial.2.1] at hpenalty
        omega
      · have hlight := hinv.light hc hfirst
        omega
  have hcount : (line.foldl (Runs.add size) {}).terminateAndCount size ≤ 2 :=
    (finderPenaltyCountPatterns_le _).1
  have hmul := Nat.mul_le_mul_right PENALTY_N3 hcount
  have hn3 : PENALTY_N3 = 40 := rfl
  rw [linePenalty]
  omega

/-! ## The whole symbol -/

theorem sum_map_le {n b : Nat} {f : Nat → Nat} (h : ∀ i < n, f i ≤ b) :
    ((List.range n).map f).sum ≤ n * b := by
  have hsum := List.sum_le_card_nsmul ((List.range n).map f) b fun m hm => by
    obtain ⟨i, hi, rfl⟩ := List.mem_map.mp hm
    exact h i (List.mem_range.mp hi)
  rwa [List.length_map, List.length_range, smul_eq_mul] at hsum

theorem dark_le (c : Canvas) : c.dark ≤ c.size * c.size := by
  refine sum_map_le fun y _ => ?_
  have hcount := List.countP_le_length (p := (· = true)) (l := c.rowOf y)
  rwa [rowOf, List.length_map, List.length_range] at hcount

theorem imbalance_bounds (c : Canvas) : 0 ≤ c.imbalance ∧ c.imbalance ≤ 9 := by
  have hdark := c.dark_le
  have hpos : 0 < c.size * c.size := Nat.mul_pos (Nat.succ_pos _) (Nat.succ_pos _)
  have hodd : c.size * c.size % 2 = 1 := by
    have hsize : c.size % 2 = 1 := by
      rw [size]
      omega
    rw [Nat.mul_mod, hsize]
  obtain ⟨t, ht⟩ : ∃ t, c.size * c.size = t := ⟨_, rfl⟩
  obtain ⟨a, ha⟩ : ∃ a, ((c.dark : Int) * 20 - (t : Int) * 10).natAbs = a := ⟨_, rfl⟩
  rw [ht] at hdark hpos hodd
  have hlo : 1 ≤ (a + t - 1) / t := (Nat.one_le_div_iff hpos).mpr (by omega)
  have hhi : (a + t - 1) / t < 11 := (Nat.div_lt_iff_lt_mul hpos).mpr (by omega)
  rw [imbalance, ht]
  simp only [ha]
  omega

theorem blocks_le (c : Canvas) : c.blocks ≤ (c.size - 1) * (c.size - 1) := by
  refine sum_map_le fun y _ => ?_
  have hcount := List.countP_le_length (p := fun x =>
    let color := c.modules y x
    color = c.modules y (x + 1) && color = c.modules (y + 1) x &&
      color = c.modules (y + 1) (x + 1)) (l := List.range (c.size - 1))
  rwa [List.length_range] at hcount

theorem getPenaltyScore_le {c : Canvas} (h : c.version ≤ 40) :
    0 ≤ c.getPenaltyScore ∧ c.getPenaltyScore ≤ 2568888 := by
  have hsize : c.size ≤ 177 := by
    rw [size]
    omega
  have hrow : ∀ y, linePenalty c.size (c.rowOf y) ≤ 160 + 21 * c.size := fun y =>
    linePenalty_le (by rw [rowOf, List.length_map, List.length_range])
  have hcolumn : ∀ x, linePenalty c.size (c.columnOf x) ≤ 160 + 21 * c.size := fun x =>
    linePenalty_le (by rw [columnOf, List.length_map, List.length_range])
  have hrows := sum_map_le (n := c.size) fun y _ => hrow y
  have hcolumns := sum_map_le (n := c.size) fun x _ => hcolumn x
  have hblocks := c.blocks_le
  have himbalance := c.imbalance_bounds
  have hlines : c.size * (160 + 21 * c.size) ≤ 177 * (160 + 21 * 177) :=
    Nat.mul_le_mul hsize (by omega)
  have hsquares : (c.size - 1) * (c.size - 1) ≤ 176 * 176 :=
    Nat.mul_le_mul (by omega) (by omega)
  have hn2 : PENALTY_N2 = 3 := rfl
  have hn4 : PENALTY_N4 = 10 := rfl
  rw [getPenaltyScore, hn2, hn4]
  omega

theorem terminate_le {size : Nat} {line : List Bool} (h : line.length ≤ size) :
    ∀ n ∈ (line.foldl (Runs.add size) {}).terminate size, n ≤ size * 3 := by
  have hinv := (RunsInv.start size).foldl line (by omega)
  have hrun := hinv.run_le
  have hhistory : ∀ n ∈ (line.foldl (Runs.add size) {}).runHistory, n ≤ size * 3 :=
    fun n hn => (hinv.history_le n hn).trans (by omega)
  rw [Runs.terminate]
  cases (line.foldl (Runs.add size) {}).runColor with
  | true => exact addHistory_le (addHistory_le hhistory (by omega)) (by simp only [if_true]; omega)
  | false =>
    exact addHistory_le hhistory (by simp only [Bool.false_eq_true, if_false]; omega)

/-- **The assertions of `getPenaltyScore`** hold for every symbol: the result is in the range that is
asserted, so is `k`, and no run that a finder-like pattern is counted from is longer than three
times the side. -/
theorem getPenaltyScore_bounds (v : QrCode.Version) (ecl : Ecc) (mask : Int)
    (modules isFunction : Nat → Nat → Bool) :
    let c : Canvas := ⟨v, ecl, mask, modules, isFunction⟩
    (0 ≤ c.getPenaltyScore ∧ c.getPenaltyScore ≤ 2568888) ∧
      (0 ≤ c.imbalance ∧ c.imbalance ≤ 9) ∧
      ∀ i, ∀ line ∈ [c.rowOf i, c.columnOf i],
        (∀ start, start <+: line → ∀ n ∈ (start.foldl (Runs.add c.size) {}).runHistory,
          n ≤ c.size * 3) ∧
        ∀ n ∈ (line.foldl (Runs.add c.size) {}).terminate c.size, n ≤ c.size * 3 := by
  intro c
  refine ⟨getPenaltyScore_le v.2.2, c.imbalance_bounds, fun i line hline => ?_⟩
  have hlen : line.length ≤ c.size := by
    rcases List.mem_pair.mp hline with rfl | rfl
    · rw [rowOf, List.length_map, List.length_range]
    · rw [columnOf, List.length_map, List.length_range]
  refine ⟨fun start hstart n hn => ?_, terminate_le hlen⟩
  have hinv := (RunsInv.start c.size).foldl start (by have := hstart.length_le; omega)
  exact (hinv.history_le n hn).trans (by omega)

/-- The penalty depends on the picture alone. -/
theorem getPenaltyScore_congr {c c' : Canvas} (hversion : c.version = c'.version)
    (hmodules : c.modules = c'.modules) : c.getPenaltyScore = c'.getPenaltyScore := by
  have hsize : c.size = c'.size := by rw [size, size, hversion]
  have hrow : c.rowOf = c'.rowOf := by
    funext y
    rw [rowOf, rowOf, hsize, hmodules]
  have hcolumn : c.columnOf = c'.columnOf := by
    funext x
    rw [columnOf, columnOf, hsize, hmodules]
  have hblocks : c.blocks = c'.blocks := by rw [blocks, blocks, hsize, hmodules]
  have hdark : c.dark = c'.dark := by rw [dark, dark, hsize, hrow]
  rw [getPenaltyScore, getPenaltyScore, imbalance, imbalance, hsize, hrow, hcolumn, hblocks, hdark]

end Canvas
end Chatcurse

import Chatcurse.Verify.QrRegion
import Chatcurse.Verify.QrData
import Chatcurse.Theory.Placement

/-!
# The zigzag scan of a QR code

The loop of `drawCodewords` goes through pairs of columns from the right to the left, up and down in
turn, without the timing column (`zigzag_eq`). It comes to each other module once, has a place for
each bit of the codewords, and the bits are read from the modules without a pattern in its order
(`placeCodewords_spec`).
-/

namespace Chatcurse
namespace Canvas
open QrCode (Version)

/-! ## The order -/

/-- The right one of the `k`-th pair of columns. -/
def rightColumn (size k : Nat) : Nat :=
  if 2 * k + 8 < size then size - 1 - 2 * k else size - 2 - 2 * k

/-- The order in which a symbol is read. -/
def scanOrder (size : Nat) : List (Nat × Nat) :=
  (List.range ((size - 1) / 2)).flatMap fun k => (List.range size).flatMap fun i =>
    let y := if k % 2 = 0 then size - 1 - i else i
    [(rightColumn size k, y), (rightColumn size k - 1, y)]

theorem rights_six : rights 6 = [5, 3, 1] := by simp [rights]

theorem rights_even (j : Nat) :
    rights (2 * j + 6) = (List.range j).map (fun k => 2 * (j - k) + 6) ++ [5, 3, 1] := by
  induction j with
  | zero => exact rights_six
  | succ j ih =>
    have hnext : 2 * (j + 1) + 6 - 2 = 2 * j + 6 := by omega
    have hmap : (List.range j).map ((fun k => 2 * (j + 1 - k) + 6) ∘ Nat.succ) =
        (List.range j).map fun k => 2 * (j - k) + 6 :=
      List.map_congr_left fun k _ => by
        simp only [Function.comp_apply]
        omega
    rw [rights, if_pos (by omega)]
    simp only
    rw [if_neg (by omega), hnext, ih, List.range_succ_eq_map, List.map_cons, List.map_map, hmap]
    rfl

theorem rights_eq (v : Nat) :
    rights (v * 4 + 16) = (List.range (v * 2 + 8)).map (rightColumn (v * 4 + 17)) := by
  have hstart : v * 4 + 16 = 2 * (v * 2 + 5) + 6 := by omega
  have hlast : (List.range 3).map (rightColumn (v * 4 + 17) ∘ (v * 2 + 5 + ·)) = [5, 3, 1] := by
    have h : ∀ k ∈ List.range 3, rightColumn (v * 4 + 17) (v * 2 + 5 + k) = 5 - 2 * k := by
      intro k hk
      have hlt := List.mem_range.mp hk
      rw [rightColumn, if_neg (by omega)]
      omega
    exact List.map_congr_left h
  have hfirst : (List.range (v * 2 + 5)).map (fun k => 2 * (v * 2 + 5 - k) + 6) =
      (List.range (v * 2 + 5)).map (rightColumn (v * 4 + 17)) := by
    refine List.map_congr_left fun k hk => ?_
    have hlt := List.mem_range.mp hk
    rw [rightColumn, if_pos (by omega)]
    omega
  rw [hstart, rights_even, hfirst, ← hlast, ← List.map_map, ← List.map_append, ← List.range_add]

theorem and_two_eq_zero (n : Nat) : n &&& 2 = 0 ↔ n / 2 % 2 = 0 := by
  have hbit := Nat.and_two_pow n 1
  rw [Nat.testBit_succ, Nat.testBit_zero] at hbit
  rw [show (2 : Nat) = 2 ^ 1 from rfl, hbit]
  rcases Nat.mod_two_eq_zero_or_one (n / 2) with h | h <;> simp [h]

/-- **The zigzag.** -/
theorem zigzag_eq (v : Nat) : zigzag (v * 4 + 17) = scanOrder (v * 4 + 17) := by
  have hpairs : (v * 4 + 17 - 1) / 2 = v * 2 + 8 := by omega
  have hstart : v * 4 + 17 - 1 = v * 4 + 16 := rfl
  rw [zigzag, scanOrder, hpairs, hstart, rights_eq, List.flatMap_map]
  refine List.flatMap_congr fun k hk => List.flatMap_congr fun i _ => ?_
  have hlt := List.mem_range.mp hk
  have hup : (rightColumn (v * 4 + 17) k + 1) &&& 2 = 0 ↔ k % 2 = 0 := by
    rw [and_two_eq_zero, rightColumn]
    split <;> omega
  simp only [hup]
  rfl

theorem mem_scanOrder {v x y : Nat} :
    (x, y) ∈ scanOrder (v * 4 + 17) ↔ x < v * 4 + 17 ∧ y < v * 4 + 17 ∧ x ≠ 6 := by
  simp only [scanOrder, List.mem_flatMap, List.mem_range, List.mem_cons, List.not_mem_nil, or_false,
    Prod.mk.injEq]
  constructor
  · rintro ⟨k, hk, i, hi, hplace⟩
    rw [rightColumn] at hplace
    split at hplace <;> split at hplace <;> omega
  · rintro ⟨hx, hy, hne⟩
    rcases Nat.lt_or_gt_of_ne hne with hlt | hgt
    · refine ⟨(v * 4 + 15 - x) / 2, by omega,
        if (v * 4 + 15 - x) / 2 % 2 = 0 then v * 4 + 16 - y else y, by split <;> omega, ?_⟩
      rw [rightColumn, if_neg (by omega)]
      split <;> omega
    · refine ⟨(v * 4 + 16 - x) / 2, by omega,
        if (v * 4 + 16 - x) / 2 % 2 = 0 then v * 4 + 16 - y else y, by split <;> omega, ?_⟩
      rw [rightColumn, if_pos (by omega)]
      split <;> omega

theorem nodup_scanOrder (v : Nat) : (scanOrder (v * 4 + 17)).Nodup := by
  have hcolumn : ∀ k < v * 2 + 8, 1 ≤ rightColumn (v * 4 + 17) k := by
    intro k hk
    rw [rightColumn]
    split <;> omega
  have hpairs : (v * 4 + 17 - 1) / 2 = v * 2 + 8 := by omega
  rw [scanOrder, hpairs, List.nodup_flatMap]
  constructor
  · intro k hk
    have hpos := hcolumn k (List.mem_range.mp hk)
    rw [List.nodup_flatMap]
    refine ⟨fun i _ => ?_, List.nodup_range.pairwise_of_forall_ne fun i hi j hj hij => ?_⟩
    · simp only [List.nodup_cons, List.mem_singleton, Prod.mk.injEq, List.not_mem_nil,
        not_false_eq_true, List.nodup_nil, and_true]
      omega
    · have hi' := List.mem_range.mp hi
      have hj' := List.mem_range.mp hj
      rintro ⟨x, y⟩ hx hy
      simp only [List.mem_cons, List.not_mem_nil, or_false, Prod.mk.injEq] at hx hy
      split at hx <;> split at hy <;> omega
  · refine List.nodup_range.pairwise_of_forall_ne fun k hk l hl hkl => ?_
    have hk' := List.mem_range.mp hk
    have hl' := List.mem_range.mp hl
    rintro ⟨x, y⟩ hx hy
    simp only [List.mem_flatMap, List.mem_cons, List.not_mem_nil, or_false, Prod.mk.injEq] at hx hy
    obtain ⟨i, -, hx⟩ := hx
    obtain ⟨j, -, hy⟩ := hy
    have hx' : x = rightColumn (v * 4 + 17) k ∨ x = rightColumn (v * 4 + 17) k - 1 := by tauto
    have hy' : x = rightColumn (v * 4 + 17) l ∨ x = rightColumn (v * 4 + 17) l - 1 := by tauto
    rw [rightColumn] at hx' hy'
    split at hx' <;> split at hy' <;> omega

/-! ## The places for data -/

/-- The modules without a pattern in the order of the scan. -/
def freeOrder (version : Nat) : List (Nat × Nat) :=
  (scanOrder (version * 4 + 17)).filter fun p => ¬IsPattern version p.1 p.2

theorem length_freeOrder (v : Version) :
    (freeOrder v).length = QrCode.getNumRawDataModules v := by
  have hnodup : (freeOrder v).Nodup := (nodup_scanOrder v).filter _
  have hcells : (freeOrder v).toFinset = freeCells v := by
    ext ⟨x, y⟩
    rw [List.mem_toFinset, freeOrder, List.mem_filter, mem_scanOrder, freeCells,
      Finset.mem_filter, Tiling.square, Finset.mem_product, Finset.mem_range, Finset.mem_range,
      decide_eq_true_iff]
    constructor
    · rintro ⟨⟨hx, hy, -⟩, hfree⟩
      exact ⟨⟨hx, hy⟩, hfree⟩
    · rintro ⟨⟨hx, hy⟩, hfree⟩
      exact ⟨⟨hx, hy, fun hsix => hfree (.inl hsix)⟩, hfree⟩
  rw [← card_free, ← hcells, List.toFinset_card_of_nodup hnodup]

/-! ## Codewords -/

/-- The bit that `drawCodewords` takes for its `i`-th place. -/
def bitAt (data : List UInt8) (i : Nat) : Bool :=
  getBit (data.getD (i >>> 3) 0).toNat (7 - (i &&& 7))

theorem map_bitAt (data : List UInt8) :
    (List.range (data.length * 8)).map (bitAt data) = QrCode.unpackBytes data := by
  have hbyte : ∀ k, (List.range 8).map (fun j => bitAt data (8 * k + j)) =
      Positional.bits 8 (data.getD k 0).toNat := by
    intro k
    have hbit : ∀ j ∈ List.range 8,
        bitAt data (8 * k + j) = (data.getD k 0).toNat.testBit (7 - j) := by
      intro j hj
      have hlt := List.mem_range.mp hj
      have hdiv : (8 * k + j) >>> 3 = k := by
        rw [Nat.shiftRight_eq_div_pow]
        omega
      have hmod : (8 * k + j) &&& 7 = j := by
        rw [Nat.and_two_pow_sub_one_eq_mod (n := 3)]
        omega
      rw [bitAt, getBit_eq, hdiv, hmod]
    rw [List.map_congr_left hbit]
    rfl
  rw [Nat.mul_comm, ← Positional.flatMap_groups (bitAt data), QrCode.unpackBytes]
  simp only [hbyte]
  conv_rhs => rw [← Interleave.map_getD_range data 0, List.flatMap_map]

/-- The canvas after the loops, with its modules as the letters of the places. -/
theorem foldl_placeCodewords (c : Canvas) (data : List UInt8) (order : List (Nat × Nat))
    (m : Nat → Nat → Bool) (i : Nat) :
    order.foldl (placeCodeword data) ({ c with modules := m }, i) =
      (let s := order.foldl (Placement.put (fun p => !c.isFunction p.2 p.1) (data.length * 8)
        (bitAt data)) (fun p => m p.2 p.1, i)
      ({ c with modules := fun y x => s.1 (x, y) }, s.2)) := by
  induction order generalizing m i with
  | nil => rfl
  | cons p order ih =>
    obtain ⟨x, y⟩ := p
    rw [List.foldl_cons, List.foldl_cons, Placement.put, placeCodeword]
    simp only
    split
    next h =>
      have hset : (fun p : Nat × Nat => setAt m y x (bitAt data i) p.2 p.1) =
          Function.update (fun p : Nat × Nat => m p.2 p.1) (x, y) (bitAt data i) := by
        funext p
        rw [Function.update_apply, setAt]
        simp only [Prod.ext_iff, and_comm]
      rw [← hset]
      exact ih _ (i + 1)
    next h => exact ih m i

/-- The modules after `drawCodewords`. -/
def placed (c : Canvas) (data : List UInt8) (y x : Nat) : Bool :=
  (Placement.place (fun p => !c.isFunction p.2 p.1) (data.length * 8) (bitAt data)
    (scanOrder c.size) fun p => c.modules p.2 p.1).1 (x, y)

/-- **The bits of the codewords** are put at the places of the scan that no pattern is drawn on, all
of them, and are read there in their order. No other module is changed. -/
theorem placeCodewords_spec {c : Canvas} {v : Version} (hv : c.version = v)
    (hpattern : ∀ x y : Nat, x < v * 4 + 17 → y < v * 4 + 17 →
      c.isFunction y x = decide (IsPattern v x y))
    {data : List UInt8} (hdata : data.length = QrCode.rawCodewords v) :
    c.placeCodewords data = ({ c with modules := c.placed data }, data.length * 8) ∧
      (∀ x y : Nat, x < v * 4 + 17 → y < v * 4 + 17 → IsPattern v x y →
        c.placed data y x = c.modules y x) ∧
      ((freeOrder v).map fun p => c.placed data p.2 p.1).take (data.length * 8) =
        QrCode.unpackBytes data := by
  have hsize : c.size = v * 4 + 17 := by rw [size, hv]
  have hfree : (scanOrder (v * 4 + 17)).filter (fun p => !c.isFunction p.2 p.1) =
      freeOrder v := by
    refine List.filter_congr fun p hp => ?_
    obtain ⟨hx, hy, -⟩ := mem_scanOrder.mp hp
    rw [hpattern p.1 p.2 hx hy, decide_not]
  have hroom : data.length * 8 ≤
      ((scanOrder (v * 4 + 17)).filter fun p => !c.isFunction p.2 p.1).length := by
    rw [hfree, length_freeOrder, hdata, QrCode.rawCodewords]
    omega
  obtain ⟨hcount, hframe, hread⟩ := Placement.place_spec (bitAt data) (nodup_scanOrder v)
    (fun p => c.modules p.2 p.1) hroom
  refine ⟨?_, ?_, ?_⟩
  · rw [placeCodewords, hsize, zigzag_eq]
    have hplaced : c.placed data = fun y x =>
        (Placement.place (fun p => !c.isFunction p.2 p.1) (data.length * 8) (bitAt data)
          (scanOrder (v * 4 + 17)) fun p => c.modules p.2 p.1).1 (x, y) := by
      funext y x
      rw [placed, hsize]
    rw [hplaced]
    exact (foldl_placeCodewords c data _ c.modules 0).trans (Prod.ext rfl hcount)
  · intro x y hx hy hp
    rw [placed, hsize]
    refine hframe (x, y) ?_
    rw [hfree, freeOrder, List.mem_filter]
    exact fun h => of_decide_eq_true h.2 hp
  · simp only [placed, hsize]
    rw [hfree] at hread
    rw [← map_bitAt]
    exact hread

end Canvas
end Chatcurse

import Mathlib.Data.List.Induction
import Mathlib.Data.Nat.Bitwise

/-!
# Numbers as digits and bits

A number is written with the most significant digit first. Bits are the digits to base 2, and a
reader takes them from the front of a list (`read_bits`). Digits to another base are written into
bits in groups of a fixed size, each group as one number of a width that depends on its size, and
read back if the width is enough (`unpack_packed`).
-/

namespace Positional

/-! ## Digits -/

/-- The number that the digits stand for. -/
def value (b : Nat) (ds : List Nat) : Nat := ds.foldl (fun v d => v * b + d) 0

/-- The last `n` digits of a number. -/
def digits (b : Nat) : Nat → Nat → List Nat
  | 0, _ => []
  | n + 1, v => digits b n (v / b) ++ [v % b]

@[simp] theorem value_nil (b : Nat) : value b [] = 0 := rfl

theorem value_concat (b : Nat) (ds : List Nat) (d : Nat) :
    value b (ds ++ [d]) = value b ds * b + d := by
  rw [value, List.foldl_append]
  rfl

theorem value_lt {b : Nat} {ds : List Nat} (h : ∀ d ∈ ds, d < b) : value b ds < b ^ ds.length := by
  induction ds using List.reverseRecOn with
  | nil => exact Nat.one_pos
  | append_singleton ds d ih =>
    obtain ⟨hds, hd⟩ := List.forall_mem_append.mp h
    have hlast : d < b := hd d List.mem_cons_self
    have hrest : value b ds + 1 ≤ b ^ ds.length := ih hds
    have hmul := Nat.mul_le_mul_right b hrest
    rw [value_concat, List.length_append, List.length_singleton, Nat.pow_succ]
    rw [Nat.succ_mul] at hmul
    omega

theorem digits_value {b : Nat} {ds : List Nat} (h : ∀ d ∈ ds, d < b) :
    digits b ds.length (value b ds) = ds := by
  induction ds using List.reverseRecOn with
  | nil => rfl
  | append_singleton ds d ih =>
    obtain ⟨hds, hd⟩ := List.forall_mem_append.mp h
    have hlast : d < b := hd d List.mem_cons_self
    have hpos : 0 < b := Nat.zero_lt_of_lt hlast
    have hdiv : (value b ds * b + d) / b = value b ds := by
      rw [Nat.mul_comm, Nat.mul_add_div hpos, Nat.div_eq_of_lt hlast, Nat.add_zero]
    have hmod : (value b ds * b + d) % b = d := by
      rw [Nat.mul_comm, Nat.mul_add_mod, Nat.mod_eq_of_lt hlast]
    rw [List.length_append, List.length_singleton, digits, value_concat, hdiv, hmod, ih hds]

/-! ## Bits -/

/-- The last `n` bits of a number. -/
def bits (n v : Nat) : List Bool := (List.range n).reverse.map v.testBit

def ofBits (bs : List Bool) : Nat := value 2 (bs.map Bool.toNat)

/-- The number in the first `n` bits, and the bits after it. -/
def read (n : Nat) (bs : List Bool) : Option (Nat × List Bool) :=
  if n ≤ bs.length then some (ofBits (bs.take n), bs.drop n) else none

@[simp] theorem length_bits (n v : Nat) : (bits n v).length = n := by simp [bits]

theorem bits_succ (n v : Nat) : bits (n + 1) v = bits n (v / 2) ++ [v.testBit 0] := by
  rw [bits, List.range_succ_eq_map, List.reverse_cons, List.map_append, ← List.map_reverse,
    List.map_map, bits]
  congr 1
  exact List.map_congr_left fun i _ => Nat.testBit_succ v i

theorem bits_cons (n v : Nat) : bits (n + 1) v = v.testBit n :: bits n v := by
  rw [bits, List.range_succ, List.reverse_append, List.map_append]
  rfl

theorem ofBits_concat (bs : List Bool) (b : Bool) :
    ofBits (bs ++ [b]) = ofBits bs * 2 + b.toNat := by
  rw [ofBits, List.map_append]
  exact value_concat 2 _ _

theorem ofBits_bits {n v : Nat} (h : v < 2 ^ n) : ofBits (bits n v) = v := by
  induction n generalizing v with
  | zero => exact (Nat.lt_one_iff.mp h).symm
  | succ n ih =>
    have hhalf : v / 2 < 2 ^ n := by
      rw [Nat.pow_succ] at h
      omega
    have hbit : (v.testBit 0).toNat = v % 2 := by
      rw [Nat.testBit_zero]
      rcases Nat.mod_two_eq_zero_or_one v with h0 | h0 <;> simp [h0]
    rw [bits_succ, ofBits_concat, ih hhalf, hbit]
    omega

theorem read_bits {n v : Nat} (h : v < 2 ^ n) (rest : List Bool) :
    read n (bits n v ++ rest) = some (v, rest) := by
  have hlen : n ≤ (bits n v ++ rest).length := by simp
  have htake : (bits n v ++ rest).take n = bits n v := by simp
  have hdrop : (bits n v ++ rest).drop n = rest := by simp
  rw [read, if_pos hlen, htake, hdrop, ofBits_bits h]

/-- Groups of `g` numbers one after another. -/
theorem flatMap_groups {α : Type*} (f : Nat → α) (g n : Nat) :
    (List.range n).flatMap (fun k => (List.range g).map fun i => f (g * k + i)) =
      (List.range (g * n)).map f := by
  induction n with
  | zero => rfl
  | succ n ih =>
    rw [List.range_succ, List.flatMap_append, ih, Nat.mul_succ, List.range_add, List.map_append,
      List.map_map]
    simp

/-! ## Digits in groups -/

/-- The digits to base `b` in groups of `g` digits, the last one of those that are left. -/
def packed (b g : Nat) (width : Nat → Nat) (ds : List Nat) : List Bool :=
  if ds = [] ∨ g = 0 then []
  else bits (width (ds.take g).length) (value b (ds.take g)) ++ packed b g width (ds.drop g)
termination_by ds.length
decreasing_by
  have hpos : 0 < ds.length := List.length_pos_iff.mpr (by tauto)
  rw [List.length_drop]
  omega

/-- `n` digits from the front of the bits. -/
def unpack (b g : Nat) (width : Nat → Nat) (n : Nat) (bs : List Bool) :
    Option (List Nat × List Bool) :=
  if n = 0 ∨ g = 0 then some ([], bs)
  else (read (width (min g n)) bs).bind fun (v, bs) =>
    (unpack b g width (n - min g n) bs).map fun (ds, bs) => (digits b (min g n) v ++ ds, bs)
termination_by n

variable {b g : Nat} {w : Nat → Nat}

@[simp] theorem packed_nil : packed b g w [] = [] := by
  rw [packed, if_pos (.inl rfl)]

theorem packed_of_ne_nil (hg : 0 < g) (h : ds ≠ []) : packed b g w ds =
    bits (w (ds.take g).length) (value b (ds.take g)) ++ packed b g w (ds.drop g) := by
  rw [packed, if_neg]
  rintro (h0 | h0)
  · exact h h0
  · omega

theorem length_packed (hg : 0 < g) (ds : List Nat) : (packed b g w ds).length =
    ds.length / g * w g + if ds.length % g = 0 then 0 else w (ds.length % g) := by
  rcases eq_or_ne ds [] with rfl | hne
  · simp
  · have hpos : 0 < ds.length := List.length_pos_iff.mpr hne
    rw [packed_of_ne_nil hg hne, List.length_append, length_bits, length_packed hg (ds.drop g),
      List.length_drop, List.length_take]
    rcases Nat.lt_or_ge ds.length g with hlt | hge
    · have hdrop : ds.length - g = 0 := by omega
      rw [hdrop, Nat.zero_div, Nat.zero_mul, Nat.zero_mod, if_pos rfl, Nat.div_eq_of_lt hlt,
        Nat.mod_eq_of_lt hlt, Nat.zero_mul, if_neg (by omega), Nat.min_eq_right hlt.le]
      omega
    · have hdiv : ds.length / g = (ds.length - g) / g + 1 := Nat.div_eq_sub_div hg hge
      have hmod : ds.length % g = (ds.length - g) % g := Nat.mod_eq_sub_mod hge
      rw [Nat.min_eq_left hge, hdiv, ← hmod, Nat.succ_mul]
      omega
termination_by ds.length
decreasing_by
  rw [List.length_drop]
  omega

/-- **The groups** are read as the digits they were made of. -/
theorem unpack_packed (hg : 0 < g) (hw : ∀ k ≤ g, b ^ k ≤ 2 ^ w k) (ds : List Nat)
    (hds : ∀ d ∈ ds, d < b) (rest : List Bool) :
    unpack b g w ds.length (packed b g w ds ++ rest) = some (ds, rest) := by
  rcases eq_or_ne ds [] with rfl | hne
  · rw [unpack, List.length_nil, if_pos (.inl rfl), packed_nil, List.nil_append]
  · have hpos : 0 < ds.length := List.length_pos_iff.mpr hne
    have hmin : min g ds.length = (ds.take g).length := (List.length_take ..).symm
    have hrest : ds.length - (ds.take g).length = (ds.drop g).length := by
      rw [List.length_drop, List.length_take]
      omega
    have htake : ∀ d ∈ ds.take g, d < b := fun d hd => hds d (List.mem_of_mem_take hd)
    have hlt : value b (ds.take g) < 2 ^ w (ds.take g).length :=
      Nat.lt_of_lt_of_le (value_lt htake) (hw _ (by rw [← hmin]; exact Nat.min_le_left ..))
    have hzero : ¬(ds.length = 0 ∨ g = 0) := by omega
    rw [packed_of_ne_nil hg hne, unpack, if_neg hzero, hmin, List.append_assoc, read_bits hlt]
    simp only [Option.bind_some]
    rw [hrest, unpack_packed hg hw (ds.drop g) (fun d hd => hds d (List.mem_of_mem_drop hd)) rest,
      digits_value htake]
    simp
termination_by ds.length
decreasing_by
  rw [List.length_drop]
  omega

end Positional

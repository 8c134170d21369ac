import Chatcurse.QrEncode
import Mathlib.Algebra.Field.Basic
import Mathlib.GroupTheory.OrderOfElement
import Mathlib.Tactic.NormNum.Prime

/-!
# The field of the error correction

`reedSolomonMultiply` with the exclusive or of bytes is the field of 256 elements, and the powers of
2 are all its elements but 0 (`reedSolomonMultiply_field`). A product is linear over bits in both
factors, as each turn of its loop is, so that its laws have to be tested on the eight bytes of one
bit only.
-/

namespace Chatcurse
namespace QrCode

/-! ## The loop of a product -/

/-- The part of a turn that the factors take no part in. -/
def double (z : Nat) : Nat := (z <<< 1) ^^^ ((z >>> 7) * 0x11D)

def multiplyStep (x y z i : Nat) : Nat := double z ^^^ (((y >>> i) &&& 1) * x)

theorem double_lt : ∀ z < 256, double z < 256 := by decide +kernel

theorem xor_lt (ha : a < 256) (hb : b < 256) : a ^^^ b < 256 := Nat.xor_lt_two_pow (n := 8) ha hb

theorem bit_xor_mul (hp : p < 2) (hq : q < 2) (m : Nat) : (p ^^^ q) * m = p * m ^^^ q * m := by
  obtain rfl | rfl : p = 0 ∨ p = 1 := by omega
  · rw [Nat.zero_xor, Nat.zero_mul, Nat.zero_xor]
  · obtain rfl | rfl : q = 0 ∨ q = 1 := by omega
    · rw [Nat.xor_zero, Nat.zero_mul, Nat.xor_zero]
    · rw [Nat.xor_self, Nat.zero_mul, Nat.xor_self]

theorem bit_mul_xor (hp : p < 2) (a b : Nat) : p * (a ^^^ b) = p * a ^^^ p * b := by
  obtain rfl | rfl : p = 0 ∨ p = 1 := by omega
  · simp
  · simp

theorem double_xor (ha : a < 256) (hb : b < 256) : double (a ^^^ b) = double a ^^^ double b := by
  have hbit : ∀ z < 256, z >>> 7 < 2 := by
    intro z hz
    rw [Nat.shiftRight_eq_div_pow]
    omega
  rw [double, Nat.shiftLeft_xor_distrib, Nat.shiftRight_xor_distrib,
    bit_xor_mul (hbit a ha) (hbit b hb), double, double]
  ac_rfl

theorem bit_lt (y i : Nat) : (y >>> i) &&& 1 < 2 := Nat.and_lt_two_pow (n := 1) _ (by decide)

theorem multiplyStep_lt (hx : x < 256) (hz : z < 256) (y i : Nat) :
    multiplyStep x y z i < 256 := by
  refine xor_lt (double_lt z hz) ?_
  have hbit := bit_lt y i
  obtain h | h : (y >>> i) &&& 1 = 0 ∨ (y >>> i) &&& 1 = 1 := by omega
  · rw [h]
    omega
  · rw [h]
    omega

theorem multiplyStep_xor_left (hz : z < 256) (hz' : z' < 256) (x x' y i : Nat) :
    multiplyStep (x ^^^ x') y (z ^^^ z') i = multiplyStep x y z i ^^^ multiplyStep x' y z' i := by
  rw [multiplyStep, double_xor hz hz', bit_mul_xor (bit_lt y i), multiplyStep, multiplyStep]
  ac_rfl

theorem multiplyStep_xor_right (hz : z < 256) (hz' : z' < 256) (x y y' i : Nat) :
    multiplyStep x (y ^^^ y') (z ^^^ z') i = multiplyStep x y z i ^^^ multiplyStep x y' z' i := by
  rw [multiplyStep, double_xor hz hz', Nat.shiftRight_xor_distrib, Nat.and_xor_distrib_right,
    bit_xor_mul (bit_lt y i) (bit_lt y' i), multiplyStep, multiplyStep]
  ac_rfl

/-- The loop is linear in the accumulator and the first factor together. -/
theorem foldl_multiplyStep_left (hx : x < 256) (hx' : x' < 256) (y : Nat) (is : List Nat)
    (hz : z < 256) (hz' : z' < 256) :
    is.foldl (multiplyStep (x ^^^ x') y) (z ^^^ z') =
      is.foldl (multiplyStep x y) z ^^^ is.foldl (multiplyStep x' y) z' := by
  induction is generalizing z z' with
  | nil => rfl
  | cons i is ih =>
    rw [List.foldl_cons, List.foldl_cons, List.foldl_cons, multiplyStep_xor_left hz hz',
      ih (multiplyStep_lt hx hz y i) (multiplyStep_lt hx' hz' y i)]

/-- And in the accumulator and the second factor. -/
theorem foldl_multiplyStep_right (hx : x < 256) (y y' : Nat) (is : List Nat)
    (hz : z < 256) (hz' : z' < 256) :
    is.foldl (multiplyStep x (y ^^^ y')) (z ^^^ z') =
      is.foldl (multiplyStep x y) z ^^^ is.foldl (multiplyStep x y') z' := by
  induction is generalizing z z' with
  | nil => rfl
  | cons i is ih =>
    rw [List.foldl_cons, List.foldl_cons, List.foldl_cons, multiplyStep_xor_right hz hz',
      ih (multiplyStep_lt hx hz y i) (multiplyStep_lt hx hz' y' i)]

theorem reedSolomonMultiply_eq (x y : UInt8) : reedSolomonMultiply x y =
    UInt8.ofNat ((List.range 8).reverse.foldl (multiplyStep x.toNat y.toNat) 0) := rfl

theorem reedSolomonMultiply_xor_left (x x' y : UInt8) :
    reedSolomonMultiply (x ^^^ x') y = reedSolomonMultiply x y ^^^ reedSolomonMultiply x' y := by
  have hzero : 0 < 256 := by decide
  have hloop := foldl_multiplyStep_left x.toNat_lt x'.toNat_lt y.toNat (List.range 8).reverse
    hzero hzero
  rw [Nat.xor_self] at hloop
  rw [reedSolomonMultiply_eq, UInt8.toNat_xor, hloop, UInt8.ofNat_xor]
  rfl

theorem reedSolomonMultiply_xor_right (x y y' : UInt8) :
    reedSolomonMultiply x (y ^^^ y') = reedSolomonMultiply x y ^^^ reedSolomonMultiply x y' := by
  have hzero : 0 < 256 := by decide
  have hloop := foldl_multiplyStep_right x.toNat_lt y.toNat y'.toNat (List.range 8).reverse
    hzero hzero
  rw [Nat.xor_self] at hloop
  rw [reedSolomonMultiply_eq, UInt8.toNat_xor, hloop, UInt8.ofNat_xor]
  rfl

/-! ## Laws from the bytes of one bit -/

theorem byte_bits (x : UInt8) : x = (List.range 8).foldl (fun (v : UInt8) (i : Nat) =>
    v ^^^ if getBit x.toNat i then UInt8.ofNat (1 <<< i) else 0) 0 := by
  have hall : ∀ n < 256, UInt8.ofNat n = (List.range 8).foldl (fun (v : UInt8) (i : Nat) =>
      v ^^^ if getBit n i then UInt8.ofNat (1 <<< i) else 0) 0 := by decide +kernel
  have hx := hall x.toNat x.toNat_lt
  rwa [UInt8.ofNat_toNat] at hx

/-- Maps that are linear over bits are the same if they are on the bytes of one bit. -/
theorem linear_ext {f g : UInt8 → UInt8} (hf : ∀ a b, f (a ^^^ b) = f a ^^^ f b)
    (hg : ∀ a b, g (a ^^^ b) = g a ^^^ g b)
    (h : ∀ i < 8, f (UInt8.ofNat (1 <<< i)) = g (UInt8.ofNat (1 <<< i))) (x : UInt8) :
    f x = g x := by
  have hzero : ∀ k : UInt8 → UInt8, (∀ a b, k (a ^^^ b) = k a ^^^ k b) → k 0 = 0 := by
    intro k hk
    have hkk := hk 0 0
    rwa [UInt8.xor_self, UInt8.xor_self] at hkk
  have hfold : ∀ (is : List Nat), (∀ i ∈ is, i < 8) → ∀ v : UInt8, f v = g v →
      f (is.foldl (fun (v : UInt8) (i : Nat) =>
        v ^^^ if getBit x.toNat i then UInt8.ofNat (1 <<< i) else 0) v) =
      g (is.foldl (fun (v : UInt8) (i : Nat) =>
        v ^^^ if getBit x.toNat i then UInt8.ofNat (1 <<< i) else 0) v) := by
    intro is his
    induction is with
    | nil => exact fun _ => id
    | cons i is ih =>
      intro v hv
      obtain ⟨hi, his⟩ := List.forall_mem_cons.mp his
      refine ih his _ ?_
      rw [hf, hg, hv]
      split
      · rw [h i hi]
      · rw [hzero f hf, hzero g hg]
  rw [byte_bits x]
  exact hfold _ (fun i hi => List.mem_range.mp hi) 0 (by rw [hzero f hf, hzero g hg])

theorem reedSolomonMultiply_comm (x y : UInt8) :
    reedSolomonMultiply x y = reedSolomonMultiply y x := by
  refine linear_ext (f := (reedSolomonMultiply · y)) (g := reedSolomonMultiply y)
    (fun a b => reedSolomonMultiply_xor_left a b y) (reedSolomonMultiply_xor_right y) ?_ x
  intro i hi
  refine linear_ext (reedSolomonMultiply_xor_right _)
    (g := (reedSolomonMultiply · (UInt8.ofNat (1 <<< i))))
    (fun a b => reedSolomonMultiply_xor_left a b _) ?_ y
  have hall : ∀ i < 8, ∀ j < 8,
      reedSolomonMultiply (UInt8.ofNat (1 <<< i)) (UInt8.ofNat (1 <<< j)) =
        reedSolomonMultiply (UInt8.ofNat (1 <<< j)) (UInt8.ofNat (1 <<< i)) := by decide +kernel
  exact hall i hi

theorem reedSolomonMultiply_assoc (x y z : UInt8) :
    reedSolomonMultiply (reedSolomonMultiply x y) z =
      reedSolomonMultiply x (reedSolomonMultiply y z) := by
  have hall : ∀ i < 8, ∀ j < 8, ∀ k < 8,
      reedSolomonMultiply (reedSolomonMultiply (UInt8.ofNat (1 <<< i)) (UInt8.ofNat (1 <<< j)))
          (UInt8.ofNat (1 <<< k)) =
        reedSolomonMultiply (UInt8.ofNat (1 <<< i))
          (reedSolomonMultiply (UInt8.ofNat (1 <<< j)) (UInt8.ofNat (1 <<< k))) := by
    decide +kernel
  refine linear_ext (f := fun x => reedSolomonMultiply (reedSolomonMultiply x y) z)
    (g := fun x => reedSolomonMultiply x (reedSolomonMultiply y z)) (fun a b => ?_) (fun a b => ?_)
    (fun i hi => ?_) x
  · simp only [reedSolomonMultiply_xor_left]
  · simp only [reedSolomonMultiply_xor_left]
  refine linear_ext (f := fun y => reedSolomonMultiply (reedSolomonMultiply _ y) z)
    (g := fun y => reedSolomonMultiply _ (reedSolomonMultiply y z)) (fun a b => ?_) (fun a b => ?_)
    (fun j hj => ?_) y
  · simp only [reedSolomonMultiply_xor_left, reedSolomonMultiply_xor_right]
  · simp only [reedSolomonMultiply_xor_left, reedSolomonMultiply_xor_right]
  refine linear_ext (f := fun z => reedSolomonMultiply (reedSolomonMultiply _ _) z)
    (g := fun z => reedSolomonMultiply _ (reedSolomonMultiply _ z)) (fun a b => ?_) (fun a b => ?_)
    (hall i hi j hj) z
  · simp only [reedSolomonMultiply_xor_right]
  · simp only [reedSolomonMultiply_xor_right]

theorem one_reedSolomonMultiply (x : UInt8) : reedSolomonMultiply 1 x = x :=
  linear_ext (g := id) (reedSolomonMultiply_xor_right 1) (fun _ _ => rfl) (by decide +kernel) x

/-! ## The field -/

/-- A byte as an element of the field. -/
structure GF256 where
  byte : UInt8
  deriving DecidableEq

namespace GF256

instance : Zero GF256 := ⟨⟨0⟩⟩
instance : One GF256 := ⟨⟨1⟩⟩
instance : Add GF256 := ⟨fun a b => ⟨a.byte ^^^ b.byte⟩⟩
instance : Neg GF256 := ⟨id⟩
instance : Mul GF256 := ⟨fun a b => ⟨reedSolomonMultiply a.byte b.byte⟩⟩

@[simp] theorem byte_zero : (0 : GF256).byte = 0 := rfl
@[simp] theorem byte_one : (1 : GF256).byte = 1 := rfl
@[simp] theorem byte_add (a b : GF256) : (a + b).byte = a.byte ^^^ b.byte := rfl
@[simp] theorem byte_neg (a : GF256) : (-a).byte = a.byte := rfl
@[simp] theorem byte_mul (a b : GF256) : (a * b).byte = reedSolomonMultiply a.byte b.byte := rfl

theorem byte_injective : Function.Injective byte := fun ⟨_⟩ ⟨_⟩ h => congrArg mk h

instance : CommRing GF256 where
  add_assoc a b c := byte_injective (UInt8.xor_assoc a.byte b.byte c.byte)
  zero_add a := byte_injective UInt8.zero_xor
  add_zero a := byte_injective UInt8.xor_zero
  add_comm a b := byte_injective (UInt8.xor_comm a.byte b.byte)
  neg_add_cancel a := byte_injective UInt8.xor_self
  mul_assoc a b c := byte_injective (reedSolomonMultiply_assoc a.byte b.byte c.byte)
  mul_comm a b := byte_injective (reedSolomonMultiply_comm a.byte b.byte)
  one_mul a := byte_injective (one_reedSolomonMultiply a.byte)
  mul_one a := byte_injective (by
    rw [byte_mul, reedSolomonMultiply_comm, byte_one, one_reedSolomonMultiply])
  left_distrib a b c := byte_injective (reedSolomonMultiply_xor_right a.byte b.byte c.byte)
  right_distrib a b c := byte_injective (reedSolomonMultiply_xor_left a.byte b.byte c.byte)
  zero_mul a := byte_injective (linear_ext (g := fun _ => 0) (reedSolomonMultiply_xor_right 0)
    (fun _ _ => UInt8.xor_self.symm) (by decide +kernel) a.byte)
  mul_zero a := byte_injective (by
    rw [byte_mul, reedSolomonMultiply_comm]
    exact linear_ext (g := fun _ => 0) (reedSolomonMultiply_xor_right 0)
      (fun _ _ => UInt8.xor_self.symm) (by decide +kernel) a.byte)
  nsmul := nsmulRec
  zsmul := zsmulRec

/-- The powers of which `reedSolomonComputeDivisor` takes for the roots. -/
def root : GF256 := ⟨2⟩

theorem orderOf_root : orderOf root = 255 := by
  refine orderOf_eq_of_pow_and_pow_div_prime (by decide) (by decide +kernel) fun p hp hdvd => ?_
  have hprod : p ∣ 3 * (5 * 17) := hdvd
  rcases (Nat.Prime.dvd_mul hp).mp hprod with h | h
  · rw [(Nat.prime_dvd_prime_iff_eq hp (by norm_num)).mp h]
    decide +kernel
  · rcases (Nat.Prime.dvd_mul hp).mp h with h | h
    · rw [(Nat.prime_dvd_prime_iff_eq hp (by norm_num)).mp h]
      decide +kernel
    · rw [(Nat.prime_dvd_prime_iff_eq hp (by norm_num)).mp h]
      decide +kernel

theorem root_pow_injective (hi : i < 255) (hj : j < 255) (h : root ^ i = root ^ j) : i = j :=
  pow_injOn_Iio_orderOf (Set.mem_Iio.mpr (orderOf_root ▸ hi)) (Set.mem_Iio.mpr (orderOf_root ▸ hj)) h

theorem root_pow_mul (hi : i < 255) : root ^ i * root ^ (255 - i) = 1 := by
  rw [← pow_add, Nat.add_sub_cancel' (Nat.le_of_lt hi), ← orderOf_root, pow_orderOf_eq_one]

def equivFin : GF256 ≃ Fin 256 where
  toFun a := a.byte.toFin
  invFun n := ⟨UInt8.ofFin n⟩
  left_inv _ := rfl
  right_inv _ := rfl

instance : Fintype GF256 := Fintype.ofEquiv _ equivFin.symm

theorem zero_ne_one : (0 : GF256) ≠ 1 := by decide

/-- There are as many powers as elements but 0. -/
theorem exists_root_pow {a : GF256} (ha : a ≠ 0) : ∃ i < 255, root ^ i = a := by
  have hsub : (Finset.range 255).image (root ^ ·) ⊆ Finset.univ.erase 0 := by
    intro b hb
    obtain ⟨i, hi, rfl⟩ := Finset.mem_image.mp hb
    refine Finset.mem_erase.mpr ⟨fun hzero => ?_, Finset.mem_univ _⟩
    have hone := root_pow_mul (Finset.mem_range.mp hi)
    rw [hzero, zero_mul] at hone
    exact zero_ne_one hone
  have hcard : ((Finset.range 255).image (root ^ ·)).card = 255 := by
    rw [Finset.card_image_of_injOn, Finset.card_range]
    intro i hi j hj
    exact root_pow_injective (Finset.mem_range.mp hi) (Finset.mem_range.mp hj)
  have hcount : (Finset.univ.erase (0 : GF256)).card = 255 := by
    rw [Finset.card_erase_of_mem (Finset.mem_univ _), Finset.card_univ, Fintype.card_congr equivFin,
      Fintype.card_fin]
  have hall := Finset.eq_of_subset_of_card_le hsub (by rw [hcard, hcount])
  have hmem : a ∈ (Finset.range 255).image (root ^ ·) := by
    rw [hall]
    exact Finset.mem_erase.mpr ⟨ha, Finset.mem_univ _⟩
  obtain ⟨i, hi, hpow⟩ := Finset.mem_image.mp hmem
  exact ⟨i, Finset.mem_range.mp hi, hpow⟩

theorem exists_inverse {a : GF256} (ha : a ≠ 0) : ∃ b, a * b = 1 := by
  obtain ⟨i, hi, rfl⟩ := exists_root_pow ha
  exact ⟨_, root_pow_mul hi⟩

instance : Nontrivial GF256 := ⟨0, 1, zero_ne_one⟩

instance : NoZeroDivisors GF256 where
  eq_zero_or_eq_zero_of_mul_eq_zero := by
    intro a b h
    refine or_iff_not_imp_left.mpr fun ha => ?_
    obtain ⟨c, hc⟩ := exists_inverse ha
    calc b = a * c * b := by rw [hc, one_mul]
      _ = a * b * c := mul_right_comm a c b
      _ = 0 := by rw [h, zero_mul]

instance : IsDomain GF256 := NoZeroDivisors.to_isDomain GF256

theorem byte_root_pow (i : Nat) : (root ^ i).byte = (reedSolomonMultiply · 0x02)^[i] 1 := by
  induction i with
  | zero => rfl
  | succ i ih =>
    rw [Function.iterate_succ_apply', ← ih, pow_succ]
    rfl

end GF256

/-- **The field.** Products are distributive over the exclusive or, commutative and associative, and
each byte but 0 has an inverse and is a power of 2 with one exponent below 255. -/
theorem reedSolomonMultiply_field (x y z : UInt8) :
    reedSolomonMultiply x (y ^^^ z) = reedSolomonMultiply x y ^^^ reedSolomonMultiply x z ∧
    reedSolomonMultiply x y = reedSolomonMultiply y x ∧
    reedSolomonMultiply (reedSolomonMultiply x y) z =
      reedSolomonMultiply x (reedSolomonMultiply y z) ∧
    reedSolomonMultiply 1 x = x ∧
    (x ≠ 0 → (∃ y, reedSolomonMultiply x y = 1) ∧
      ∃! i, i < 255 ∧ x = (reedSolomonMultiply · 0x02)^[i] 1) := by
  refine ⟨reedSolomonMultiply_xor_right x y z, reedSolomonMultiply_comm x y,
    reedSolomonMultiply_assoc x y z, one_reedSolomonMultiply x, fun hx => ?_⟩
  have hx' : (⟨x⟩ : GF256) ≠ 0 := fun h => hx (congrArg GF256.byte h)
  obtain ⟨y, hy⟩ := GF256.exists_inverse hx'
  obtain ⟨i, hi, hpow⟩ := GF256.exists_root_pow hx'
  have hbyte : x = (reedSolomonMultiply · 0x02)^[i] 1 := by
    rw [← GF256.byte_root_pow, hpow]
  refine ⟨⟨y.byte, congrArg GF256.byte hy⟩, i, ⟨hi, hbyte⟩, fun j ⟨hj, hj'⟩ => ?_⟩
  refine GF256.root_pow_injective hj hi (GF256.byte_injective ?_)
  rw [GF256.byte_root_pow, GF256.byte_root_pow, ← hj', ← hbyte]

end QrCode
end Chatcurse

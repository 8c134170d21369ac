import Chatcurse.Verify.QrMask

/-!
# The constructor of a QR code

The symbol of each mask, from the function patterns, the codewords and the mask (`construct_eq`). The
constructor without a mask makes the symbol of the mask with the least penalty
(`construct_least_penalty`).
-/

namespace Chatcurse
namespace Canvas
open QrCode (Version)

/-- The canvas with the function patterns. -/
def patterned (v : Version) (ecl : Ecc) (mask : Int) : Canvas :=
  ({ version := v, errorCorrectionLevel := ecl, mask := mask } : Canvas).paint
    (functionPatterns v ecl)

/-- The canvas with the function patterns and the codewords. -/
def base (v : Version) (ecl : Ecc) (raw : List UInt8) (mask : Int) : Canvas :=
  { patterned v ecl mask with modules := (patterned v ecl mask).placed raw }

/-- The code of a mask. -/
def final (v : Version) (ecl : Ecc) (raw : List UInt8) (i : Nat) : Canvas :=
  { (base v ecl raw 0).symbol i with mask := i, isFunction := fun _ _ => false }

theorem isFunction_patterned (v : Version) (ecl : Ecc) (mask : Int) (x y : Nat) :
    (patterned v ecl mask).isFunction y x = touched (functionPatterns v ecl) x y := by
  rw [patterned, isFunction_paint]
  simp only [Bool.false_or]

theorem isFunction_pattern (v : Version) (ecl : Ecc) (mask : Int) (x y : Nat)
    (hx : x < v * 4 + 17) (hy : y < v * 4 + 17) :
    (patterned v ecl mask).isFunction y x = decide (IsPattern v x y) := by
  rw [isFunction_patterned, Bool.eq_iff_iff, touched_functionPatterns v ecl hx hy,
    decide_eq_true_iff]

theorem touched_of_inFormat (v : Version) (ecl : Ecc) {x y : Nat}
    (h : InFormat ((v * 4 + 17 : Nat) : Int) x y) : touched (functionPatterns v ecl) x y = true := by
  have hpos : 1 ≤ v.val := v.2.1
  have htouched := (draws_formatModules ((v * 4 + 17 : Nat) : Int) (by omega)
    (formatBits ecl 0)).touched_iff.mpr h
  rw [functionPatterns]
  simp only [touched_append, htouched, Bool.or_true, Bool.true_or]

theorem hasFormat_base (v : Version) (ecl : Ecc) (raw : List UInt8) (mask : Int) :
    (base v ecl raw mask).HasFormat where
  size_le := by
    have hpos : 1 ≤ v.val := v.2.1
    have hsize : (base v ecl raw mask).size = v.val * 4 + 17 := rfl
    omega
  isFunction := fun x y hplace => by
    have hsize : ((base v ecl raw mask).size : Int) = ((v * 4 + 17 : Nat) : Int) := rfl
    rw [hsize] at hplace
    rw [base, isFunction_patterned]
    exact touched_of_inFormat v ecl hplace

theorem drawCodewords_eq {v : Version} {ecl : Ecc} {raw : List UInt8}
    (hraw : raw.length = QrCode.rawCodewords v) (mask : Int) :
    (patterned v ecl mask).drawCodewords raw = .ok (base v ecl raw mask) := by
  have hplace := (placeCodewords_spec (c := patterned v ecl mask) (v := v) rfl
    (isFunction_pattern v ecl mask) hraw).1
  have hlen : ¬raw.length ≠ QrCode.getNumRawDataModules (patterned v ecl mask).version / 8 :=
    not_not.mpr hraw
  rw [drawCodewords, if_neg hlen, hplace]
  rfl

/-- **The codewords** are drawn after the function patterns if they are as many as the symbol has. No
bit is left over, the function modules stay as they are, and the bits are at the other places in the
order of the scan. -/
theorem drawCodewords_bits (v : Version) (ecl : Ecc) (mask : Int) (raw : List UInt8) :
    ∃ c, ({ version := v, errorCorrectionLevel := ecl, mask := mask } :
        Canvas).drawFunctionPatterns = .ok c ∧
      match c.drawCodewords raw with
      | .ok c' =>
        raw.length = QrCode.getNumRawDataModules v / 8 ∧
          (c.placeCodewords raw).2 = raw.length * 8 ∧ c'.isFunction = c.isFunction ∧
          (∀ x y : Nat, x < v * 4 + 17 → y < v * 4 + 17 → c.isFunction y x = true →
            c'.modules y x = c.modules y x) ∧
          (((zigzag (v * 4 + 17)).filter fun p => !c.isFunction p.2 p.1).map
            fun p => c'.modules p.2 p.1).take (raw.length * 8) = QrCode.unpackBytes raw
      | .error e =>
        raw.length ≠ QrCode.getNumRawDataModules v / 8 ∧
          e = .invalidArgument "Invalid argument" := by
  refine ⟨patterned v ecl mask, drawFunctionPatterns_eq rfl, ?_⟩
  have hpattern := isFunction_pattern v ecl mask
  by_cases hraw : raw.length = QrCode.rawCodewords v
  · obtain ⟨hplace, hframe, hread⟩ := placeCodewords_spec rfl hpattern hraw
    have hfree : (zigzag (v * 4 + 17)).filter
        (fun p => !(patterned v ecl mask).isFunction p.2 p.1) = freeOrder v := by
      rw [zigzag_eq, freeOrder]
      refine List.filter_congr fun p hp => ?_
      obtain ⟨hx, hy, -⟩ := mem_scanOrder.mp hp
      rw [hpattern p.1 p.2 hx hy, decide_not]
    rw [drawCodewords_eq hraw, base, hplace, hfree]
    generalize patterned v ecl mask = c at hpattern hframe hread ⊢
    refine ⟨hraw, rfl, rfl, fun x y hx hy hfunction => hframe x y hx hy ?_, hread⟩
    exact of_decide_eq_true ((hpattern x y hx hy).symm.trans hfunction)
  · have hlen : raw.length ≠ QrCode.getNumRawDataModules (patterned v ecl mask).version / 8 := hraw
    rw [drawCodewords, if_pos hlen]
    exact ⟨hraw, rfl⟩

section
variable {v : Version} {ecl : Ecc} {data raw : List UInt8}

/-- The constructor after its checks and the function patterns. -/
theorem construct_patterned {mask : Int} (hmask : -1 ≤ mask ∧ mask ≤ 7) :
    construct v ecl data mask =
      (QrCode.addEccAndInterleave v ecl data).bind fun raw =>
        ((patterned v ecl mask).drawCodewords raw).bind fun c =>
          (if mask = -1 then (c.chooseMask).map fun (c, msk, _) => (c, msk)
          else .ok (c, mask)).bind fun (c, msk) =>
            (c.applyMask msk).bind fun c => (c.drawFormatBits msk.toNat).bind fun c =>
              .ok { c with mask := msk, isFunction := fun _ _ => false } := by
  have hver : ¬((v.val : Int) < QrCode.MIN_VERSION ∨ (v.val : Int) > QrCode.MAX_VERSION) := by
    have h : 1 ≤ v.val ∧ v.val ≤ 40 := v.2
    simp only [QrCode.MIN_VERSION, QrCode.MAX_VERSION]
    omega
  have hmask' : ¬(mask < -1 ∨ mask > 7) := by omega
  have hpatterns : ({ version := v, errorCorrectionLevel := ecl, mask := mask } :
      Canvas).drawFunctionPatterns = .ok (patterned v ecl mask) := drawFunctionPatterns_eq rfl
  rw [construct]
  simp only [if_neg hver, if_neg hmask', bind, Except.bind, pure, Except.pure, Int.toNat_natCast,
    hpatterns]
  cases QrCode.addEccAndInterleave v ecl data with
  | error => rfl
  | ok raw =>
    cases hplaced : (patterned v ecl mask).drawCodewords raw with
    | error => simp only [hplaced]
    | ok c =>
      simp only [hplaced]
      split <;> rfl

/-- The constructor up to the choice of the mask. -/
theorem construct_bind {mask : Int} (hmask : -1 ≤ mask ∧ mask ≤ 7)
    (hcodewords : QrCode.addEccAndInterleave v ecl data = .ok raw)
    (hraw : raw.length = QrCode.rawCodewords v) :
    construct v ecl data mask =
      (if mask = -1 then
        ((base v ecl raw mask).chooseMask).map fun (c, msk, _) => (c, msk)
      else .ok (base v ecl raw mask, mask)).bind fun (c, msk) =>
        (c.applyMask msk).bind fun c => (c.drawFormatBits msk.toNat).bind fun c =>
          .ok { c with mask := msk, isFunction := fun _ _ => false } := by
  rw [construct_patterned hmask, hcodewords, Except.bind, drawCodewords_eq hraw, Except.bind]

theorem construct_eq (hcodewords : QrCode.addEccAndInterleave v ecl data = .ok raw)
    (hraw : raw.length = QrCode.rawCodewords v) {i : Nat} (hi : i < 8) :
    construct v ecl data i = .ok (final v ecl raw i) := by
  have hformat : ((base v ecl raw i).masked i).drawFormatBits i =
      .ok ((base v ecl raw i).symbol i) :=
    drawFormatBits_eq ((hasFormat_base v ecl raw i).masked i).size_le i
  rw [construct_bind (by omega) hcodewords hraw, if_neg (by omega)]
  simp only [Except.bind, applyMask_eq _ hi, Int.toNat_natCast, hformat]
  rfl

theorem penalty_base (mask : Int) (i : Nat) :
    (base v ecl raw mask).penalty i = (final v ecl raw i).getPenaltyScore :=
  getPenaltyScore_congr rfl rfl

theorem construct_choice (hcodewords : QrCode.addEccAndInterleave v ecl data = .ok raw)
    (hraw : raw.length = QrCode.rawCodewords v) :
    ∃ m : Nat, m < 8 ∧ construct v ecl data (-1) = .ok (final v ecl raw m) ∧
      ∀ j < 8, (final v ecl raw m).getPenaltyScore ≤ (final v ecl raw j).getPenaltyScore ∧
        (j < m → (final v ecl raw m).getPenaltyScore < (final v ecl raw j).getPenaltyScore) := by
  have hbase := hasFormat_base v ecl raw (-1)
  obtain ⟨m, hm, hchoose, hleast⟩ := chooseMask_eq hbase v.2.2
  simp only [penalty_base] at hchoose hleast
  have hpainted := hbase.painted 8
  have hformat : (((base v ecl raw (-1)).painted 8).masked m).drawFormatBits m =
      .ok (((base v ecl raw (-1)).painted 8).symbol m) :=
    drawFormatBits_eq (hpainted.masked m).size_le m
  rw [hbase.symbol_painted] at hformat
  refine ⟨m, hm, ?_, hleast⟩
  rw [construct_bind (by omega) hcodewords hraw, if_pos rfl, hchoose]
  simp only [Except.map, Except.bind, applyMask_eq _ hm, Int.toNat_natCast, hformat]
  rfl

theorem construct_error {e : QrError} {mask : Int} (hmask : -1 ≤ mask ∧ mask ≤ 7)
    (hcodewords : QrCode.addEccAndInterleave v ecl data = .error e) :
    construct v ecl data mask = .error e := by
  rw [construct_patterned hmask, hcodewords]
  rfl

end

/-- **The mask.** Without a mask, the constructor makes the code of the first mask whose code has the
least penalty of the eight. -/
theorem construct_least_penalty (v : Version) (ecl : Ecc) (data : List UInt8) :
    match construct v ecl data (-1) with
    | .ok c =>
      ∃ m : Nat, m < 8 ∧ c.mask = m ∧ construct v ecl data m = .ok c ∧
        ∀ i < 8, ∃ c', construct v ecl data (i : Nat) = .ok c' ∧
          c.getPenaltyScore ≤ c'.getPenaltyScore ∧
          (i < m → c.getPenaltyScore < c'.getPenaltyScore)
    | .error e => ∀ i < 8, construct v ecl data (i : Nat) = .error e := by
  by_cases hlen : data.length = QrCode.getNumDataCodewords v ecl
  · have hcodewords := QrCode.addEccAndInterleave_eq hlen
    have hraw : ((QrCode.order v ecl).map (QrCode.letter v ecl data)).length =
        QrCode.rawCodewords v := by rw [List.length_map, QrCode.length_order]
    obtain ⟨m, hm, hchoice, hleast⟩ := construct_choice hcodewords hraw
    rw [hchoice]
    refine ⟨m, hm, rfl, construct_eq hcodewords hraw hm, fun i hi => ?_⟩
    exact ⟨_, construct_eq hcodewords hraw hi, hleast i hi⟩
  · have hcodewords := QrCode.addEccAndInterleave_error hlen
    rw [construct_error (by omega) hcodewords]
    exact fun i hi => construct_error (by omega) hcodewords

end Canvas
end Chatcurse

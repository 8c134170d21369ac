import Chatcurse.QrEncode
import Chatcurse.Verify.QrSegments
import Mathlib.Algebra.Order.BigOperators.Group.List
import Mathlib.Algebra.Order.Group.Nat

/-!
# The data of a QR code

`encodeSegments` takes the least version that the segments fit in and the highest level that they
fit at. The data codewords have the capacity of these, and the contents are read from them
(`dataCodewords_contents`).
-/

namespace Chatcurse

open Positional (bits packed unpack read)

namespace Content

/-! ## Reading contents -/

/-- The count of a content fits its field at a version. -/
def CountFits (version : Nat) (c : Content) : Prop :=
  c.numChars < 2 ^ c.mode.numCharCountBits version

/-- The bits of a segment with its header. -/
def header (version : Nat) (c : Content) : BitBuffer :=
  bits 4 c.mode.modeBits ++ (bits (c.mode.numCharCountBits version) c.numChars ++ c.data)

theorem readEci_data (v : Fin 1000000) (rest : BitBuffer) :
    readEci ((eci v).data ++ rest) = some (v.val, rest) := by
  have hv := v.isLt
  have h7 : 1 <<< 7 = 128 := rfl
  have h14 : 1 <<< 14 = 16384 := rfl
  rw [data, h7, h14]
  split
  next hshort =>
    have hbit : v.val.testBit 7 = false := Nat.testBit_lt_two_pow hshort
    rw [Positional.bits_cons, hbit]
    exact Positional.read_bits hshort rest
  next =>
    split
    next hlong => exact Positional.read_bits hlong rest
    next =>
      have hfit : v.val < 2 ^ 21 := by omega
      exact Positional.read_bits hfit rest

theorem map_ofNat_val {n : Nat} [NeZero n] (l : List (Fin n)) :
    (l.map Fin.val).map (Fin.ofNat n) = l := by
  rw [List.map_map]
  refine Eq.trans (List.map_congr_left fun d _ => ?_) (List.map_id l)
  exact Fin.ofNat_val_eq_self d

theorem readContent_header {version : Nat} {c : Content} (h : c.CountFits version)
    (rest : BitBuffer) :
    readContent version c.mode
      (bits (c.mode.numCharCountBits version) c.numChars ++ c.data ++ rest) = some (c, rest) := by
  rw [readContent, List.append_assoc, Positional.read_bits h]
  cases c with
  | numeric ds =>
    have hunpack := Positional.unpack_packed (b := 10) (g := 3) (w := digitBits) (by decide)
      (by decide) (ds.map Fin.val)
      (fun d hd => by obtain ⟨i, -, rfl⟩ := List.mem_map.mp hd; exact i.isLt) rest
    rw [List.length_map] at hunpack
    simp only [Option.bind_some, mode, numChars, data, hunpack, Option.map_some, map_ofNat_val]
  | alphanumeric ds =>
    have hunpack := Positional.unpack_packed (b := 45) (g := 2) (w := charBits) (by decide)
      (by decide) (ds.map Fin.val)
      (fun d hd => by obtain ⟨i, -, rfl⟩ := List.mem_map.mp hd; exact i.isLt) rest
    rw [List.length_map] at hunpack
    simp only [Option.bind_some, mode, numChars, data, hunpack, Option.map_some, map_ofNat_val]
  | bytes bs =>
    have hunpack := Positional.unpack_packed (b := 256) (g := 1) (w := fun _ => 8) (by decide)
      (by decide) (bs.map UInt8.toNat)
      (fun d hd => by obtain ⟨b, -, rfl⟩ := List.mem_map.mp hd; exact b.toNat_lt) rest
    have hmap : (bs.map UInt8.toNat).map UInt8.ofNat = bs := by
      rw [List.map_map]
      exact Eq.trans (List.map_congr_left fun b _ => UInt8.ofNat_toNat) (List.map_id bs)
    rw [List.length_map] at hunpack
    simp only [Option.bind_some, mode, numChars, data, hunpack, Option.map_some, hmap]
  | eci v =>
    have hv : Fin.ofNat 1000000 v.val = v := Fin.ofNat_val_eq_self v
    simp only [Option.bind_some, mode, readEci_data, Option.map_some, hv]

theorem readMode_modeBits (m : Mode) : readMode m.modeBits = some m := by cases m <;> rfl

theorem exists_modeBits (m : Mode) : ∃ n, m.modeBits = n + 1 ∧ n + 1 < 2 ^ 4 := by
  cases m <;> exact ⟨_, rfl, by decide⟩

/-- What no content is read from: a terminator, or too few bits for a mode. -/
def Ends (bs : BitBuffer) : Prop := bs.length < 4 ∨ ∃ rest, bs = bits 4 0 ++ rest

/-- **Contents** are read from their segments with headers. -/
theorem readContents_headers {version : Nat} (cs : List Content)
    (h : ∀ c ∈ cs, c.CountFits version) {rest : BitBuffer} (hrest : Ends rest) {fuel : Nat}
    (hfuel : cs.length < fuel) :
    readContents version fuel (cs.flatMap (header version) ++ rest) = some cs := by
  induction cs generalizing fuel with
  | nil =>
    obtain ⟨fuel, rfl⟩ : ∃ n, fuel = n + 1 := ⟨fuel - 1, by omega⟩
    rw [List.flatMap_nil, List.nil_append, readContents]
    rcases hrest with hshort | ⟨rest, rfl⟩
    · rw [Positional.read, if_neg (by omega)]
    · rw [Positional.read_bits (by decide)]
  | cons c cs ih =>
    obtain ⟨fuel, rfl⟩ : ∃ n, fuel = n + 1 := ⟨fuel - 1, by omega⟩
    obtain ⟨hc, hcs⟩ := List.forall_mem_cons.mp h
    obtain ⟨n, hn, hmode⟩ := exists_modeBits c.mode
    rw [← hn] at hmode
    have hread : read 4 ((c :: cs).flatMap (header version) ++ rest) =
        some (n + 1, bits (c.mode.numCharCountBits version) c.numChars ++ c.data ++
          (cs.flatMap (header version) ++ rest)) := by
      rw [List.flatMap_cons, header, List.append_assoc, List.append_assoc,
        Positional.read_bits hmode, hn]
    rw [readContents, hread]
    simp only [← hn, readMode_modeBits, readContent_header hc,
      ih hcs (Nat.lt_of_succ_lt_succ hfuel), Option.bind_some, Option.map_some]

theorem length_header (version : Nat) (c : Content) :
    (c.header version).length = QrSegment.totalBits version c.segment := by
  simp only [header, QrSegment.totalBits, segment, List.length_append, Positional.length_bits]
  omega

end Content

namespace QrCode
open QrSegment (totalBits getTotalBits addTotalBits)

/-! ## The version -/

/-- The number of characters of a segment fits its field at a version. -/
def CountFits (version : Nat) (seg : QrSegment) : Prop :=
  seg.numChars < 2 ^ seg.mode.numCharCountBits version

theorem addTotalBits_of_fits (hcount : CountFits version seg)
    (hsum : r + totalBits version seg ≤ INT_MAX) :
    addTotalBits version r seg = some (r + totalBits version seg) := by
  rw [CountFits] at hcount
  rw [totalBits] at hsum ⊢
  rw [addTotalBits, Nat.one_shiftLeft]
  simp only
  rw [if_neg (by omega), if_neg (by omega), if_neg (by omega), Nat.add_assoc r]

theorem addTotalBits_of_not_fits
    (h : ¬(CountFits version seg ∧ r + totalBits version seg ≤ INT_MAX)) :
    addTotalBits version r seg = none := by
  rw [CountFits, totalBits] at h
  rw [addTotalBits, Nat.one_shiftLeft]
  simp only
  split
  · rfl
  · split
    · rfl
    · rw [if_pos (by omega)]

theorem foldlM_addTotalBits (version : Nat) (segs : List QrSegment) {r : Nat} (hr : r ≤ INT_MAX)
    (used : Nat) : segs.foldlM (addTotalBits version) r = some used ↔
      (∀ seg ∈ segs, CountFits version seg) ∧ used = r + (segs.map (totalBits version)).sum ∧
        used ≤ INT_MAX := by
  induction segs generalizing r with
  | nil =>
    simp only [List.foldlM_nil, List.map_nil, List.sum_nil, Nat.add_zero]
    constructor
    · intro h
      obtain rfl := Option.some.inj h
      exact ⟨List.forall_mem_nil _, rfl, hr⟩
    · rintro ⟨-, rfl, -⟩
      rfl
  | cons seg segs ih =>
    rw [List.foldlM_cons, List.map_cons, List.sum_cons, List.forall_mem_cons, ← Nat.add_assoc]
    by_cases hfit : CountFits version seg ∧ r + totalBits version seg ≤ INT_MAX
    · rw [addTotalBits_of_fits hfit.1 hfit.2]
      refine (ih hfit.2).trans ⟨fun h => ⟨⟨hfit.1, h.1⟩, h.2⟩, fun h => ⟨h.1.2, h.2⟩⟩
    · rw [addTotalBits_of_not_fits hfit]
      constructor
      · exact fun h => (Option.some_ne_none _ h.symm).elim
      · rintro ⟨⟨hcount, -⟩, hused, hmax⟩
        exact (hfit ⟨hcount, by omega⟩).elim

theorem getTotalBits_eq_some (segs : List QrSegment) (version used : Nat) :
    getTotalBits segs version = some used ↔
      (∀ seg ∈ segs, CountFits version seg) ∧ used = (segs.map (totalBits version)).sum ∧
        used ≤ INT_MAX := by
  have hfold := foldlM_addTotalBits version segs (r := 0) (Nat.zero_le _) used
  rwa [Nat.zero_add] at hfold

/-- The segments fit in a symbol of a version and level. -/
def Fits (segs : List QrSegment) (ecl : Ecc) (version : Nat) : Prop :=
  (∀ seg ∈ segs, CountFits version seg) ∧
    (segs.map (totalBits version)).sum ≤ getNumDataCodewords version ecl * 8

theorem capacity_le (h : version ≤ MAX_VERSION) (ecl : Ecc) :
    getNumDataCodewords version ecl * 8 ≤ INT_MAX := by
  have hall : ∀ version ≤ 40, getNumDataCodewords version ecl * 8 ≤ INT_MAX := by
    cases ecl <;> decide +kernel
  exact hall version h

/-- A content that there is room for has no more characters than its field can say. -/
theorem countFits_of_room {c : Content} (hmode : c.mode ≠ .ECI) (hver : version ≤ MAX_VERSION)
    (hroom : totalBits version c.segment ≤ getNumDataCodewords version ecl * 8) :
    CountFits version c.segment := by
  have hall : ∀ version ≤ 40,
      getNumDataCodewords version ecl * 24 < 10 * 2 ^ Mode.NUMERIC.numCharCountBits version ∧
      getNumDataCodewords version ecl * 16 < 11 * 2 ^ Mode.ALPHANUMERIC.numCharCountBits version ∧
      getNumDataCodewords version ecl < 2 ^ Mode.BYTE.numCharCountBits version := by
    cases ecl <;> decide +kernel
  obtain ⟨hnumeric, halphanumeric, hbytes⟩ := hall version hver
  rw [CountFits]
  cases c with
  | numeric ds =>
    rw [QrSegment.totalBits_numeric] at hroom
    change ds.length < 2 ^ Mode.NUMERIC.numCharCountBits version
    split at hroom <;> omega
  | alphanumeric ds =>
    rw [QrSegment.totalBits_alphanumeric] at hroom
    change ds.length < 2 ^ Mode.ALPHANUMERIC.numCharCountBits version
    split at hroom <;> omega
  | bytes bs =>
    rw [QrSegment.totalBits_bytes] at hroom
    change bs.length < 2 ^ Mode.BYTE.numCharCountBits version
    omega
  | eci => exact (hmode rfl).elim

/-- The shortest contents fit where a longer one does. -/
theorem fits_of_le {cs : List Content} {seg : QrSegment} (hmode : ∀ c ∈ cs, c.mode ≠ .ECI)
    (hver : version ≤ MAX_VERSION)
    (hle : ((cs.map Content.segment).map (totalBits version)).sum ≤ totalBits version seg)
    (hfit : Fits [seg] ecl version) : Fits (cs.map Content.segment) ecl version := by
  have hroom : totalBits version seg ≤ getNumDataCodewords version ecl * 8 := by simpa using hfit.2
  refine ⟨fun s hs => ?_, hle.trans hroom⟩
  obtain ⟨c, hc, rfl⟩ := List.mem_map.mp hs
  refine countFits_of_room (hmode c hc) hver (le_trans ?_ (hle.trans hroom))
  exact List.le_sum_of_mem (List.mem_map_of_mem hs)

/-- The error that says why the segments do not fit at a version. -/
def tooLong (segs : List QrSegment) (ecl : Ecc) (version : Nat) : QrError :=
  match getTotalBits segs version with
  | some used => .dataTooLong ("Data length = " ++ toString used ++ " bits, Max capacity = " ++
      toString (getNumDataCodewords version ecl * 8) ++ " bits")
  | none => .dataTooLong "Segment too long"

theorem findVersion_of_fits (hmax : version ≤ MAX_VERSION) (hfit : Fits segs ecl version)
    (maxVersion : Nat) : findVersion segs ecl maxVersion version =
      .ok (version, (segs.map (totalBits version)).sum) := by
  have hbits := (getTotalBits_eq_some segs version _).mpr
    ⟨hfit.1, rfl, hfit.2.trans (capacity_le hmax ecl)⟩
  rw [findVersion, hbits]
  exact if_pos hfit.2

theorem findVersion_of_not_fits (hfit : ¬Fits segs ecl version) (maxVersion : Nat) :
    findVersion segs ecl maxVersion version =
      if version ≥ maxVersion then .error (tooLong segs ecl version)
      else findVersion segs ecl maxVersion (version + 1) := by
  rw [findVersion, tooLong]
  cases hbits : getTotalBits segs version with
  | none => rfl
  | some used =>
    obtain ⟨hcount, rfl, -⟩ := (getTotalBits_eq_some segs version used).mp hbits
    exact if_neg fun hle => hfit ⟨hcount, hle⟩

/-- The least version that the segments fit at, if there is one. -/
theorem findVersion_least (segs : List QrSegment) (ecl : Ecc) {maxVersion : Nat}
    (hmax : maxVersion ≤ MAX_VERSION) {version : Nat} (hver : version ≤ maxVersion) :
    match findVersion segs ecl maxVersion version with
    | .ok (v, used) =>
      version ≤ v ∧ v ≤ maxVersion ∧ Fits segs ecl v ∧ used = (segs.map (totalBits v)).sum ∧
        ∀ u, version ≤ u → u < v → ¬Fits segs ecl u
    | .error e =>
      e = tooLong segs ecl maxVersion ∧ ∀ u, version ≤ u → u ≤ maxVersion → ¬Fits segs ecl u := by
  induction hn : maxVersion - version generalizing version with
  | zero =>
    obtain rfl : version = maxVersion := by omega
    by_cases hfit : Fits segs ecl version
    · rw [findVersion_of_fits hmax hfit]
      exact ⟨le_rfl, le_rfl, hfit, rfl, fun u hu hu' => by omega⟩
    · rw [findVersion_of_not_fits hfit, if_pos le_rfl]
      exact ⟨rfl, fun u hu hu' => Nat.le_antisymm hu' hu ▸ hfit⟩
  | succ n ih =>
    by_cases hfit : Fits segs ecl version
    · rw [findVersion_of_fits (hver.trans hmax) hfit]
      exact ⟨le_rfl, hver, hfit, rfl, fun u hu hu' => by omega⟩
    · rw [findVersion_of_not_fits hfit, if_neg (by omega)]
      have hnext := @ih (version + 1) (by omega) (by omega)
      have hstart : ∀ u, version ≤ u → (version + 1 ≤ u → ¬Fits segs ecl u) →
          ¬Fits segs ecl u := by
        intro u hu hlater
        rcases Nat.eq_or_lt_of_le hu with rfl | hu
        · exact hfit
        · exact hlater hu
      split at hnext
      next v used _ =>
        obtain ⟨hle, hlast, hv, hused, hleast⟩ := hnext
        exact ⟨by omega, hlast, hv, hused, fun u hu hu' =>
          hstart u hu fun hu => hleast u hu hu'⟩
      next e _ =>
        obtain ⟨he, hnone⟩ := hnext
        exact ⟨he, fun u hu hu' => hstart u hu fun hu => hnone u hu hu'⟩

/-! ## The level -/

/-- The levels in their order. -/
def rank : Ecc → Nat
  | .LOW => 0
  | .MEDIUM => 1
  | .QUARTILE => 2
  | .HIGH => 3

theorem boost_false (version used : Nat) (ecl : Ecc) : boost version used false ecl = ecl := by
  simp [boost]

/-- The levels are tried up to the highest, and the last one is taken that the data fit at. -/
theorem boost_true (hfit : used ≤ getNumDataCodewords version ecl * 8) :
    used ≤ getNumDataCodewords version (boost version used true ecl) * 8 ∧
      ∀ ecl', used ≤ getNumDataCodewords version ecl' * 8 →
        rank ecl' ≤ rank (boost version used true ecl) := by
  simp only [boost, List.foldl_cons, List.foldl_nil, true_and]
  by_cases hhigh : used ≤ getNumDataCodewords version .HIGH * 8
  · rw [if_pos hhigh]
    exact ⟨hhigh, fun ecl' _ => by cases ecl' <;> decide⟩
  rw [if_neg hhigh]
  by_cases hquartile : used ≤ getNumDataCodewords version .QUARTILE * 8
  · rw [if_pos hquartile]
    refine ⟨hquartile, fun ecl' h => ?_⟩
    cases ecl' with
    | HIGH => exact (hhigh h).elim
    | LOW | MEDIUM | QUARTILE => decide
  rw [if_neg hquartile]
  by_cases hmedium : used ≤ getNumDataCodewords version .MEDIUM * 8
  · rw [if_pos hmedium]
    refine ⟨hmedium, fun ecl' h => ?_⟩
    cases ecl' with
    | HIGH => exact (hhigh h).elim
    | QUARTILE => exact (hquartile h).elim
    | LOW | MEDIUM => decide
  rw [if_neg hmedium]
  refine ⟨hfit, fun ecl' h => ?_⟩
  cases ecl' with
  | HIGH => exact (hhigh h).elim
  | QUARTILE => exact (hquartile h).elim
  | MEDIUM => exact (hmedium h).elim
  | LOW => exact Nat.zero_le _

/-- The highest level is taken that the data fit at. -/
theorem boost_highest (hfit : used ≤ getNumDataCodewords version ecl * 8) (boostEcl : Bool) :
    used ≤ getNumDataCodewords version (boost version used boostEcl ecl) * 8 ∧
      rank ecl ≤ rank (boost version used boostEcl ecl) ∧
      (boostEcl = true → ∀ ecl', used ≤ getNumDataCodewords version ecl' * 8 →
        rank ecl' ≤ rank (boost version used boostEcl ecl)) := by
  cases boostEcl with
  | false =>
    rw [boost_false]
    exact ⟨hfit, le_rfl, fun h => absurd h Bool.false_ne_true⟩
  | true =>
    obtain ⟨hlevel, hhighest⟩ := boost_true hfit
    exact ⟨hlevel, hhighest ecl hfit, fun _ => hhighest⟩

/-! ## The bits -/

open Content in
/-- The segments of contents with their headers. -/
theorem concatenate_eq {version : Nat} (hver : version ≤ MAX_VERSION) (cs : List Content)
    (h : ∀ c ∈ cs, c.CountFits version) :
    concatenate (cs.map segment) version = .ok (cs.flatMap (header version)) := by
  have hfield : ∀ m : Mode, m.numCharCountBits version ≤ 31 := by
    have hall : ∀ version ≤ 40, ∀ m ∈ [Mode.NUMERIC, .ALPHANUMERIC, .BYTE, .KANJI, .ECI],
      m.numCharCountBits version ≤ 31 := by decide
    exact fun m => hall version hver m (by cases m <;> decide)
  have hfold : ∀ (cs : List Content) (bb : BitBuffer), (∀ c ∈ cs, c.CountFits version) →
      (cs.map segment).foldlM (fun (bb : BitBuffer) seg => do
        let bb ← bb.appendBits seg.mode.modeBits 4
        let bb ← bb.appendBits seg.numChars (seg.mode.numCharCountBits version)
        return bb ++ seg.data) bb = .ok (bb ++ cs.flatMap (header version)) := by
    intro cs
    induction cs with
    | nil => exact fun bb _ => by rw [List.flatMap_nil, List.append_nil]; rfl
    | cons c cs ih =>
      intro bb h
      obtain ⟨hc, hcs⟩ := List.forall_mem_cons.mp h
      obtain ⟨n, hn, hmode⟩ := exists_modeBits c.mode
      rw [← hn] at hmode
      have hsegment : c.segment.mode = c.mode := rfl
      have happend := appendBits_eq bb hmode (by decide)
      have hcount := appendBits_eq (bb ++ bits 4 c.mode.modeBits) hc (hfield c.mode)
      have hrest := ih (bb ++ c.header version) hcs
      rw [List.flatMap_cons, ← List.append_assoc, ← hrest, header, ← List.append_assoc,
        ← List.append_assoc, List.map_cons, List.foldlM_cons, hsegment, happend]
      simp only [bind, Except.bind]
      rw [show c.segment.numChars = c.numChars from rfl, hcount]
      rfl
  exact hfold cs [] h

theorem foldlM_appendPadByte {α : Type} (l : List α) (bb : BitBuffer) (padByte : Nat)
    (h : padByte < 256) : ∃ bb' padByte', bb'.length = 8 * l.length ∧
      l.foldlM (fun s _ => appendPadByte s) (bb, padByte) = .ok (bb ++ bb', padByte') := by
  induction l generalizing bb padByte with
  | nil => exact ⟨[], padByte, rfl, by rw [List.append_nil]; rfl⟩
  | cons _ l ih =>
    have hnext : padByte ^^^ (0xEC ^^^ 0x11) < 256 := Nat.xor_lt_two_pow (n := 8) h (by decide)
    obtain ⟨bb', padByte', hlen, hfold⟩ := ih (bb ++ bits 8 padByte) _ hnext
    refine ⟨bits 8 padByte ++ bb', padByte', ?_, ?_⟩
    · rw [List.length_append, Positional.length_bits, hlen, List.length_cons]
      omega
    · have hstep : appendPadByte (bb, padByte) =
          .ok (bb ++ bits 8 padByte, padByte ^^^ (0xEC ^^^ 0x11)) := by
        rw [appendPadByte]
        simp only [appendBits_eq bb (n := 8) h (by decide)]
        rfl
      rw [List.foldlM_cons, hstep, ← List.append_assoc]
      exact hfold

/-- Bits are filled up to the capacity with a terminator after them, or with the part of it that
there is room for. -/
theorem padCodewords_eq {bb : BitBuffer} (hle : bb.length ≤ 8 * capacity) :
    ∃ tail, padCodewords bb (8 * capacity) = .ok (bb ++ tail) ∧
      (bb ++ tail).length = 8 * capacity ∧ Content.Ends tail := by
  obtain ⟨t, ht⟩ : ∃ t, min 4 (8 * capacity - bb.length) = t := ⟨_, rfl⟩
  obtain ⟨a, ha⟩ : ∃ a, (8 - (bb ++ bits t 0).length % 8) % 8 = a := ⟨_, rfl⟩
  obtain ⟨k, hk⟩ : ∃ k, (8 * capacity - (bb ++ bits t 0 ++ bits a 0).length + 7) / 8 = k :=
    ⟨_, rfl⟩
  obtain ⟨bb', padByte', hlen, hfold⟩ := foldlM_appendPadByte (List.range k)
    (bb ++ bits t 0 ++ bits a 0) 0xEC (by decide)
  have hterminator := appendBits_eq bb (v := 0) (n := t) (Nat.two_pow_pos t) (by omega)
  have hbyte := appendBits_eq (bb ++ bits t 0) (v := 0) (n := a) (Nat.two_pow_pos a) (by omega)
  refine ⟨bits t 0 ++ (bits a 0 ++ bb'), ?_, ?_, ?_⟩
  · rw [padCodewords, ht]
    simp only [hterminator, bind, Except.bind, ha, hbyte, hk, hfold]
    simp only [List.append_assoc]
    rfl
  · simp only [List.length_append, Positional.length_bits, List.length_range] at ha hk hlen ⊢
    omega
  · rcases Nat.lt_or_ge t 4 with hshort | hfull
    · left
      simp only [List.length_append, Positional.length_bits, List.length_range] at ha hk hlen ⊢
      omega
    · obtain rfl : t = 4 := by omega
      exact .inr ⟨_, rfl⟩

/-! ## The bytes -/

/-- The bits of bytes, the highest bit first. -/
def unpackBytes (data : List UInt8) : BitBuffer := data.flatMap fun b => bits 8 b.toNat

theorem bits_packed (f : Nat → Bool) :
    bits 8 ((List.range 8).foldl (fun (v i : Nat) =>
      v ||| ((f i).toNat <<< (7 - i))) 0).toUInt8.toNat = (List.range 8).map f := by
  have hall : ∀ b0 b1 b2 b3 b4 b5 b6 b7 : Bool,
      bits 8 (0 ||| b0.toNat <<< 7 ||| b1.toNat <<< 6 ||| b2.toNat <<< 5 ||| b3.toNat <<< 4 |||
        b4.toNat <<< 3 ||| b5.toNat <<< 2 ||| b6.toNat <<< 1 ||| b7.toNat <<< 0).toUInt8.toNat =
        [b0, b1, b2, b3, b4, b5, b6, b7] := by decide +kernel
  exact hall (f 0) (f 1) (f 2) (f 3) (f 4) (f 5) (f 6) (f 7)

theorem unpackBytes_packBytes {bb : BitBuffer} (h : bb.length = 8 * n) :
    unpackBytes (packBytes bb) = bb := by
  have hdiv : bb.length / 8 = n := by omega
  rw [unpackBytes, packBytes, hdiv, List.flatMap_map]
  simp only [bits_packed fun i => bb.getD (8 * _ + i) false]
  rw [Positional.flatMap_groups (fun i => bb.getD i false), ← h]
  refine List.ext_getElem (by simp) fun i hi hi' => ?_
  rw [List.getElem_map, List.getElem_range, List.getD_eq_getElem _ _ hi']

theorem length_packBytes {bb : BitBuffer} (h : bb.length = 8 * n) : (packBytes bb).length = n := by
  rw [packBytes, List.length_map, List.length_range]
  omega

/-! ## Data codewords -/

/-- The contents in data codewords. -/
def readCodewords (version : Nat) (data : List UInt8) : Option (List Content) :=
  Content.readContents version ((unpackBytes data).length + 1) (unpackBytes data)

theorem length_headers (version : Nat) (cs : List Content) :
    (cs.flatMap (Content.header version)).length =
      ((cs.map Content.segment).map (totalBits version)).sum := by
  rw [List.length_flatMap, List.map_map]
  exact congrArg List.sum (List.map_congr_left fun c _ => Content.length_header version c)

/-- The contents that fit are in the data codewords, which have the capacity. -/
theorem codewords_of_fits {version : Nat} (hver : version ≤ MAX_VERSION) {cs : List Content}
    (hfit : Fits (cs.map Content.segment) ecl version) :
    ∃ bb bb', concatenate (cs.map Content.segment) version = .ok bb ∧
      padCodewords bb (getNumDataCodewords version ecl * 8) = .ok bb' ∧
      (packBytes bb').length = getNumDataCodewords version ecl ∧
      readCodewords version (packBytes bb') = some cs := by
  have hcount : ∀ c ∈ cs, c.CountFits version :=
    fun c hc => hfit.1 c.segment (List.mem_map.mpr ⟨c, hc, rfl⟩)
  have hle : (cs.flatMap (Content.header version)).length ≤
      8 * getNumDataCodewords version ecl := by
    rw [length_headers, Nat.mul_comm]
    exact hfit.2
  have hfuel : cs.length ≤ (cs.flatMap (Content.header version)).length := by
    rw [List.length_flatMap, ← List.length_map (f := fun c => (Content.header version c).length)]
    refine List.length_le_sum_of_one_le _ fun n hn => ?_
    obtain ⟨c, -, rfl⟩ := List.mem_map.mp hn
    rw [Content.length_header, totalBits]
    omega
  obtain ⟨tail, hpad, hlen, hends⟩ := padCodewords_eq hle
  rw [List.length_append] at hlen
  refine ⟨_, _, concatenate_eq hver cs hcount, Nat.mul_comm 8 _ ▸ hpad,
    length_packBytes (by rw [List.length_append, hlen]), ?_⟩
  rw [readCodewords, unpackBytes_packBytes (by rw [List.length_append, hlen])]
  exact Content.readContents_headers cs hcount hends (by rw [List.length_append]; omega)

/-- **Data codewords.** The version is the least one that the segments fit at, and the level the one
asked for or, if it can be raised, the highest that they fit at. The contents are read from the
data codewords. There are none only if the segments fit at no version, as the error says. -/
theorem dataCodewords_contents (cs : List Content) (ecl : Ecc) {minVersion maxVersion : Nat}
    (hver : minVersion ≤ maxVersion ∧ maxVersion ≤ MAX_VERSION) (boostEcl : Bool) :
    match dataCodewords (cs.map Content.segment) ecl minVersion maxVersion boostEcl with
    | .ok (v, ecl', data) =>
      (minVersion ≤ v ∧ v ≤ maxVersion ∧
        ∀ u, minVersion ≤ u → u < v → ¬Fits (cs.map Content.segment) ecl u) ∧
      Fits (cs.map Content.segment) ecl' v ∧ rank ecl ≤ rank ecl' ∧
      (if boostEcl then ∀ e, Fits (cs.map Content.segment) e v → rank e ≤ rank ecl'
        else ecl' = ecl) ∧
      data.length = getNumDataCodewords v ecl' ∧ readCodewords v data = some cs
    | .error e =>
      e = tooLong (cs.map Content.segment) ecl maxVersion ∧
        ∀ u, minVersion ≤ u → u ≤ maxVersion → ¬Fits (cs.map Content.segment) ecl u := by
  have hleast := findVersion_least (cs.map Content.segment) ecl hver.2 hver.1
  rw [dataCodewords]
  cases hfind : findVersion (cs.map Content.segment) ecl maxVersion minVersion with
  | error e =>
    rw [hfind] at hleast
    exact hleast
  | ok found =>
    obtain ⟨v, used⟩ := found
    rw [hfind] at hleast
    obtain ⟨hmin, hmax, hfit, rfl, hnone⟩ := hleast
    obtain ⟨hcap, hrank, hhighest⟩ := boost_highest hfit.2 boostEcl
    have hfit' : Fits (cs.map Content.segment)
        (boost v ((cs.map Content.segment).map (totalBits v)).sum boostEcl ecl) v := ⟨hfit.1, hcap⟩
    obtain ⟨bb, bb', hbb, hbb', hlen, hread⟩ := codewords_of_fits (hmax.trans hver.2) hfit'
    simp only [bind, Except.bind, hbb, hbb']
    refine ⟨⟨hmin, hmax, hnone⟩, ⟨hfit.1, hcap⟩, hrank, ?_, hlen, hread⟩
    cases boostEcl with
    | true =>
      rw [if_pos rfl]
      exact fun e he => hhighest rfl e he.2
    | false =>
      rw [if_neg Bool.false_ne_true]
      exact boost_false v _ ecl

end QrCode
end Chatcurse

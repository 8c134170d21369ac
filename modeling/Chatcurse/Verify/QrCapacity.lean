import Chatcurse.Verify.QrSymbol

/-!
# How much a QR code holds

The documentation of `encodeText` and `encodeBinary` guarantees a code for up to 2953 bytes at the
low level. Each level has such a bound, and it is exact for `encodeBinary` (`encode_guaranteed`).
-/

namespace Chatcurse
namespace QrCode

/-- The number of bytes that fit at a level. -/
def maxBytes : Ecc → Nat
  | .LOW => 2953
  | .MEDIUM => 2331
  | .QUARTILE => 1663
  | .HIGH => 1273

theorem maxBytes_le (ecl : Ecc) : maxBytes ecl ≤ 2953 := by cases ecl <;> decide

theorem fits_bytes_iff (data : Bytes) (ecl : Ecc) (version : Nat) :
    Fits [(Content.bytes data).segment] ecl version ↔
      data.length < 2 ^ Mode.BYTE.numCharCountBits version ∧
        4 + Mode.BYTE.numCharCountBits version + data.length * 8 ≤
          getNumDataCodewords version ecl * 8 := by
  rw [Fits, List.map_singleton, List.sum_singleton, QrSegment.totalBits_bytes,
    List.forall_mem_singleton]
  rfl

/-- More bytes than `maxBytes` fit at no version. -/
theorem length_le_of_fits {data : Bytes} {ecl : Ecc} (hver : version ≤ MAX_VERSION)
    (hfit : Fits [(Content.bytes data).segment] ecl version) : data.length ≤ maxBytes ecl := by
  have hall : ∀ version ≤ 40, getNumDataCodewords version ecl * 8 <
      4 + Mode.BYTE.numCharCountBits version + (maxBytes ecl + 1) * 8 := by
    cases ecl <;> decide +kernel
  have hroom := ((fits_bytes_iff data ecl version).mp hfit).2
  have hcapacity := hall version hver
  omega

theorem fits_of_length_le {data : Bytes} {ecl : Ecc} (hlen : data.length ≤ maxBytes ecl) :
    Fits [(Content.bytes data).segment] ecl MAX_VERSION := by
  have hcapacity : 4 + Mode.BYTE.numCharCountBits MAX_VERSION + maxBytes ecl * 8 ≤
      getNumDataCodewords MAX_VERSION ecl * 8 := by
    cases ecl <;> decide +kernel
  have hcount : 2953 < 2 ^ Mode.BYTE.numCharCountBits MAX_VERSION := by decide
  have hmax := maxBytes_le ecl
  refine (fits_bytes_iff data ecl MAX_VERSION).mpr ⟨by omega, by omega⟩

/-- What fits at a level fits at each lower one. -/
theorem fits_of_rank_le {segs : List QrSegment} {ecl ecl' : Ecc} (hver : version ≤ MAX_VERSION)
    (hrank : rank ecl ≤ rank ecl') (hfit : Fits segs ecl' version) : Fits segs ecl version := by
  have hall : ∀ version ≤ 40, rank ecl ≤ rank ecl' →
      getNumDataCodewords version ecl' ≤ getNumDataCodewords version ecl := by
    cases ecl <;> cases ecl' <;> decide +kernel
  have hcapacity := hall version hver hrank
  exact ⟨hfit.1, hfit.2.trans (by omega)⟩

/-- There is a code of contents that fit at some version. -/
theorem exists_encodeSegments (cs : List Content) (ecl : Ecc) :
    (∃ c, encodeSegments (cs.map Content.segment) ecl MIN_VERSION MAX_VERSION (-1) true = .ok c) ↔
      ∃ version, 1 ≤ version ∧ version ≤ MAX_VERSION ∧
        Fits (cs.map Content.segment) ecl version := by
  have hresult := encodeSegments_valid cs ecl allVersions noMask true
  split at hresult
  next c hc =>
    obtain ⟨v, ecl', -, -, -, hfit, hrank, -⟩ := hresult
    exact iff_of_true ⟨c, hc⟩ ⟨v, v.2.1, v.2.2, fits_of_rank_le v.2.2 hrank hfit⟩
  next e he =>
    refine iff_of_false ?_ ?_
    · rintro ⟨c, hc⟩
      rw [he] at hc
      cases hc
    · rintro ⟨version, hmin, hmax, hfit⟩
      exact hresult.2 version hmin hmax hfit

/-- **How much fits.** There is a code of bytes exactly if they are no more than `maxBytes`, and of
a text if it has no more bytes than these. -/
theorem encode_guaranteed (data : Bytes) (ecl : Ecc) :
    ((∃ c, encodeBinary data ecl = .ok c) ↔ data.length ≤ maxBytes ecl) ∧
      (data.length ≤ maxBytes ecl → ∃ c, encodeText data ecl = .ok c) := by
  have hbound : maxBytes ecl ≤ INT_MAX := (maxBytes_le ecl).trans (by decide)
  constructor
  · by_cases hlen : data.length ≤ INT_MAX
    · have heq : encodeBinary data ecl =
          encodeSegments ([Content.bytes data].map Content.segment) ecl MIN_VERSION MAX_VERSION
            (-1) true := by
        rw [encodeBinary, QrSegment.makeBytes_eq hlen]
        rfl
      rw [heq, exists_encodeSegments]
      constructor
      · rintro ⟨version, -, hmax, hfit⟩
        exact length_le_of_fits hmax hfit
      · exact fun hle => ⟨MAX_VERSION, by decide, le_rfl, fits_of_length_le hle⟩
    · have hthrow : encodeBinary data ecl = .error (.lengthError "Data too long") := by
        rw [encodeBinary, QrSegment.makeBytes, if_pos (Nat.not_le.mp hlen)]
        rfl
      refine iff_of_false ?_ fun hle => hlen (hle.trans hbound)
      rintro ⟨c, hc⟩
      rw [hthrow] at hc
      cases hc
  · intro hle
    rw [encodeText]
    obtain ⟨cs, hsegs, -, hmode, hleast⟩ := QrSegment.makeSegments_least (hle.trans hbound)
    rw [hsegs]
    apply (exists_encodeSegments cs ecl).mpr
    refine ⟨MAX_VERSION, by decide, le_rfl, ?_⟩
    exact fits_of_le hmode le_rfl (hleast (.bytes data) rfl MAX_VERSION) (fits_of_length_le hle)

end QrCode
end Chatcurse

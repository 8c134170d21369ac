import Chatcurse.Verify.QrDamage
import Chatcurse.Verify.QrDisplay

/-!
# QR codes from text to terminal

`encodeSegments` makes a code of the least version and the highest level in which its contents are
found (`encodeSegments_contents`). The login link is read from the text that `display` prints of the
code of `encodeText` (`display_encodeText`).
-/

namespace Chatcurse
namespace Canvas
open QrCode (Version)

/-- A code in which a reader finds some contents. -/
structure Shows (c : Canvas) (v : Version) (ecl : Ecc) (cs : List Content) : Prop where
  version : c.version = v
  errorCorrectionLevel : c.errorCorrectionLevel = ecl
  mask : 0 ≤ c.mask ∧ c.mask ≤ 7
  patterns : ShowsPatterns v ecl c.mask.toNat c.modules
  reads : ∀ m', Legible v ecl c.mask.toNat c.modules m' → ∀ cs', Reads v m' cs' ↔ cs' = cs

theorem IsCode.shows_contents {c : Canvas} {v : Version} {ecl : Ecc} {data : List UInt8} {m : Nat}
    (h : IsCode c v ecl data m) (hread : QrCode.readCodewords v data = some cs) :
    Shows c v ecl cs := by
  have hlt := h.mask_lt
  have hmask : c.mask.toNat = m := by rw [h.mask, Int.toNat_natCast]
  constructor
  · exact h.version
  · exact h.errorCorrectionLevel
  · rw [h.mask]
    omega
  · rw [hmask]
    exact h.shows
  · rw [hmask]
    exact fun m' hlegible => h.reads_iff hread hlegible

end Canvas

namespace QrCode
open Canvas (Shows Legible Reads construct)

/-! ## Segments -/

theorem encodeSegments_eq (segs : List QrSegment) (ecl : Ecc) {minVersion maxVersion : Nat}
    (hver : (1 ≤ minVersion ∧ minVersion ≤ maxVersion ∧ maxVersion ≤ 40)) {mask : Int}
    (hmask : -1 ≤ mask ∧ mask ≤ 7) (boostEcl : Bool) :
    encodeSegments segs ecl minVersion maxVersion mask boostEcl =
      (dataCodewords segs ecl minVersion maxVersion boostEcl).bind fun (version, ecl, data) =>
        construct version ecl data mask := by
  have hvalid : ¬(¬((MIN_VERSION : Int) ≤ minVersion ∧ (minVersion : Int) ≤ maxVersion ∧
      (maxVersion : Int) ≤ MAX_VERSION) ∨ mask < -1 ∨ mask > 7) := by
    simp only [MIN_VERSION, MAX_VERSION]
    omega
  rw [encodeSegments, if_neg hvalid, Int.toNat_natCast, Int.toNat_natCast]
  rfl

theorem allVersions : 1 ≤ MIN_VERSION ∧ MIN_VERSION ≤ MAX_VERSION ∧ MAX_VERSION ≤ 40 := by decide

theorem noMask : (-1 : Int) ≤ -1 ∧ (-1 : Int) ≤ 7 := by decide

/-- The result for the contents with arguments in their ranges. -/
theorem encodeSegments_valid (cs : List Content) (ecl : Ecc) {minVersion maxVersion : Nat}
    (hver : (1 ≤ minVersion ∧ minVersion ≤ maxVersion ∧ maxVersion ≤ 40)) {mask : Int}
    (hmask : -1 ≤ mask ∧ mask ≤ 7) (boostEcl : Bool) :
    match encodeSegments (cs.map Content.segment) ecl minVersion maxVersion mask boostEcl with
    | .ok c => ∃ (v : Version) (ecl' : Ecc), Shows c v ecl' cs ∧ (mask = -1 ∨ c.mask = mask) ∧
      (minVersion ≤ v ∧ v ≤ maxVersion ∧
        ∀ u, minVersion ≤ u → u < v → ¬Fits (cs.map Content.segment) ecl u) ∧
      Fits (cs.map Content.segment) ecl' v ∧ rank ecl ≤ rank ecl' ∧
      (if boostEcl then ∀ e, Fits (cs.map Content.segment) e v → rank e ≤ rank ecl'
        else ecl' = ecl)
    | .error e => e = tooLong (cs.map Content.segment) ecl maxVersion ∧
      ∀ u, minVersion ≤ u → u ≤ maxVersion → ¬Fits (cs.map Content.segment) ecl u := by
  have hcontents := dataCodewords_contents cs ecl ⟨hver.2.1, hver.2.2⟩ boostEcl
  rw [encodeSegments_eq _ ecl hver hmask]
  cases hdata : dataCodewords (cs.map Content.segment) ecl minVersion maxVersion boostEcl with
  | error e =>
    rw [hdata] at hcontents
    exact hcontents
  | ok result =>
    obtain ⟨version, ecl', data⟩ := result
    rw [hdata] at hcontents
    obtain ⟨hleast, hfit, hrank, hlevel, hlen, hread⟩ := hcontents
    obtain ⟨v, rfl⟩ : ∃ v : Version, v.val = version :=
      ⟨⟨version, hver.1.trans hleast.1, hleast.2.1.trans hver.2.2⟩, rfl⟩
    have hcodewords := addEccAndInterleave_eq hlen
    have hraw : ((order v ecl').map (letter v ecl' data)).length = rawCodewords v := by
      rw [List.length_map, length_order]
    obtain ⟨m, hm, hmask', hconstruct⟩ := Canvas.construct_final hcodewords hraw hmask
    have hshows := (Canvas.isCode_final hcodewords hraw hm).shows_contents hread
    simp only [Except.bind, hconstruct]
    exact ⟨v, ecl', hshows, hmask'.imp_right Eq.symm, hleast, hfit, hrank, hlevel⟩

/-- **Segments.** The code of contents has the least version that they fit at. It has the level asked
for or, if it can be raised, the highest that they fit at, and the mask asked for if there is one.
Its modules show the patterns and are read as the contents. There is no code only if an argument is
out of its range or the contents fit at no version. -/
theorem encodeSegments_contents (cs : List Content) (ecl : Ecc) (minVersion maxVersion mask : Int)
    (boostEcl : Bool) :
    match encodeSegments (cs.map Content.segment) ecl minVersion maxVersion mask boostEcl with
    | .ok c => ∃ (v : Version) (ecl' : Ecc), Shows c v ecl' cs ∧ (mask = -1 ∨ c.mask = mask) ∧
      (minVersion ≤ v ∧ v ≤ maxVersion ∧
        ∀ u : Nat, minVersion ≤ u → u < v.val → ¬Fits (cs.map Content.segment) ecl u) ∧
      Fits (cs.map Content.segment) ecl' v ∧ rank ecl ≤ rank ecl' ∧
      (if boostEcl then ∀ e, Fits (cs.map Content.segment) e v → rank e ≤ rank ecl'
        else ecl' = ecl)
    | .error e =>
      if (1 ≤ minVersion ∧ minVersion ≤ maxVersion ∧ maxVersion ≤ 40) ∧ -1 ≤ mask ∧ mask ≤ 7 then
        e = tooLong (cs.map Content.segment) ecl maxVersion.toNat ∧
          ∀ u : Nat, minVersion ≤ u → u ≤ maxVersion → ¬Fits (cs.map Content.segment) ecl u
      else e = .invalidArgument "Invalid value" := by
  by_cases hvalid : (1 ≤ minVersion ∧ minVersion ≤ maxVersion ∧ maxVersion ≤ 40) ∧
      -1 ≤ mask ∧ mask ≤ 7
  · obtain ⟨minVersion, rfl⟩ := Int.eq_ofNat_of_zero_le (a := minVersion) (by omega)
    obtain ⟨maxVersion, rfl⟩ := Int.eq_ofNat_of_zero_le (a := maxVersion) (by omega)
    have hver : 1 ≤ minVersion ∧ minVersion ≤ maxVersion ∧ maxVersion ≤ 40 := by omega
    have hresult := encodeSegments_valid cs ecl hver hvalid.2 boostEcl
    simp only [Int.ofNat_le] at hvalid ⊢
    split at hresult
    · exact hresult
    · exact (if_pos hvalid).mpr hresult
  · have hthrow : encodeSegments (cs.map Content.segment) ecl minVersion maxVersion mask boostEcl =
        .error (.invalidArgument "Invalid value") := by
      rw [encodeSegments, if_pos (by simp only [MIN_VERSION, MAX_VERSION]; omega)]
      rfl
    rw [hthrow]
    exact (if_neg hvalid).mpr rfl

/-! ## Bytes -/

/-- **Bytes.** They are read in their code, also with three wrong modules in it. -/
theorem encodeBinary_few_errors (data : Bytes) (ecl : Ecc) :
    match encodeBinary data ecl with
    | .ok c => ∃ v : Version, c.version = v ∧ rank ecl ≤ rank c.errorCorrectionLevel ∧
      (∀ u, 1 ≤ u → u < v.val → ¬Fits [(Content.bytes data).segment] ecl u) ∧
      ∀ m', (Canvas.wrong v c.modules m').card ≤ 3 → ∀ cs, Reads v m' cs ↔ cs = [.bytes data]
    | .error e => (INT_MAX < data.length ∧ e = .lengthError "Data too long") ∨
      e = tooLong [(Content.bytes data).segment] ecl MAX_VERSION ∧
        ∀ u, 1 ≤ u → u ≤ 40 → ¬Fits [(Content.bytes data).segment] ecl u := by
  rw [encodeBinary]
  by_cases hlen : data.length ≤ INT_MAX
  · have hresult := encodeSegments_valid [.bytes data] ecl allVersions noMask true
    rw [QrSegment.makeBytes_eq hlen]
    simp only [bind, Except.bind]
    rw [List.map_singleton] at hresult
    split at hresult
    next c _ =>
      obtain ⟨v, ecl', hshows, -, hleast, -, hrank, -⟩ := hresult
      refine ⟨v, hshows.version, ?_, hleast.2.2, fun m' hfew => ?_⟩
      · rw [hshows.errorCorrectionLevel]
        exact hrank
      · exact hshows.reads m' (Canvas.legible_of_few hfew _ _)
    next => exact .inr hresult
  · have hmax : INT_MAX < data.length := Nat.not_le.mp hlen
    rw [QrSegment.makeBytes, if_pos hmax]
    exact .inl ⟨hmax, rfl⟩

/-! ## Text -/

/-- The modules in rows with a frame of two around them. -/
def cropped (rows : List (List Bool)) (y x : Nat) : Bool := (rows.getD (2 + y) []).getD (2 + x) false

/-- The contents that are read in the rows of a printed code. -/
def ReadsText (text : List Char) (cs : List Content) : Prop :=
  ∃ (v : Version) (rows : List (List Bool)), scan text = some rows ∧
    (rows.getD 0 []).length = 2 + (v * 4 + 17) + 2 ∧ Reads v (cropped rows) cs

/-- The rows of a printed code have its modules in a frame of two. -/
theorem scan_display (q : QrCode) : ∃ rows, scan q.display = some rows ∧
    (rows.getD 0 []).length = 2 + q.size + 2 ∧
    ∀ y x : Fin q.size, cropped rows y x = q.modules y x := by
  have hlen : (Raster.rows (2 + q.size + 2) (2 + q.size + 2) q.picture).length =
      2 + q.size + 2 := by simp [Raster.rows]
  have hrow : ∀ y < 2 + q.size + 2, ∀ rest : List (List Bool),
      (Raster.rows (2 + q.size + 2) (2 + q.size + 2) q.picture ++ rest).getD y [] =
        (List.range (2 + q.size + 2)).map (q.picture y) := by
    intro y hy rest
    rw [List.getD_append _ _ _ _ (by omega), List.getD_eq_getElem _ _ (by omega)]
    simp [Raster.rows]
  refine ⟨_, by rw [scan, unpadded_display, Raster.readLines_lines readChar_char], ?_, ?_⟩
  · rw [hrow 0 (by omega), List.length_map, List.length_range]
  · intro y x
    have hx : 2 + x.val < ((List.range (2 + q.size + 2)).map (q.picture (2 + y))).length := by
      rw [List.length_map, List.length_range]
      omega
    rw [cropped, hrow _ (by omega), List.getD_eq_getElem _ _ hx, List.getElem_map,
      List.getElem_range, picture_inside]

/-- A code is read as well in the text that is printed of it. -/
theorem readsText_display {c : Canvas} {v : Version} {ecl : Ecc} {cs : List Content}
    (h : Shows c v ecl cs) (cs' : List Content) :
    ReadsText (display c.toQrCode) cs' ↔ cs' = cs := by
  have hsize : c.toQrCode.size = v * 4 + 17 := by rw [Canvas.toQrCode, Canvas.size, h.version]
  obtain ⟨rows, hscan, hwidth, hmodules⟩ := scan_display c.toQrCode
  have hwrong : Canvas.wrong v c.modules (cropped rows) = ∅ := by
    refine Finset.filter_eq_empty_iff.mpr fun p hp hne => hne ?_
    obtain ⟨hx, hy⟩ := Finset.mem_product.mp hp
    rw [Finset.mem_range, ← hsize] at hx hy
    exact (hmodules ⟨p.2, hy⟩ ⟨p.1, hx⟩).symm
  have hfew : (Canvas.wrong v c.modules (cropped rows)).card ≤ 3 := by
    rw [hwrong, Finset.card_empty]
    exact Nat.zero_le 3
  have hreads := h.reads _ (Canvas.legible_of_few hfew ecl c.mask.toNat)
  constructor
  · rintro ⟨v', rows', hrows, hwidth', hread⟩
    rw [hscan] at hrows
    obtain rfl := Option.some.inj hrows
    obtain rfl : v' = v := Subtype.ext (by omega)
    exact (hreads cs').mp hread
  · exact fun heq => ⟨v, rows, hscan, hwidth.trans (by rw [hsize]), (hreads cs').mpr heq⟩

/-- **The login code.** The contents that are read in the text printed of the code of a text are the
text, and no single content of it fits at a lower version. There is no code only if none fits at
any version, or the text has more characters than an `int` can count. -/
theorem display_encodeText (text : Bytes) (ecl : Ecc) :
    match encodeText text ecl with
    | .ok c => ∃ (v : Version) (cs : List Content), c.version = v ∧
      rank ecl ≤ rank c.errorCorrectionLevel ∧ cs.flatMap Content.text = text ∧
      (∀ cs', ReadsText (display c.toQrCode) cs' ↔ cs' = cs) ∧
      ∀ c' : Content, c'.text = text → ∀ u, 1 ≤ u → u < v.val → ¬Fits [c'.segment] ecl u
    | .error e => (INT_MAX < text.length ∧ e = QrSegment.overlong text) ∨
      (∃ what, e = .dataTooLong what) ∧
        ∀ c' : Content, c'.text = text → ∀ u, 1 ≤ u → u ≤ 40 → ¬Fits [c'.segment] ecl u := by
  rw [encodeText]
  rcases Nat.lt_or_ge INT_MAX text.length with hmax | hlen
  · rw [QrSegment.makeSegments_overlong hmax]
    exact .inl ⟨hmax, rfl⟩
  · obtain ⟨cs, hsegs, htext, hmode, hleast⟩ := QrSegment.makeSegments_least hlen
    have hfits : ∀ c' : Content, c'.text = text → ∀ u ≤ 40, Fits [c'.segment] ecl u →
        Fits (cs.map Content.segment) ecl u :=
      fun c' hc' u hu => fits_of_le hmode hu (hleast c' hc' u)
    have hresult := encodeSegments_valid cs ecl allVersions noMask true
    rw [hsegs]
    simp only [bind, Except.bind]
    split at hresult
    next c _ =>
      obtain ⟨v, ecl', hshows, -, hver, -, hrank, -⟩ := hresult
      refine ⟨v, cs, hshows.version, ?_, htext, readsText_display hshows, ?_⟩
      · rw [hshows.errorCorrectionLevel]
        exact hrank
      · exact fun c' hc' u hu hlt hfit =>
          hver.2.2 u hu hlt (hfits c' hc' u (hlt.le.trans hver.2.1) hfit)
    next e _ =>
      obtain ⟨rfl, hnone⟩ := hresult
      refine .inr ⟨?_, fun c' hc' u hu hle hfit => hnone u hu hle (hfits c' hc' u hle hfit)⟩
      rw [tooLong]
      split
      · exact ⟨_, rfl⟩
      · exact ⟨_, rfl⟩

end QrCode
end Chatcurse

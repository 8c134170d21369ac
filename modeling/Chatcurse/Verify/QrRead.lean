import Chatcurse.Verify.QrConstruct

/-!
# Reading a QR code

The code that the constructor makes shows the patterns, the format of its mask and the word of its
codewords (`construct_shows`).
-/

namespace Chatcurse
namespace Canvas
open QrCode (Version)

/-! ## The format and the version -/

def formats : List (Ecc × Nat) :=
  [Ecc.LOW, .MEDIUM, .QUARTILE, .HIGH].flatMap fun ecl => (List.range 8).map (ecl, ·)

/-- The bits of the format of a level and a mask, from the lowest one on. -/
def formatOf (p : Ecc × Nat) : List Bool := (List.range 15).map (getBit (formatBits p.1 p.2))

def versionOf (version : Nat) : List Bool := (List.range 18).map (getBit (versionBits version))

/-- The bits around the upper left corner. -/
def formatWord (m : Nat → Nat → Bool) : List Bool :=
  (List.range 15).map fun i => m (formatPlace i).2 (formatPlace i).1

/-- The level and the mask of a symbol, with three wrong bits at most. -/
def readFormat (m : Nat → Nat → Bool) : Option (Ecc × Nat) :=
  Hamming.nearest formatOf 3 formats (formatWord m)

theorem mem_formats (ecl : Ecc) {msk : Nat} (h : msk < 8) : (ecl, msk) ∈ formats := by
  have hecl : ecl ∈ [Ecc.LOW, .MEDIUM, .QUARTILE, .HIGH] := by cases ecl <;> decide
  exact List.mem_flatMap.mpr ⟨ecl, hecl, List.mem_map.mpr ⟨msk, List.mem_range.mpr h, rfl⟩⟩

/-- Formats differ in seven bits at least. -/
theorem formats_apart : ∀ p ∈ formats, ∀ q ∈ formats, p ≠ q →
    2 * 3 < Hamming.dist (formatOf p) (formatOf q) := by decide +kernel

theorem readFormat_eq {ecl : Ecc} {msk : Nat} (hmsk : msk < 8)
    (hnear : Hamming.dist (formatWord m) (formatOf (ecl, msk)) ≤ 3) :
    readFormat m = some (ecl, msk) :=
  Hamming.nearest_eq (n := 15) (fun _ => by simp [formatOf]) (by simp [formatWord]) formats_apart
    (mem_formats ecl hmsk) hnear

theorem versions_apart : ∀ u ∈ List.range' 7 34, ∀ v ∈ List.range' 7 34, u ≠ v →
    2 * 3 < Hamming.dist (versionOf u) (versionOf v) := by decide +kernel

theorem mem_versions {v : Nat} (h : 7 ≤ v ∧ v ≤ 40) : v ∈ List.range' 7 34 := by
  rw [List.mem_range'_1]
  omega

/-- **Errors.** A format is read in a word with three wrong bits at most, and a version as well. -/
theorem format_version_words (w : List Bool) :
    {p ∈ {p : Ecc × Nat | p.2 < 8} | w.length = 15 ∧ Hamming.dist w (formatOf p) ≤ 3}.Subsingleton ∧
      {v ∈ Set.Icc 7 40 | w.length = 18 ∧ Hamming.dist w (versionOf v) ≤ 3}.Subsingleton := by
  constructor
  · rintro p ⟨hp, hlen, hnear⟩ q ⟨hq, -, hnear'⟩
    have hread := Hamming.nearest_eq (n := 15) (fun _ => by simp [formatOf]) hlen formats_apart
      (mem_formats p.1 hp) hnear
    have hread' := Hamming.nearest_eq (n := 15) (fun _ => by simp [formatOf]) hlen formats_apart
      (mem_formats q.1 hq) hnear'
    exact Option.some.inj (hread.symm.trans hread')
  · rintro u ⟨hu, hlen, hnear⟩ v ⟨hv, -, hnear'⟩
    have hread := Hamming.nearest_eq (n := 18) (fun _ => by simp [versionOf]) hlen versions_apart
      (mem_versions hu) hnear
    have hread' := Hamming.nearest_eq (n := 18) (fun _ => by simp [versionOf]) hlen versions_apart
      (mem_versions hv) hnear'
    exact Option.some.inj (hread.symm.trans hread')

/-! ## The modules of a code -/

theorem written_touched {calls : List (Int × Int × Bool)} {x y : Nat}
    (h : touched calls x y = true) (b b' : Bool) : written calls x y b = written calls x y b' := by
  induction calls generalizing b b' with
  | nil => cases h
  | cons call calls ih =>
    obtain ⟨x', y', d⟩ := call
    rw [touched, List.any_cons, Bool.or_eq_true] at h
    simp only [written, List.foldl_cons]
    by_cases hplace : x' = x ∧ y' = y
    · rw [if_pos hplace, if_pos hplace]
    · rw [if_neg hplace, if_neg hplace]
      exact ih (h.resolve_left fun h' => hplace (of_decide_eq_true h')) b b'

theorem inside_functionPatterns (v : Version) (ecl : Ecc) :
    Inside (v * 4 + 17) (functionPatterns v ecl) := by
  have hpos : 1 ≤ v.val := v.2.1
  intro x y b hmem
  simp only [functionPatterns, List.mem_append] at hmem
  rcases hmem with (((((h | h) | h) | h) | h) | h) | h
  · have hplace := ((draws_timingPatterns _ x y b).mp h).1
    omega
  · exact inside_finderPattern _ _ _ x y b h
  · exact inside_finderPattern _ _ _ x y b h
  · exact inside_finderPattern _ _ _ x y b h
  · exact inside_alignmentPatterns v x y b h
  · exact inside_formatModules (by omega) _ x y b h
  · exact inside_versionPatterns v x y b h

theorem touched_functionPatterns_inside {v : Version} {ecl : Ecc} {x y : Nat}
    (h : touched (functionPatterns v ecl) x y = true) : x < v * 4 + 17 ∧ y < v * 4 + 17 := by
  obtain ⟨b, hmem⟩ := touched_iff.mp h
  have hinside := inside_functionPatterns v ecl x y b hmem
  omega

section
variable {v : Version} {ecl : Ecc} {raw : List UInt8} {i x y : Nat}

theorem final_modules : (final v ecl raw i).modules y x =
    written (formatModules ((v * 4 + 17 : Nat) : Int) (formatBits ecl i)) x y
      ((patterned v ecl 0).placed raw y x ^^
        (invert i x y && !touched (functionPatterns v ecl) x y)) := by
  have hsymbol := (hasFormat_base v ecl raw 0).symbol_eq i
  have hfunction : (base v ecl raw 0).isFunction y x = touched (functionPatterns v ecl) x y := by
    rw [base, isFunction_patterned]
  have hmodules : (final v ecl raw i).modules y x = ((base v ecl raw 0).symbol i).modules y x := rfl
  have hcalls : (base v ecl raw 0).formatCalls i =
      formatModules ((v * 4 + 17 : Nat) : Int) (formatBits ecl i) := rfl
  rw [hmodules, hsymbol]
  simp only [hfunction, hcalls]
  rfl

/-- A function module has the last colour that was drawn on it. -/
theorem final_function (hraw : raw.length = QrCode.rawCodewords v)
    (h : touched (functionPatterns v ecl) x y = true) :
    (final v ecl raw i).modules y x = written (symbolPatterns v ecl i) x y false := by
  obtain ⟨hx, hy⟩ := touched_functionPatterns_inside h
  have hframe := (placeCodewords_spec (c := patterned v ecl 0) (v := v) rfl
    (isFunction_pattern v ecl 0) hraw).2.1 x y hx hy ((touched_functionPatterns v ecl hx hy).mp h)
  rw [final_modules, h, hframe, Bool.not_true, Bool.and_false, Bool.xor_false, symbolPatterns,
    written_append, patterned, modules_paint]

/-- Another module has a bit of the codewords with the mask. -/
theorem final_free (h : touched (functionPatterns v ecl) x y = false) :
    (final v ecl raw i).modules y x = ((patterned v ecl 0).placed raw y x ^^ invert i x y) := by
  have hpos : 1 ≤ v.val := v.2.1
  have hformat : ¬InFormat ((v * 4 + 17 : Nat) : Int) x y := fun hplace => by
    rw [touched_of_inFormat v ecl hplace] at h
    cases h
  rw [final_modules, (draws_formatModules _ (by omega) _).written_out hformat, h, Bool.not_false,
    Bool.and_true]

theorem final_shows (hraw : raw.length = QrCode.rawCodewords v) :
    ShowsPatterns v ecl i (final v ecl raw i).modules := by
  have hwritten : (final v ecl raw i).modules = fun y x =>
      written (symbolPatterns v ecl i) x y ((final v ecl raw i).modules y x) := by
    have hpos : 1 ≤ v.val := v.2.1
    funext y x
    by_cases h : touched (functionPatterns v ecl) x y = true
    · have hsymbol : touched (symbolPatterns v ecl i) x y = true := by
        rw [symbolPatterns, touched_append, h, Bool.true_or]
      rw [final_function hraw h]
      exact written_touched hsymbol _ _
    · have hformat : ¬InFormat ((v * 4 + 17 : Nat) : Int) x y :=
        fun hplace => h (touched_of_inFormat v ecl hplace)
      have hsymbol : touched (symbolPatterns v ecl i) x y = false := by
        rw [symbolPatterns, touched_append, Bool.eq_false_iff.mpr h,
          (draws_formatModules _ (by omega) _).untouched hformat, Bool.or_false]
      exact (written_of_untouched hsymbol _).symm
  rw [hwritten]
  exact showsPatterns_written v ecl i _

end

/-! ## The codewords -/

/-- The word of a symbol with a mask. -/
def readRaw (version msk : Nat) (m : Nat → Nat → Bool) : List UInt8 :=
  QrCode.packBytes (((freeOrder version).map fun p => m p.2 p.1 ^^ invert msk p.1 p.2).take
    (QrCode.rawCodewords version * 8))

theorem bits_injective : Function.Injective fun b : UInt8 => Positional.bits 8 b.toNat := by
  intro a b h
  have hval := congrArg Positional.ofBits h
  simp only [Positional.ofBits_bits a.toNat_lt, Positional.ofBits_bits b.toNat_lt] at hval
  exact UInt8.toNat_inj.mp hval

theorem length_unpackBytes (data : List UInt8) :
    (QrCode.unpackBytes data).length = data.length * 8 := by
  simp [QrCode.unpackBytes]

theorem unpackBytes_injective : Function.Injective QrCode.unpackBytes := by
  intro l m h
  have hlen : l.length = m.length := by
    have heq := congrArg List.length h
    rw [length_unpackBytes, length_unpackBytes] at heq
    omega
  refine Hamming.eq_of_dist_eq_zero hlen (Nat.le_zero.mp ?_)
  have hle := Hamming.dist_le_flatMap bits_injective (fun b => Positional.length_bits 8 _) hlen
  exact hle.trans_eq ((congrArg (Hamming.dist _) h.symm).trans (Hamming.dist_self _))

theorem packBytes_unpackBytes (data : List UInt8) :
    QrCode.packBytes (QrCode.unpackBytes data) = data :=
  unpackBytes_injective (QrCode.unpackBytes_packBytes (n := data.length)
    (by rw [length_unpackBytes, Nat.mul_comm]))

theorem mem_freeOrder {v : Version} {x y : Nat} :
    (x, y) ∈ freeOrder v ↔ (x < v * 4 + 17 ∧ y < v * 4 + 17) ∧ ¬IsPattern v x y := by
  rw [freeOrder, List.mem_filter, mem_scanOrder, decide_eq_true_iff]
  constructor
  · rintro ⟨⟨hx, hy, -⟩, hfree⟩
    exact ⟨⟨hx, hy⟩, hfree⟩
  · rintro ⟨⟨hx, hy⟩, hfree⟩
    exact ⟨⟨hx, hy, fun hsix => hfree (.inl hsix)⟩, hfree⟩

theorem readRaw_final {v : Version} {raw : List UInt8}
    (hraw : raw.length = QrCode.rawCodewords v) (ecl : Ecc) (i : Nat) :
    readRaw v i (final v ecl raw i).modules = raw := by
  have hread := (placeCodewords_spec (c := patterned v ecl 0) (v := v) rfl
    (isFunction_pattern v ecl 0) hraw).2.2
  have hplaced : ∀ p ∈ freeOrder v,
      ((final v ecl raw i).modules p.2 p.1 ^^ invert i p.1 p.2) =
        (patterned v ecl 0).placed raw p.2 p.1 := by
    rintro ⟨x, y⟩ hp
    obtain ⟨⟨hx, hy⟩, hfree⟩ := mem_freeOrder.mp hp
    have huntouched : touched (functionPatterns v ecl) x y = false :=
      Bool.eq_false_iff.mpr (mt (touched_functionPatterns v ecl hx hy).mp hfree)
    rw [final_free huntouched, Bool.xor_assoc, Bool.xor_self, Bool.xor_false]
  rw [readRaw, List.map_congr_left hplaced, ← hraw, hread, packBytes_unpackBytes]

/-! ## The constructor -/

/-- What the constructor does with a valid mask or none. -/
theorem construct_final {v : Version} {ecl : Ecc} {data raw : List UInt8} {mask : Int}
    (hcodewords : QrCode.addEccAndInterleave v ecl data = .ok raw)
    (hraw : raw.length = QrCode.rawCodewords v) (hmask : -1 ≤ mask ∧ mask ≤ 7) :
    ∃ m : Nat, m < 8 ∧ (mask = -1 ∨ mask = m) ∧
      construct v ecl data mask = .ok (final v ecl raw m) := by
  rcases eq_or_ne mask (-1) with rfl | hne
  · obtain ⟨m, hm, hconstruct, -⟩ := construct_choice hcodewords hraw
    exact ⟨m, hm, .inl rfl, hconstruct⟩
  · obtain ⟨m, rfl⟩ := Int.eq_ofNat_of_zero_le (a := mask) (by omega)
    exact ⟨m, by omega, .inr rfl, construct_eq hcodewords hraw (by omega)⟩

/-- The code that is made of data, with a mask from the range. -/
structure IsCode (c : Canvas) (v : Version) (ecl : Ecc) (data : List UInt8) (m : Nat) : Prop where
  version : c.version = v
  errorCorrectionLevel : c.errorCorrectionLevel = ecl
  mask : c.mask = m
  mask_lt : m < 8
  shows : ShowsPatterns v ecl m c.modules
  codewords : QrCode.addEccAndInterleave v ecl data = .ok (readRaw v m c.modules)

theorem isCode_final {v : Version} {ecl : Ecc} {data raw : List UInt8}
    (hcodewords : QrCode.addEccAndInterleave v ecl data = .ok raw)
    (hraw : raw.length = QrCode.rawCodewords v) {m : Nat} (hm : m < 8) :
    IsCode (final v ecl raw m) v ecl data m where
  version := rfl
  errorCorrectionLevel := rfl
  mask := rfl
  mask_lt := hm
  shows := final_shows hraw
  codewords := by rw [readRaw_final hraw, hcodewords]

/-- **The constructor** makes a code for each version, level, mask and number of data codewords in
range. It shows the patterns with the format of the mask, and the codewords are read in the order of
the scan once the mask is taken off. -/
theorem construct_shows (ver : Int) (ecl : Ecc) (data : List UInt8) (mask : Int) :
    match construct ver ecl data mask with
    | .ok c => ∃ (v : Version) (m : Nat), v.val = ver ∧ (mask = -1 ∨ mask = m) ∧
      IsCode c v ecl data m
    | .error e =>
      if ver < 1 ∨ 40 < ver then e = .domainError "Version value out of range"
      else if mask < -1 ∨ 7 < mask then e = .domainError "Mask value out of range"
      else e = .invalidArgument "Invalid argument" ∧
        data.length ≠ QrCode.getNumDataCodewords ver.toNat ecl := by
  by_cases hver : ver < 1 ∨ 40 < ver
  · have hver' : ver < QrCode.MIN_VERSION ∨ ver > QrCode.MAX_VERSION := hver
    have hthrow : construct ver ecl data mask =
        .error (.domainError "Version value out of range") := by
      rw [construct, if_pos hver']
      rfl
    rw [hthrow]
    exact (if_pos hver).mpr rfl
  by_cases hmask : mask < -1 ∨ 7 < mask
  · have hthrow : construct ver ecl data mask = .error (.domainError "Mask value out of range") := by
      have hver' : ¬(ver < QrCode.MIN_VERSION ∨ ver > QrCode.MAX_VERSION) := hver
      have hmask' : mask < -1 ∨ mask > 7 := hmask
      rw [construct]
      simp only [if_neg hver', if_pos hmask']
      rfl
    rw [hthrow]
    simp only [if_neg hver, if_pos hmask]
  obtain ⟨v, rfl⟩ : ∃ v : Version, (v.val : Int) = ver := by
    refine ⟨⟨ver.toNat, ?_⟩, Int.toNat_of_nonneg (by omega)⟩
    simp only [QrCode.MIN_VERSION, QrCode.MAX_VERSION]
    omega
  by_cases hlen : data.length = QrCode.getNumDataCodewords v ecl
  · have hcodewords := QrCode.addEccAndInterleave_eq hlen
    have hraw : ((QrCode.order v ecl).map (QrCode.letter v ecl data)).length =
        QrCode.rawCodewords v := by rw [List.length_map, QrCode.length_order]
    obtain ⟨m, hm, hmask', hconstruct⟩ := construct_final hcodewords hraw
      (show -1 ≤ mask ∧ mask ≤ 7 by omega)
    rw [hconstruct]
    exact ⟨v, m, rfl, hmask', isCode_final hcodewords hraw hm⟩
  · rw [construct_error (by omega) (QrCode.addEccAndInterleave_error hlen)]
    simp only [if_neg hver, if_neg hmask, true_and, Int.toNat_natCast]
    exact hlen

end Canvas
end Chatcurse

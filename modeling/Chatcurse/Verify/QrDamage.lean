import Chatcurse.Verify.QrRead

/-!
# Damaged QR codes

A damaged code is still read as its own contents and as no others (`IsCode.reads_iff`) if the format
and each block have no more errors than their words are apart. Three wrong modules are never more
than that (`legible_of_few`).
-/

namespace Chatcurse
namespace Canvas
open QrCode (Version Near received numBlocks blockEccLen)

/-- The contents that are read in a symbol, whatever errors have to be corrected for them. -/
def Reads (v : Version) (m : Nat → Nat → Bool) (cs : List Content) : Prop :=
  ∃ ecl msk data, readFormat m = some (ecl, msk) ∧ Near v ecl (readRaw v msk m) data ∧
    QrCode.readCodewords v data = some cs

/-- No more errors than the format and the blocks can have. -/
structure Legible (v : Version) (ecl : Ecc) (msk : Nat) (m m' : Nat → Nat → Bool) : Prop where
  format : Hamming.dist (formatWord m) (formatWord m') ≤ 3
  blocks : ∀ j < numBlocks v ecl, 2 * Hamming.dist (received v ecl (readRaw v msk m) j)
    (received v ecl (readRaw v msk m') j) ≤ blockEccLen v ecl

/-- What is read is unique. -/
theorem reads_subsingleton (v : Version) (m : Nat → Nat → Bool) :
    {cs | Reads v m cs}.Subsingleton := by
  rintro cs ⟨ecl, msk, data, hformat, hnear, hread⟩ cs'
    ⟨ecl', msk', data', hformat', hnear', hread'⟩
  rw [hformat] at hformat'
  obtain ⟨rfl, rfl⟩ := Prod.mk.inj (Option.some.inj hformat')
  obtain rfl := QrCode.near_subsingleton v ecl _ hnear hnear'
  rw [hread] at hread'
  exact Option.some.inj hread'

theorem length_readRaw (v : Version) (msk : Nat) (m : Nat → Nat → Bool) :
    (readRaw v msk m).length = QrCode.rawCodewords v ∧
      QrCode.unpackBytes (readRaw v msk m) =
        ((freeOrder v).map fun p => m p.2 p.1 ^^ invert msk p.1 p.2).take
          (QrCode.rawCodewords v * 8) := by
  have hroom : QrCode.rawCodewords v * 8 ≤ (freeOrder v).length := by
    rw [length_freeOrder, QrCode.rawCodewords]
    omega
  have hlen : (((freeOrder v).map fun p => m p.2 p.1 ^^ invert msk p.1 p.2).take
      (QrCode.rawCodewords v * 8)).length = 8 * QrCode.rawCodewords v := by
    rw [List.length_take, List.length_map]
    omega
  exact ⟨QrCode.length_packBytes hlen, QrCode.unpackBytes_packBytes hlen⟩

section
variable {c : Canvas} {v : Version} {ecl : Ecc} {data : List UInt8} {m : Nat}

theorem IsCode.formatWord_eq (h : IsCode c v ecl data m) :
    formatWord c.modules = formatOf (ecl, m) :=
  List.map_congr_left fun i hi => (h.shows.format i (List.mem_range.mp hi)).1

/-- **Reading.** -/
theorem IsCode.reads_iff (h : IsCode c v ecl data m) (hread : QrCode.readCodewords v data = some cs)
    {m' : Nat → Nat → Bool} (hlegible : Legible v ecl m c.modules m') (cs' : List Content) :
    Reads v m' cs' ↔ cs' = cs := by
  have hformat : readFormat m' = some (ecl, m) := by
    refine readFormat_eq h.mask_lt ?_
    rw [Hamming.dist_comm, ← h.formatWord_eq]
    exact hlegible.format
  have hlen := (length_readRaw v m m').1.trans (length_readRaw v m c.modules).1.symm
  have hreads : Reads v m' cs :=
    ⟨ecl, m, data, hformat, ⟨_, h.codewords, hlen, hlegible.blocks⟩, hread⟩
  refine ⟨fun h' => reads_subsingleton v m' h' hreads, ?_⟩
  rintro rfl
  exact hreads

end

/-! ## Few errors -/

/-- The places where two symbols differ. -/
def wrong (version : Nat) (m m' : Nat → Nat → Bool) : Finset (Nat × Nat) :=
  (Tiling.square (version * 4 + 17)).filter fun p => m p.2 p.1 ≠ m' p.2 p.1

/-- Different places in a symbol have no more errors than there are. -/
theorem countP_le_wrong {version : Nat} {l : List (Nat × Nat)} (hl : l.Nodup)
    (hin : ∀ p ∈ l, p.1 < version * 4 + 17 ∧ p.2 < version * 4 + 17) (m m' : Nat → Nat → Bool) :
    l.countP (fun p => m p.2 p.1 ≠ m' p.2 p.1) ≤ (wrong version m m').card := by
  rw [List.countP_eq_length_filter, ← List.toFinset_card_of_nodup (hl.filter _)]
  refine Finset.card_le_card fun p hp => ?_
  obtain ⟨hp, hne⟩ := List.mem_filter.mp (List.mem_toFinset.mp hp)
  obtain ⟨hx, hy⟩ := hin p hp
  exact Finset.mem_filter.mpr ⟨Finset.mem_product.mpr
    ⟨Finset.mem_range.mpr hx, Finset.mem_range.mpr hy⟩, of_decide_eq_true hne⟩

theorem dist_formatWord_le (v : Version) (m m' : Nat → Nat → Bool) :
    Hamming.dist (formatWord m) (formatWord m') ≤ (wrong v m m').card := by
  have hplaces : ((List.range 15).map formatPlace).Nodup := by decide
  have hinside : ∀ p ∈ (List.range 15).map formatPlace,
      p.1 < v * 4 + 17 ∧ p.2 < v * 4 + 17 := by
    have hsmall : ∀ p ∈ (List.range 15).map formatPlace, p.1 < 17 ∧ p.2 < 17 := by decide
    intro p hp
    have hp' := hsmall p hp
    omega
  have hcount := countP_le_wrong hplaces hinside m m'
  rw [List.countP_map] at hcount
  exact (Hamming.dist_map_map _ _ _).trans_le hcount

theorem dist_readRaw_le (v : Version) (msk : Nat) (m m' : Nat → Nat → Bool) :
    Hamming.dist (readRaw v msk m) (readRaw v msk m') ≤ (wrong v m m').card := by
  obtain ⟨hlen, hbits⟩ := length_readRaw v msk m
  obtain ⟨hlen', hbits'⟩ := length_readRaw v msk m'
  have hnodup : (freeOrder v).Nodup := (nodup_scanOrder v).filter _
  have hmask : ∀ a b c : Bool, ((a ^^ c) ≠ (b ^^ c)) = (a ≠ b) := by decide
  have hcount := countP_le_wrong hnodup (fun p hp => (mem_freeOrder.mp hp).1) m m'
  calc Hamming.dist (readRaw v msk m) (readRaw v msk m')
      ≤ Hamming.dist (QrCode.unpackBytes (readRaw v msk m))
          (QrCode.unpackBytes (readRaw v msk m')) :=
        Hamming.dist_le_flatMap bits_injective (fun _ => Positional.length_bits 8 _)
          (hlen.trans hlen'.symm)
    _ ≤ Hamming.dist ((freeOrder v).map fun p => m p.2 p.1 ^^ invert msk p.1 p.2)
          ((freeOrder v).map fun p => m' p.2 p.1 ^^ invert msk p.1 p.2) := by
        rw [hbits, hbits']
        exact Hamming.dist_take_le _ _ _
    _ ≤ (wrong v m m').card := by
        rw [Hamming.dist_map_map]
        simp only [hmask]
        exact hcount

/-- Each block has six bytes of error correction at least. -/
theorem six_le_blockEccLen (v : Version) (ecl : Ecc) : 6 ≤ blockEccLen v ecl := by
  have hall : ∀ version ≤ 40, 1 ≤ version → 6 ≤ blockEccLen version ecl := by
    cases ecl <;> decide +kernel
  exact hall v v.2.2 v.2.1

/-- Three errors are never too many. -/
theorem legible_of_few {v : Version} {m m' : Nat → Nat → Bool} (h : (wrong v m m').card ≤ 3)
    (ecl : Ecc) (msk : Nat) : Legible v ecl msk m m' where
  format := (dist_formatWord_le v m m').trans h
  blocks := fun j _ => by
    have hcolumn := Interleave.dist_column_le (QrCode.order v ecl) j (readRaw v msk m)
      (readRaw v msk m')
    have hraw := dist_readRaw_le v msk m m'
    have hsix := six_le_blockEccLen v ecl
    rw [received, received]
    omega

end Canvas
end Chatcurse

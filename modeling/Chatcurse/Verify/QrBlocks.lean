import Chatcurse.Verify.QrField
import Chatcurse.Theory.ReedSolomon
import Chatcurse.Theory.Interleave

/-!
# The codewords of a QR code

The blocks of `addEccAndInterleave` are Reed–Solomon codewords over the field of the bytes, with the
powers of 2 as the roots. The interleaved word has the length of the symbol, and gives the data and
the codewords of the blocks back (`addEccAndInterleave_data`). The words of different data are apart
(`addEccAndInterleave_distance`), so that a damaged word is near to the word of one data only, up to
half the error correction bytes in each block (`near_subsingleton`).
-/

namespace Chatcurse
namespace QrCode
open GF256 (root)

def elements (l : List UInt8) : List GF256 := l.map GF256.mk

def bytes (l : List GF256) : List UInt8 := l.map GF256.byte

@[simp] theorem bytes_elements (l : List UInt8) : bytes (elements l) = l := by
  rw [bytes, elements, List.map_map]
  exact List.map_id l

@[simp] theorem elements_bytes (l : List GF256) : elements (bytes l) = l := by
  rw [bytes, elements, List.map_map]
  exact List.map_id l

theorem elements_injective : Function.Injective elements :=
  List.map_injective_iff.mpr fun _ _ h => congrArg GF256.byte h

/-! ## Division -/

theorem multiplyByRoot_bytes (r : GF256) (l : List GF256) :
    multiplyByRoot r.byte (bytes l) = bytes (ReedSolomon.timesRoot r l) := by
  induction l with
  | nil => rfl
  | cons c l ih =>
    cases l with
    | nil => rfl
    | cons d l => exact congrArg ((reedSolomonMultiply c.byte r.byte ^^^ d.byte) :: ·) ih

/-- The divisor as a polynomial without its leading coefficient. -/
def divisor (degree : Nat) : List GF256 :=
  ReedSolomon.generator (degree - 1) ((List.range degree).map (root ^ ·))

theorem foldl_multiplyByRoot (l : List GF256) (n : Nat) :
    (List.range n).foldl (fun ((result, r) : List UInt8 × UInt8) _ =>
        (multiplyByRoot r result, reedSolomonMultiply r 0x02)) (bytes l, 1) =
      (bytes (((List.range n).map (root ^ ·)).foldl (fun l r => ReedSolomon.timesRoot r l) l),
        (root ^ n).byte) := by
  induction n with
  | zero => rfl
  | succ n ih =>
    rw [List.range_succ, List.foldl_append, ih, List.map_append, List.foldl_append, pow_succ]
    simp only [List.foldl_cons, List.foldl_nil, List.map_cons, List.map_nil, multiplyByRoot_bytes,
      GF256.byte_mul]
    rfl

theorem reedSolomonComputeDivisor_eq (h : 0 < d) (h' : d ≤ 255) :
    reedSolomonComputeDivisor d = .ok (bytes (divisor d)) := by
  have hstart : List.replicate (d - 1) 0 ++ [1] = bytes (List.replicate (d - 1) 0 ++ [1]) := by
    rw [bytes, List.map_append, List.map_replicate]
    rfl
  rw [reedSolomonComputeDivisor, if_neg (by omega), hstart, foldl_multiplyByRoot]
  rfl

theorem divisor_spec (h : 0 < d) : (divisor d).length = d ∧
    ∀ i < d, ReedSolomon.eval (root ^ i) (1 :: divisor d) = 0 := by
  obtain ⟨n, rfl⟩ : ∃ n, d = n + 1 := ⟨d - 1, by omega⟩
  have hroots : divisor (n + 1) = ReedSolomon.generator ((List.range n).map (root ^ ·)).length
      ((List.range n).map (root ^ ·) ++ [root ^ n]) := by
    rw [divisor, List.range_succ, List.map_append]
    simp
  obtain ⟨hlen, heval⟩ :=
    ReedSolomon.generator_eval (root ^ n) ((List.range n).map (root ^ ·))
  rw [hroots]
  refine ⟨by simpa using hlen, fun i hi => ?_⟩
  have hself : root ^ i + root ^ i = 0 := neg_add_cancel (root ^ i)
  rw [heval]
  rcases Nat.lt_succ_iff_lt_or_eq.mp hi with hi | rfl
  · refine mul_eq_zero_of_left (List.prod_eq_zero (List.mem_map.mpr ⟨root ^ i, ?_, hself⟩)) _
    exact List.mem_map.mpr ⟨i, List.mem_range.mpr hi, rfl⟩
  · rw [hself, mul_zero]

/-- The error correction bytes of a block. -/
def eccOf (degree : Nat) (dat : List UInt8) : List UInt8 :=
  bytes (ReedSolomon.remainder (divisor degree) (elements dat))

theorem zipWith_feed (factor : GF256) (l g : List GF256) :
    List.zipWith (fun r d => r ^^^ reedSolomonMultiply d factor.byte) (bytes l) (bytes g) =
      bytes (List.zipWith (fun r c => r - c * factor) l g) := by
  rw [bytes, bytes, bytes, List.zipWith_map, List.map_zipWith]
  rfl

theorem foldlM_feed {g : List GF256} (hg : g ≠ []) (dat : List UInt8) (state : List GF256)
    (hstate : state.length = g.length) :
    dat.foldlM (fun (result : List UInt8) b =>
      match result with
      | [] => Except.error QrError.outOfRange
      | first :: rest =>
        let factor := b ^^^ first
        .ok (List.zipWith (fun r d => r ^^^ reedSolomonMultiply d factor) (rest ++ [0]) (bytes g)))
      (bytes state) = .ok (bytes ((elements dat).foldl (ReedSolomon.feed g) state)) := by
  induction dat generalizing state with
  | nil => rfl
  | cons b dat ih =>
    have hfeed := ih (ReedSolomon.feed g state ⟨b⟩) (ReedSolomon.length_feed hstate ⟨b⟩)
    cases state with
    | nil => exact (hg (List.length_eq_zero_iff.mp hstate.symm)).elim
    | cons first rest =>
      have hshift : bytes rest ++ [0] = bytes (rest ++ [0]) := by
        rw [bytes, bytes, List.map_append]
        rfl
      have hzip := zipWith_feed (⟨b⟩ + first) (rest ++ [0]) g
      rw [List.foldlM_cons]
      refine Eq.trans ?_ hfeed
      rw [ReedSolomon.feed, ← hzip, ← hshift]
      rfl

theorem reedSolomonComputeRemainder_eq (h : 0 < d) (dat : List UInt8) :
    reedSolomonComputeRemainder dat (bytes (divisor d)) = .ok (eccOf d dat) := by
  have hlen := (divisor_spec h).1
  have hne : divisor d ≠ [] := by
    intro hnil
    rw [hnil] at hlen
    exact absurd hlen (by simp; omega)
  have hzero : List.replicate (bytes (divisor d)).length 0 =
      bytes (List.replicate (divisor d).length 0) := by
    rw [bytes, bytes, List.length_map, List.map_replicate]
    rfl
  rw [reedSolomonComputeRemainder, hzero]
  exact foldlM_feed hne dat _ List.length_replicate

theorem length_eccOf (h : 0 < d) (dat : List UInt8) : (eccOf d dat).length = d := by
  rw [eccOf, bytes, List.length_map, ReedSolomon.length_remainder, (divisor_spec h).1]

/-! ## Codewords -/

/-- The value of a block at a power of 2. -/
def syndrome (i : Nat) (block : List UInt8) : GF256 :=
  ReedSolomon.eval (root ^ i) (elements block)

theorem syndrome_eccOf (hi : i < d) (dat : List UInt8) : syndrome i (dat ++ eccOf d dat) = 0 := by
  obtain ⟨hlen, heval⟩ := divisor_spec (d := d) (by omega)
  have hne : divisor d ≠ [] := by
    intro hnil
    rw [hnil] at hlen
    exact absurd hlen (by simp; omega)
  have hword : elements (dat ++ eccOf d dat) =
      ReedSolomon.codeword (divisor d) (elements dat) := by
    have hneg : (ReedSolomon.remainder (divisor d) (elements dat)).map (- ·) =
        ReedSolomon.remainder (divisor d) (elements dat) := List.map_id _
    rw [ReedSolomon.codeword, hneg, elements, List.map_append]
    congr 1
    exact elements_bytes _
  rw [syndrome, hword]
  exact ReedSolomon.eval_codeword hne (heval i hi) _

/-- Blocks with all roots that differ in no more places than there are roots are the same. -/
theorem eq_of_syndromes {l m : List UInt8} (hlen : l.length = m.length) (hl : l.length ≤ 255)
    (hsl : ∀ i < d, syndrome i l = 0) (hsm : ∀ i < d, syndrome i m = 0)
    (hd : Hamming.dist l m ≤ d) : l = m := by
  have hmk : Function.Injective GF256.mk := fun _ _ h => congrArg GF256.byte h
  have hlength : ∀ l : List UInt8, (elements l).length = l.length := fun l => List.length_map _
  refine elements_injective (ReedSolomon.eq_of_dist_le (a := root) (d := d) ?_ ?_ hsl hsm ?_)
  · rw [hlength, hlength, hlen]
  · intro i hi j hj
    rw [hlength] at hi hj
    exact GF256.root_pow_injective (by omega) (by omega)
  · rwa [elements, elements, Hamming.dist_map hmk]

/-! ## Blocks -/

def numBlocks (version : Nat) (ecl : Ecc) : Nat := (NUM_ERROR_CORRECTION_BLOCKS ecl).getD version 0

def blockEccLen (version : Nat) (ecl : Ecc) : Nat := (ECC_CODEWORDS_PER_BLOCK ecl).getD version 0

def rawCodewords (version : Nat) : Nat := getNumRawDataModules version / 8

def numShortBlocks (version : Nat) (ecl : Ecc) : Nat :=
  numBlocks version ecl - rawCodewords version % numBlocks version ecl

def shortDataLen (version : Nat) (ecl : Ecc) : Nat :=
  rawCodewords version / numBlocks version ecl - blockEccLen version ecl

/-- The number of data bytes in a block. -/
def dataLen (version : Nat) (ecl : Ecc) (j : Nat) : Nat :=
  shortDataLen version ecl + if j < numShortBlocks version ecl then 0 else 1

/-- The data bytes of a block. -/
def dataBlock (version : Nat) (ecl : Ecc) (data : List UInt8) (j : Nat) : List UInt8 :=
  (Interleave.slices ((List.range (numBlocks version ecl)).map (dataLen version ecl)) data).getD j []

/-- The places of the bytes of a symbol in its blocks. -/
def order (version : Nat) (ecl : Ecc) : List (Nat × Nat) :=
  interleaving (numBlocks version ecl) (numShortBlocks version ecl) (shortDataLen version ecl)
    (shortDataLen version ecl + 1 + blockEccLen version ecl)

/-- The bytes of a block in the word of a symbol. -/
def received (version : Nat) (ecl : Ecc) (raw : List UInt8) (j : Nat) : List UInt8 :=
  Interleave.column (order version ecl) j raw

/-- The data in the word of a symbol. -/
def readData (version : Nat) (ecl : Ecc) (raw : List UInt8) : List UInt8 :=
  (List.range (numBlocks version ecl)).flatMap fun j =>
    (received version ecl raw j).take (dataLen version ecl j)

/-- A version that a symbol can have. -/
abbrev Version := { version : Nat // MIN_VERSION ≤ version ∧ version ≤ MAX_VERSION }

/-- The tables have room for the error correction and some data in each block. -/
theorem tables (v : Version) (ecl : Ecc) :
    0 < numBlocks v ecl ∧ 0 < blockEccLen v ecl ∧
      blockEccLen v ecl < rawCodewords v / numBlocks v ecl ∧
      rawCodewords v / numBlocks v ecl < 255 := by
  have hall : ∀ version ≤ 40, 1 ≤ version →
      0 < numBlocks version ecl ∧ 0 < blockEccLen version ecl ∧
        blockEccLen version ecl < rawCodewords version / numBlocks version ecl ∧
        rawCodewords version / numBlocks version ecl < 255 := by
    cases ecl <;> decide +kernel
  exact hall v v.2.2 v.2.1

theorem sum_map_short (n m s : Nat) :
    ((List.range n).map fun j => s + if j < m then 0 else 1).sum = n * s + (n - m) := by
  induction n with
  | zero => simp
  | succ n ih =>
    rw [List.range_succ, List.map_append, List.sum_append, ih, Nat.succ_mul]
    simp only [List.map_cons, List.map_nil, List.sum_cons, List.sum_nil]
    split <;> omega

theorem sum_dataLen (v : Version) (ecl : Ecc) :
    ((List.range (numBlocks v ecl)).map (dataLen v ecl)).sum = getNumDataCodewords v ecl := by
  obtain ⟨hblocks, -, hecc, -⟩ := tables v ecl
  have hmod := Nat.mod_lt (rawCodewords v) hblocks
  have hdiv := Nat.div_add_mod (rawCodewords v) (numBlocks v ecl)
  have hcodewords : getNumDataCodewords v ecl =
      rawCodewords v - blockEccLen v ecl * numBlocks v ecl := rfl
  have hsum := sum_map_short (numBlocks v ecl) (numShortBlocks v ecl) (shortDataLen v ecl)
  refine hsum.trans ?_
  rw [hcodewords, shortDataLen, Nat.mul_sub, numShortBlocks, Nat.mul_comm (blockEccLen v ecl)]
  have hle := Nat.mul_le_mul_left (numBlocks v ecl) hecc.le
  omega

theorem length_dataBlock {v : Version} {ecl : Ecc}
    (hlen : data.length = getNumDataCodewords v ecl) (hj : j < numBlocks v ecl) :
    (dataBlock v ecl data j).length = dataLen v ecl j := by
  have hsum : data.length = ((List.range (numBlocks v ecl)).map (dataLen v ecl)).sum :=
    hlen.trans (sum_dataLen v ecl).symm
  have hlt : j < ((List.range (numBlocks v ecl)).map (dataLen v ecl)).length := by simpa using hj
  rw [dataBlock, Interleave.length_getD_slices hsum, List.getD_eq_getElem _ _ hlt]
  simp

theorem flatMap_dataBlock {v : Version} {ecl : Ecc}
    (hlen : data.length = getNumDataCodewords v ecl) :
    (List.range (numBlocks v ecl)).flatMap (dataBlock v ecl data) = data := by
  have hflat := Interleave.flatten_slices (hlen.trans (sum_dataLen v ecl).symm)
  rw [List.flatMap_def]
  refine Eq.trans (congrArg List.flatten ?_) hflat
  refine List.ext_getElem (by simp) fun j hj hj' => ?_
  rw [List.getElem_map, List.getElem_range, dataBlock, List.getD_eq_getElem]

/-- A block with its padding byte. -/
def blockOf (version : Nat) (ecl : Ecc) (j : Nat) (dat : List UInt8) : List UInt8 :=
  (if j < numShortBlocks version ecl then dat ++ [0] else dat) ++
    eccOf (blockEccLen version ecl) dat

theorem splitBlocks_eq (h : 0 < blockEccLen version ecl) (i n : Nat) (data : List UInt8) :
    splitBlocks (numShortBlocks version ecl) (shortDataLen version ecl)
        (bytes (divisor (blockEccLen version ecl))) i n data =
      .ok (List.zipWith (blockOf version ecl) (List.range' i n)
        (Interleave.slices ((List.range' i n).map (dataLen version ecl)) data)) := by
  induction n generalizing i data with
  | zero => rfl
  | succ n ih =>
    rw [splitBlocks, reedSolomonComputeRemainder_eq h]
    simp only [bind, Except.bind, ih]
    rfl

/-- The blocks of a symbol. -/
def allBlocks (version : Nat) (ecl : Ecc) (data : List UInt8) : List (List UInt8) :=
  (List.range (numBlocks version ecl)).map fun j =>
    blockOf version ecl j (dataBlock version ecl data j)

theorem splitBlocks_all (h : 0 < blockEccLen version ecl) (data : List UInt8) :
    splitBlocks (numShortBlocks version ecl) (shortDataLen version ecl)
        (bytes (divisor (blockEccLen version ecl))) 0 (numBlocks version ecl) data =
      .ok (allBlocks version ecl data) := by
  rw [splitBlocks_eq h, ← List.range_eq_range']
  congr 1
  refine List.ext_getElem (by simp [allBlocks]) fun j hj hj' => ?_
  simp only [allBlocks, List.getElem_zipWith, List.getElem_range, List.getElem_map, dataBlock]
  rw [List.getD_eq_getElem]

theorem length_blockOf {v : Version} {ecl : Ecc}
    (hdat : dat.length = dataLen v ecl j) :
    (blockOf v ecl j dat).length = shortDataLen v ecl + 1 + blockEccLen v ecl := by
  rw [dataLen] at hdat
  rw [blockOf, List.length_append, length_eccOf (tables v ecl).2.1]
  split
  next hj =>
    rw [if_pos hj] at hdat
    rw [List.length_append, hdat]
    rfl
  next hj =>
    rw [if_neg hj] at hdat
    rw [hdat]

/-! ## The interleaved word -/

theorem mapM_eq_ok {α β : Type} {f : α → Except QrError β} {g : α → β} {l : List α}
    (h : ∀ a ∈ l, f a = .ok (g a)) : l.mapM f = .ok (l.map g) := by
  induction l with
  | nil => rfl
  | cons a l ih =>
    obtain ⟨ha, hl⟩ := List.forall_mem_cons.mp h
    rw [List.mapM_cons, ha, ih hl]
    rfl

theorem at?_eq_ok {α : Type} {l : List α} (a : α) (hi : i < l.length) :
    at? l i = .ok (l.getD i a) := by
  rw [at?, List.getElem?_eq_getElem hi, List.getD_eq_getElem _ _ hi]

theorem order_eq (version : Nat) (ecl : Ecc) : order version ecl =
    Interleave.places (shortDataLen version ecl + 1 + blockEccLen version ecl)
      (numBlocks version ecl)
      fun i j => i = shortDataLen version ecl && j < numShortBlocks version ecl := by
  rw [order, interleaving, Interleave.places]
  congr 1
  funext i
  congr 1
  refine List.filter_congr fun j _ => ?_
  rcases Nat.lt_or_ge j (numShortBlocks version ecl) with h | h
  · simp [h]
  · simp [h, Nat.not_lt.mpr h]

/-- The byte at a place of the blocks. -/
def letter (version : Nat) (ecl : Ecc) (data : List UInt8) (p : Nat × Nat) : UInt8 :=
  ((allBlocks version ecl data).getD p.2 []).getD p.1 0

theorem addEccAndInterleave_eq {v : Version} {ecl : Ecc}
    (hlen : data.length = getNumDataCodewords v ecl) :
    addEccAndInterleave v ecl data = .ok ((order v ecl).map (letter v ecl data)) := by
  obtain ⟨hblocks, hpos, hecc, hlt⟩ := tables v ecl
  have hcount : (allBlocks v ecl data).length = numBlocks v ecl := by simp [allBlocks]
  have hblock : ∀ j < numBlocks v ecl, ((allBlocks v ecl data).getD j []).length =
      shortDataLen v ecl + 1 + blockEccLen v ecl := by
    intro j hj
    rw [List.getD_eq_getElem _ _ (by rwa [hcount])]
    simp only [allBlocks, List.getElem_map, List.getElem_range]
    exact length_blockOf (length_dataBlock hlen hj)
  have hmapM : (order v ecl).mapM (codewordAt (allBlocks v ecl data)) =
      .ok ((order v ecl).map (letter v ecl data)) := by
    refine mapM_eq_ok fun p hp => ?_
    rw [order_eq] at hp
    obtain ⟨hi, hj, -⟩ := Interleave.mem_places.mp hp
    rw [codewordAt, at?_eq_ok [] (hcount.symm ▸ hj)]
    exact at?_eq_ok 0 ((hblock p.2 hj).symm ▸ hi)
  have hfirst := hblock 0 hblocks
  rw [addEccAndInterleave, if_neg (not_not.mpr hlen)]
  change (do
    let rsDiv ← reedSolomonComputeDivisor (blockEccLen v ecl)
    let blocks ← splitBlocks (numShortBlocks v ecl) (shortDataLen v ecl) rsDiv 0 (numBlocks v ecl)
      data
    let first ← at? blocks 0
    (interleaving blocks.length (numShortBlocks v ecl) (shortDataLen v ecl) first.length).mapM
      (codewordAt blocks)) = _
  rw [reedSolomonComputeDivisor_eq hpos (by omega)]
  simp only [bind, Except.bind, splitBlocks_all hpos, at?_eq_ok [] (hcount ▸ hblocks), hfirst,
    hcount]
  exact hmapM

theorem addEccAndInterleave_error {v : Version} {ecl : Ecc}
    (hlen : data.length ≠ getNumDataCodewords v ecl) :
    addEccAndInterleave v ecl data = .error (.invalidArgument "Invalid argument") := by
  rw [addEccAndInterleave, if_pos hlen]
  rfl

theorem received_eq {v : Version} {ecl : Ecc} (hlen : data.length = getNumDataCodewords v ecl)
    (hj : j < numBlocks v ecl) :
    received v ecl ((order v ecl).map (letter v ecl data)) j =
      dataBlock v ecl data j ++ eccOf (blockEccLen v ecl) (dataBlock v ecl data j) := by
  have hblock : (allBlocks v ecl data).getD j [] = blockOf v ecl j (dataBlock v ecl data j) := by
    rw [List.getD_eq_getElem _ _ (by simpa [allBlocks] using hj)]
    simp only [allBlocks, List.getElem_map, List.getElem_range]
  have hdat := length_dataBlock hlen hj
  have heccLen := length_eccOf (tables v ecl).2.1 (dataBlock v ecl data j)
  have hletter : letter v ecl data ∘ (·, j) =
      ((blockOf v ecl j (dataBlock v ecl data j)).getD · 0) := by
    funext i
    exact congrArg (List.getD · i 0) hblock
  rw [received, Interleave.column_map, order_eq, Interleave.filter_places hj, List.map_map, hletter,
    blockOf]
  rw [dataLen] at hdat
  split
  next hshort =>
    rw [if_pos hshort, Nat.add_zero] at hdat
    have hskip : ∀ i, (!(decide (i = shortDataLen v ecl) &&
        decide (j < numShortBlocks v ecl))) = !decide (i = shortDataLen v ecl) := by
      simp [hshort]
    have hletters := Interleave.map_getD_skip (dataBlock v ecl data j)
      (eccOf (blockEccLen v ecl) (dataBlock v ecl data j)) 0 0
    rw [hdat, heccLen] at hletters
    simp only [hskip]
    exact hletters
  next hlong =>
    rw [if_neg hlong] at hdat
    have hskip : ∀ i, (!(decide (i = shortDataLen v ecl) &&
        decide (j < numShortBlocks v ecl))) = true := by
      simp [hlong]
    simp only [hskip]
    have hlength : shortDataLen v ecl + 1 + blockEccLen v ecl =
        (dataBlock v ecl data j ++
          eccOf (blockEccLen v ecl) (dataBlock v ecl data j)).length := by
      rw [List.length_append, hdat, heccLen]
    rw [List.filter_true, hlength]
    exact Interleave.map_getD_range _ 0

theorem length_order (v : Version) (ecl : Ecc) : (order v ecl).length = rawCodewords v := by
  obtain ⟨hblocks, -, hecc, -⟩ := tables v ecl
  have hdata : (List.replicate (getNumDataCodewords v ecl) (0 : UInt8)).length =
      getNumDataCodewords v ecl := List.length_replicate
  have hcolumn : ∀ j ∈ List.range (numBlocks v ecl),
      ((List.range (shortDataLen v ecl + 1 + blockEccLen v ecl)).filter fun i =>
        !(decide (i = shortDataLen v ecl) && decide (j < numShortBlocks v ecl))).length =
        shortDataLen v ecl + blockEccLen v ecl + if j < numShortBlocks v ecl then 0 else 1 := by
    intro j hj
    have hreceived := congrArg List.length (received_eq hdata (List.mem_range.mp hj))
    rw [received, Interleave.column_map, order_eq,
      Interleave.filter_places (List.mem_range.mp hj), List.length_map, List.length_map,
      List.length_append, length_dataBlock hdata (List.mem_range.mp hj),
      length_eccOf (tables v ecl).2.1, dataLen] at hreceived
    omega
  have hmod := Nat.mod_lt (rawCodewords v) hblocks
  have hdiv := Nat.div_add_mod (rawCodewords v) (numBlocks v ecl)
  rw [order_eq, Interleave.length_places, List.map_congr_left hcolumn, sum_map_short, shortDataLen,
    Nat.sub_add_cancel hecc.le, numShortBlocks]
  omega

theorem readData_order {v : Version} {ecl : Ecc}
    (hlen : data.length = getNumDataCodewords v ecl) :
    readData v ecl ((order v ecl).map (letter v ecl data)) = data := by
  refine Eq.trans (List.flatMap_congr fun j hj => ?_) (flatMap_dataBlock hlen)
  have hj' := List.mem_range.mp hj
  rw [received_eq hlen hj', ← length_dataBlock hlen hj', List.take_left]

/-- **The word of a symbol** has one byte for each of its codewords. The data are read from it, and
each block in it has the first powers of 2 as roots. -/
theorem addEccAndInterleave_data (v : Version) (ecl : Ecc) (data : List UInt8) :
    match addEccAndInterleave v ecl data with
    | .ok raw =>
      data.length = getNumDataCodewords v ecl ∧ raw.length = getNumRawDataModules v / 8 ∧
        readData v ecl raw = data ∧
        ∀ j < numBlocks v ecl, ∀ i < blockEccLen v ecl, syndrome i (received v ecl raw j) = 0
    | .error e =>
      data.length ≠ getNumDataCodewords v ecl ∧ e = .invalidArgument "Invalid argument" := by
  by_cases hlen : data.length = getNumDataCodewords v ecl
  · rw [addEccAndInterleave_eq hlen]
    refine ⟨hlen, ?_, ?_, fun j hj i hi => ?_⟩
    · rw [List.length_map, length_order]
      rfl
    · exact readData_order hlen
    · rw [received_eq hlen hj]
      exact syndrome_eccOf hi _
  · rw [addEccAndInterleave_error hlen]
    exact ⟨hlen, rfl⟩

section
variable {v : Version} {ecl : Ecc} {data data' : List UInt8}

theorem length_received (v : Version) (ecl : Ecc) (raw : List UInt8)
    (h : raw.length = (order v ecl).length) (j : Nat) :
    (received v ecl raw j).length = ((order v ecl).filter (·.2 = j)).length :=
  Interleave.length_column h j

/-- A block of two words is the same if it differs in no more places than it has error correction
bytes. -/
theorem received_eq_of_dist (hlen : data.length = getNumDataCodewords v ecl)
    (hlen' : data'.length = getNumDataCodewords v ecl) (hj : j < numBlocks v ecl)
    (hdist : Hamming.dist (received v ecl ((order v ecl).map (letter v ecl data)) j)
      (received v ecl ((order v ecl).map (letter v ecl data')) j) ≤ blockEccLen v ecl) :
    received v ecl ((order v ecl).map (letter v ecl data)) j =
      received v ecl ((order v ecl).map (letter v ecl data')) j := by
  obtain ⟨-, hpos, hecc, hlt⟩ := tables v ecl
  have hword := length_received v ecl ((order v ecl).map (letter v ecl data))
    (List.length_map _) j
  have hword' := length_received v ecl ((order v ecl).map (letter v ecl data'))
    (List.length_map _) j
  have hblockLen : (received v ecl ((order v ecl).map (letter v ecl data)) j).length ≤ 255 := by
    rw [QrCode.received_eq hlen hj, List.length_append, length_dataBlock hlen hj,
      length_eccOf hpos, dataLen, shortDataLen]
    split <;> omega
  refine eq_of_syndromes (hword.trans hword'.symm) hblockLen ?_ ?_ hdist
  · intro i hi
    rw [QrCode.received_eq hlen hj]
    exact syndrome_eccOf hi _
  · intro i hi
    rw [QrCode.received_eq hlen' hj]
    exact syndrome_eccOf hi _

theorem data_eq_of_received (hlen : data.length = getNumDataCodewords v ecl)
    (hlen' : data'.length = getNumDataCodewords v ecl)
    (h : ∀ j < numBlocks v ecl, received v ecl ((order v ecl).map (letter v ecl data)) j =
      received v ecl ((order v ecl).map (letter v ecl data')) j) : data = data' := by
  calc data = readData v ecl ((order v ecl).map (letter v ecl data)) := (readData_order hlen).symm
    _ = readData v ecl ((order v ecl).map (letter v ecl data')) :=
        List.flatMap_congr fun j hj => by rw [h j (List.mem_range.mp hj)]
    _ = data' := readData_order hlen'

end

/-- **The distance.** The words of different data differ in some block in more places than it has
error correction bytes. -/
theorem addEccAndInterleave_distance (v : Version) (ecl : Ecc) (data data' : List UInt8) :
    match addEccAndInterleave v ecl data, addEccAndInterleave v ecl data' with
    | .ok raw, .ok raw' => data = data' ∨ ∃ j < numBlocks v ecl,
      blockEccLen v ecl < Hamming.dist (received v ecl raw j) (received v ecl raw' j)
    | .error _, _ => data.length ≠ getNumDataCodewords v ecl
    | _, .error _ => data'.length ≠ getNumDataCodewords v ecl := by
  by_cases hlen : data.length = getNumDataCodewords v ecl
  · by_cases hlen' : data'.length = getNumDataCodewords v ecl
    · rw [addEccAndInterleave_eq hlen, addEccAndInterleave_eq hlen']
      by_contra hne
      obtain ⟨hne, hfar⟩ := not_or.mp hne
      refine hne (data_eq_of_received hlen hlen' fun j hj => ?_)
      exact received_eq_of_dist hlen hlen' hj (Nat.not_lt.mp fun h => hfar ⟨j, hj, h⟩)
    · rw [addEccAndInterleave_eq hlen, addEccAndInterleave_error hlen']
      exact hlen'
  · rw [addEccAndInterleave_error hlen]
    exact hlen

/-! ## Damage -/

/-- The data have a word that differs from the given one in no more places of any block than half
its error correction bytes. -/
def Near (v : Version) (ecl : Ecc) (damaged data : List UInt8) : Prop :=
  ∃ raw, addEccAndInterleave v ecl data = .ok raw ∧ damaged.length = raw.length ∧
    ∀ j < numBlocks v ecl,
      2 * Hamming.dist (received v ecl raw j) (received v ecl damaged j) ≤ blockEccLen v ecl

theorem Near.length_eq (h : Near v ecl damaged data) :
    data.length = getNumDataCodewords v ecl := by
  obtain ⟨raw, hraw, -⟩ := h
  by_contra hlen
  rw [addEccAndInterleave_error hlen] at hraw
  cases hraw

theorem Near.received_eq (h : Near v ecl damaged data) (h' : Near v ecl damaged data')
    (hj : j < numBlocks v ecl) :
    received v ecl ((order v ecl).map (letter v ecl data)) j =
      received v ecl ((order v ecl).map (letter v ecl data')) j := by
  have hlen := h.length_eq
  have hlen' := h'.length_eq
  obtain ⟨raw, hraw, hdamaged, hnear⟩ := h
  obtain ⟨raw', hraw', -, hnear'⟩ := h'
  rw [addEccAndInterleave_eq hlen] at hraw
  rw [addEccAndInterleave_eq hlen'] at hraw'
  obtain rfl := Except.ok.inj hraw
  obtain rfl := Except.ok.inj hraw'
  rw [List.length_map] at hdamaged
  have hbad := length_received v ecl damaged hdamaged j
  have htriangle := Hamming.dist_triangle
    ((length_received v ecl _ (List.length_map (letter v ecl data)) j).trans hbad.symm)
    ((length_received v ecl _ (List.length_map (letter v ecl data')) j).trans hbad.symm)
  have hcomm := Hamming.dist_comm (received v ecl damaged j)
    (received v ecl ((order v ecl).map (letter v ecl data')) j)
  have hj1 := hnear j hj
  have hj2 := hnear' j hj
  exact received_eq_of_dist hlen hlen' hj (by omega)

/-- No other data are as near to a damaged word. -/
theorem near_subsingleton (v : Version) (ecl : Ecc) (damaged : List UInt8) :
    {data | Near v ecl damaged data}.Subsingleton :=
  fun _ h _ h' => data_eq_of_received h.length_eq h'.length_eq fun _ hj => h.received_eq h' hj

end QrCode
end Chatcurse

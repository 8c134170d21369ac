import Chatcurse.QrSegment

/-!
# The codewords of a QR code

The part of the class `QrCode` of `lib/qrcodegen/qrcodegen.cpp` that makes bytes of segments: the
version and the level, the data codewords with their padding, and the blocks with their error
correction.
-/

namespace Chatcurse

/-- The error correction levels. -/
inductive Ecc where
  | LOW
  | MEDIUM
  | QUARTILE
  | HIGH
  deriving DecidableEq

namespace QrCode

def MIN_VERSION : Nat := 1
def MAX_VERSION : Nat := 40

/-- By version; the entry for version 0 is an illegal value in the source. -/
def ECC_CODEWORDS_PER_BLOCK : Ecc → List Nat
  | .LOW => [0, 7, 10, 15, 20, 26, 18, 20, 24, 30, 18, 20, 24, 26,
    30, 22, 24, 28, 30, 28, 28, 28, 28, 30, 30, 26, 28, 30,
    30, 30, 30, 30, 30, 30, 30, 30, 30, 30, 30, 30, 30]
  | .MEDIUM => [0, 10, 16, 26, 18, 24, 16, 18, 22, 22, 26, 30, 22, 22,
    24, 24, 28, 28, 26, 26, 26, 26, 28, 28, 28, 28, 28, 28,
    28, 28, 28, 28, 28, 28, 28, 28, 28, 28, 28, 28, 28]
  | .QUARTILE => [0, 13, 22, 18, 26, 18, 24, 18, 22, 20, 24, 28, 26, 24,
    20, 30, 24, 28, 28, 26, 30, 28, 30, 30, 30, 30, 28, 30,
    30, 30, 30, 30, 30, 30, 30, 30, 30, 30, 30, 30, 30]
  | .HIGH => [0, 17, 28, 22, 16, 22, 28, 26, 26, 24, 28, 24, 28, 22,
    24, 24, 30, 28, 28, 26, 28, 30, 24, 30, 30, 30, 30, 30,
    30, 30, 30, 30, 30, 30, 30, 30, 30, 30, 30, 30, 30]

def NUM_ERROR_CORRECTION_BLOCKS : Ecc → List Nat
  | .LOW => [0, 1, 1, 1, 1, 1, 2, 2, 2, 2, 4, 4, 4, 4,
    4, 6, 6, 6, 6, 7, 8, 8, 9, 9, 10, 12, 12, 12,
    13, 14, 15, 16, 17, 18, 19, 19, 20, 21, 22, 24, 25]
  | .MEDIUM => [0, 1, 1, 1, 2, 2, 4, 4, 4, 5, 5, 5, 8, 9,
    9, 10, 10, 11, 13, 14, 16, 17, 17, 18, 20, 21, 23, 25,
    26, 28, 29, 31, 33, 35, 37, 38, 40, 43, 45, 47, 49]
  | .QUARTILE => [0, 1, 1, 2, 2, 4, 4, 6, 6, 8, 8, 8, 10, 12,
    16, 12, 17, 16, 18, 21, 20, 23, 23, 25, 27, 29, 34, 34,
    35, 38, 40, 43, 45, 48, 51, 53, 56, 59, 62, 65, 68]
  | .HIGH => [0, 1, 1, 2, 4, 4, 4, 5, 6, 8, 8, 11, 11, 16,
    16, 18, 16, 19, 21, 25, 25, 25, 34, 30, 32, 35, 37, 40,
    42, 45, 48, 51, 54, 57, 60, 63, 66, 70, 74, 77, 81]

def getNumRawDataModules (ver : Nat) : Nat :=
  let result := (16 * ver + 128) * ver + 64
  if ver ≥ 2 then
    let numAlign := ver / 7 + 2
    let result := result - ((25 * numAlign - 10) * numAlign - 55)
    if ver ≥ 7 then result - 36 else result
  else result

def getNumDataCodewords (ver : Nat) (ecl : Ecc) : Nat :=
  getNumRawDataModules ver / 8 -
    (ECC_CODEWORDS_PER_BLOCK ecl).getD ver 0 * (NUM_ERROR_CORRECTION_BLOCKS ecl).getD ver 0

/-! ## Segments -/

/-- The loop of `encodeSegments` over the versions, and what it leaves in `dataUsedBits`. -/
def findVersion (segs : List QrSegment) (ecl : Ecc) (maxVersion version : Nat) :
    Except QrError (Nat × Nat) :=
  let dataCapacityBits := getNumDataCodewords version ecl * 8
  match QrSegment.getTotalBits segs version with
  | some dataUsedBits =>
    if dataUsedBits ≤ dataCapacityBits then .ok (version, dataUsedBits)
    else if version ≥ maxVersion then
      .error (.dataTooLong ("Data length = " ++ toString dataUsedBits ++ " bits, Max capacity = " ++
        toString dataCapacityBits ++ " bits"))
    else findVersion segs ecl maxVersion (version + 1)
  | none =>
    if version ≥ maxVersion then .error (.dataTooLong "Segment too long")
    else findVersion segs ecl maxVersion (version + 1)
termination_by maxVersion - version

/-- The highest level that the data fit at, no lower than the one asked for. -/
def boost (version dataUsedBits : Nat) (boostEcl : Bool) (ecl : Ecc) : Ecc :=
  [.MEDIUM, .QUARTILE, .HIGH].foldl (fun ecl newEcl =>
    if boostEcl ∧ dataUsedBits ≤ getNumDataCodewords version newEcl * 8 then newEcl else ecl) ecl

/-- The segments with their headers. -/
def concatenate (segs : List QrSegment) (version : Nat) : Except QrError BitBuffer :=
  segs.foldlM (fun (bb : BitBuffer) seg => do
    let bb ← bb.appendBits seg.mode.modeBits 4
    let bb ← bb.appendBits seg.numChars (seg.mode.numCharCountBits version)
    return bb ++ seg.data) []

/-- One turn of the loop that pads with bytes. -/
def appendPadByte (s : BitBuffer × Nat) : Except QrError (BitBuffer × Nat) := do
  let (bb, padByte) := s
  let bb ← bb.appendBits padByte 8
  return (bb, padByte ^^^ (0xEC ^^^ 0x11))

/-- The terminator, the bits up to a whole byte, and the bytes up to the capacity. -/
def padCodewords (bb : BitBuffer) (dataCapacityBits : Nat) : Except QrError BitBuffer := do
  let bb ← bb.appendBits 0 (min 4 (dataCapacityBits - bb.length))
  let bb ← bb.appendBits 0 ((8 - bb.length % 8) % 8)
  let (bb, _) ← (List.range ((dataCapacityBits - bb.length + 7) / 8)).foldlM
    (fun s _ => appendPadByte s) (bb, 0xEC)
  return bb

/-- Bits as bytes, the first bit the highest. -/
def packBytes (bb : BitBuffer) : List UInt8 :=
  (List.range (bb.length / 8)).map fun k =>
    ((List.range 8).foldl (fun (v i : Nat) =>
      v ||| ((bb.getD (8 * k + i) false).toNat <<< (7 - i))) 0).toUInt8

/-- The part of `encodeSegments` between its check and the constructor: the version, the level and
the data codewords. -/
def dataCodewords (segs : List QrSegment) (ecl : Ecc) (minVersion maxVersion : Nat)
    (boostEcl : Bool) : Except QrError (Nat × Ecc × List UInt8) := do
  let (version, dataUsedBits) ← findVersion segs ecl maxVersion minVersion
  let ecl := boost version dataUsedBits boostEcl ecl
  let bb ← concatenate segs version
  let bb ← padCodewords bb (getNumDataCodewords version ecl * 8)
  return (version, ecl, packBytes bb)

/-! ## Error correction -/

/-- Russian peasant multiplication in the field of 256 elements. -/
def reedSolomonMultiply (x y : UInt8) : UInt8 :=
  ((List.range 8).reverse.foldl (fun (z i : Nat) =>
    let z := (z <<< 1) ^^^ ((z >>> 7) * 0x11D)
    z ^^^ (((y.toNat >>> i) &&& 1) * x.toNat)) 0).toUInt8

/-- The loop of `reedSolomonComputeDivisor` over the coefficients. -/
def multiplyByRoot (root : UInt8) : List UInt8 → List UInt8
  | [] => []
  | [c] => [reedSolomonMultiply c root]
  | c :: d :: result => (reedSolomonMultiply c root ^^^ d) :: multiplyByRoot root (d :: result)

def reedSolomonComputeDivisor (degree : Nat) : Except QrError (List UInt8) :=
  if degree < 1 ∨ degree > 255 then .error (.domainError "Degree out of range")
  else .ok ((List.range degree).foldl (fun (result, root) _ =>
    (multiplyByRoot root result, reedSolomonMultiply root 0x02))
    (List.replicate (degree - 1) 0 ++ [1], (1 : UInt8))).1

def reedSolomonComputeRemainder (data divisor : List UInt8) : Except QrError (List UInt8) :=
  data.foldlM (fun result b =>
    match result with
    | [] => .error .outOfRange
    | first :: rest =>
      let factor := b ^^^ first
      .ok (List.zipWith (fun r d => r ^^^ reedSolomonMultiply d factor) (rest ++ [0]) divisor))
    (List.replicate divisor.length 0)

/-- The blocks from the `i`-th on, `n` of them, that `data` from `k` on is split into. A short block
has a padding byte between its data and its error correction. -/
def splitBlocks (numShortBlocks shortDataLen : Nat) (rsDiv : List UInt8) :
    Nat → Nat → List UInt8 → Except QrError (List (List UInt8))
  | _, 0, _ => .ok []
  | i, n + 1, data => do
    let len := shortDataLen + if i < numShortBlocks then 0 else 1
    let dat := data.take len
    let ecc ← reedSolomonComputeRemainder dat rsDiv
    let block := (if i < numShortBlocks then dat ++ [0] else dat) ++ ecc
    let blocks ← splitBlocks numShortBlocks shortDataLen rsDiv (i + 1) n (data.drop len)
    return block :: blocks

/-- The places of the interleaved bytes, each the index in a block and the block. -/
def interleaving (numBlocks numShortBlocks shortDataLen blockLen : Nat) : List (Nat × Nat) :=
  (List.range blockLen).flatMap fun i =>
    ((List.range numBlocks).filter fun j => i ≠ shortDataLen ∨ j ≥ numShortBlocks).map (i, ·)

/-- `at` -/
def at? {α : Type} (l : List α) (i : Nat) : Except QrError α :=
  match l[i]? with
  | some a => .ok a
  | none => .error .outOfRange

/-- The byte at a place of the blocks. -/
def codewordAt (blocks : List (List UInt8)) (p : Nat × Nat) : Except QrError UInt8 := do
  let block ← at? blocks p.2
  at? block p.1

def addEccAndInterleave (version : Nat) (ecl : Ecc) (data : List UInt8) :
    Except QrError (List UInt8) := do
  if data.length ≠ getNumDataCodewords version ecl then
    throw (.invalidArgument "Invalid argument")
  let numBlocks := (NUM_ERROR_CORRECTION_BLOCKS ecl).getD version 0
  let blockEccLen := (ECC_CODEWORDS_PER_BLOCK ecl).getD version 0
  let rawCodewords := getNumRawDataModules version / 8
  let numShortBlocks := numBlocks - rawCodewords % numBlocks
  let shortBlockLen := rawCodewords / numBlocks
  let shortDataLen := shortBlockLen - blockEccLen
  let rsDiv ← reedSolomonComputeDivisor blockEccLen
  let blocks ← splitBlocks numShortBlocks shortDataLen rsDiv 0 numBlocks data
  let first ← at? blocks 0
  (interleaving blocks.length numShortBlocks shortDataLen first.length).mapM (codewordAt blocks)

end QrCode
end Chatcurse

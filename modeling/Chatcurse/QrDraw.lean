import Chatcurse.QrDisplay
import Chatcurse.QrEncode
import Mathlib.Algebra.Ring.Nat

/-!
# The modules of a QR code

The part of the class `QrCode` of `lib/qrcodegen/qrcodegen.cpp` that draws: its constructor with the
function patterns, the zigzag scan and the masks, and `encodeText` on top of it. The vectors of
modules are functions of the row and the column, with the bounds of `at` where an index can be
outside.
-/

namespace Chatcurse

/-- `QrCode` in its constructor. -/
structure Canvas where
  version : Nat
  errorCorrectionLevel : Ecc
  mask : Int
  modules : Nat → Nat → Bool := fun _ _ => false
  isFunction : Nat → Nat → Bool := fun _ _ => false

namespace Canvas
open QrCode (forUp)

def size (c : Canvas) : Nat := c.version * 4 + 17

/-- `v.at(y).at(x) = b` -/
def setAt (v : Nat → Nat → Bool) (y x : Nat) (b : Bool) : Nat → Nat → Bool :=
  fun y' x' => if y' = y ∧ x' = x then b else v y' x'

/-! ## Function patterns -/

def setFunctionModule (c : Canvas) (x y : Int) (isDark : Bool) : Except QrError Canvas :=
  if (0 ≤ x ∧ x < c.size) ∧ 0 ≤ y ∧ y < c.size then
    .ok { c with
      modules := setAt c.modules y.toNat x.toNat isDark
      isFunction := setAt c.isFunction y.toNat x.toNat true }
  else .error .outOfRange

/-- The calls of `setFunctionModule` in a loop, in their order. -/
def setFunctionModules (c : Canvas) (calls : List (Int × Int × Bool)) : Except QrError Canvas :=
  calls.foldlM (fun c (x, y, isDark) => c.setFunctionModule x y isDark) c

def timingPatterns (size : Nat) : List (Int × Int × Bool) :=
  (forUp 0 size 1).flatMap fun i => [(6, i, i % 2 = 0), (i, 6, i % 2 = 0)]

def finderPattern (size : Nat) (x y : Int) : List (Int × Int × Bool) :=
  (forUp (-4) 5 1).flatMap fun dy => (forUp (-4) 5 1).flatMap fun dx =>
    let dist := max dx.natAbs dy.natAbs
    let xx := x + dx
    let yy := y + dy
    if (0 ≤ xx ∧ xx < size) ∧ 0 ≤ yy ∧ yy < size then [(xx, yy, dist ≠ 2 && dist ≠ 4)] else []

def drawFinderPattern (c : Canvas) (x y : Int) : Except QrError Canvas :=
  c.setFunctionModules (finderPattern c.size x y)

def alignmentPattern (x y : Int) : List (Int × Int × Bool) :=
  (forUp (-2) 3 1).flatMap fun dy => (forUp (-2) 3 1).map fun dx =>
    (x + dx, y + dy, max dx.natAbs dy.natAbs ≠ 1)

def drawAlignmentPattern (c : Canvas) (x y : Int) : Except QrError Canvas :=
  c.setFunctionModules (alignmentPattern x y)

def alignmentPatternPositions (version : Nat) : List Int :=
  if version = 1 then []
  else
    let numAlign := version / 7 + 2
    let step := (version * 8 + numAlign * 3 + 5) / (numAlign * 4 - 4) * 2
    6 :: ((List.range (numAlign - 1)).foldl
      (fun ((result, pos) : List Int × Int) _ => (pos :: result, pos - step))
      ([], ((version * 4 + 17 : Nat) : Int) - 7)).1

def getAlignmentPatternPositions (c : Canvas) : List Int := alignmentPatternPositions c.version

/-- The centres of the alignment patterns; there is none in the three finder corners. -/
def alignmentCentres (alignPatPos : List Int) : List (Int × Int) :=
  let numAlign := alignPatPos.length
  alignPatPos.zipIdx.flatMap fun (x, i) => alignPatPos.zipIdx.flatMap fun (y, j) =>
    if !((i = 0 && j = 0) || (i = 0 && j = numAlign - 1) || (i = numAlign - 1 && j = 0)) then
      [(x, y)]
    else []

def getFormatBits : Ecc → Nat
  | .LOW => 1
  | .MEDIUM => 0
  | .QUARTILE => 3
  | .HIGH => 2

def formatBits (ecl : Ecc) (msk : Nat) : Nat :=
  let data := getFormatBits ecl <<< 3 ||| msk
  let rem := (List.range 10).foldl (fun (rem _ : Nat) => (rem <<< 1) ^^^ ((rem >>> 9) * 0x537)) data
  (data <<< 10 ||| rem) ^^^ 0x5412

def formatModules (size : Int) (bits : Nat) : List (Int × Int × Bool) :=
  (forUp 0 6 1).map (fun i => (8, i, getBit bits i.toNat)) ++
  [(8, 7, getBit bits 6), (8, 8, getBit bits 7), (7, 8, getBit bits 8)] ++
  (forUp 9 15 1).map (fun i => (14 - i, 8, getBit bits i.toNat)) ++
  (forUp 0 8 1).map (fun i => (size - 1 - i, 8, getBit bits i.toNat)) ++
  (forUp 8 15 1).map (fun i => (8, size - 15 + i, getBit bits i.toNat)) ++
  [(8, size - 8, true)]

def drawFormatBits (c : Canvas) (msk : Nat) : Except QrError Canvas :=
  c.setFunctionModules (formatModules c.size (formatBits c.errorCorrectionLevel msk))

def versionBits (version : Nat) : Nat :=
  let rem := (List.range 12).foldl
    (fun (rem _ : Nat) => (rem <<< 1) ^^^ ((rem >>> 11) * 0x1F25)) version
  version <<< 12 ||| rem

def versionModules (size : Int) (bits : Nat) : List (Int × Int × Bool) :=
  (forUp 0 18 1).flatMap fun i =>
    let bit := getBit bits i.toNat
    let a := size - 11 + i % 3
    let b := i / 3
    [(a, b, bit), (b, a, bit)]

def drawVersion (c : Canvas) : Except QrError Canvas :=
  if c.version < 7 then .ok c
  else c.setFunctionModules (versionModules c.size (versionBits c.version))

def drawFunctionPatterns (c : Canvas) : Except QrError Canvas := do
  let c ← c.setFunctionModules (timingPatterns c.size)
  let c ← c.drawFinderPattern 3 3
  let c ← c.drawFinderPattern (c.size - 4) 3
  let c ← c.drawFinderPattern 3 (c.size - 4)
  let c ← (alignmentCentres c.getAlignmentPatternPositions).foldlM
    (fun c (x, y) => c.drawAlignmentPattern x y) c
  let c ← c.drawFormatBits 0
  c.drawVersion

/-! ## Codewords -/

/-- The values of `right` in the loop of `drawCodewords`. -/
def rights (right : Nat) : List Nat :=
  if right ≥ 1 then
    let right' := if right = 6 then 5 else right
    right' :: rights (right' - 2)
  else []
decreasing_by
  split <;> omega

/-- The places of the scan in their order, by column and row. -/
def zigzag (size : Nat) : List (Nat × Nat) :=
  (rights (size - 1)).flatMap fun right => (List.range size).flatMap fun vert =>
    (List.range 2).map fun j =>
      let upward := (right + 1) &&& 2 = 0
      (right - j, if upward then size - 1 - vert else vert)

/-- One turn of the loops of `drawCodewords`, with what is in `i`. -/
def placeCodeword (data : List UInt8) (s : Canvas × Nat) (p : Nat × Nat) : Canvas × Nat :=
  let (c, i) := s
  let (x, y) := p
  if !c.isFunction y x && i < data.length * 8 then
    let isDark := getBit (data.getD (i >>> 3) 0).toNat (7 - (i &&& 7))
    ({ c with modules := setAt c.modules y x isDark }, i + 1)
  else (c, i)

def placeCodewords (c : Canvas) (data : List UInt8) : Canvas × Nat :=
  (zigzag c.size).foldl (placeCodeword data) (c, 0)

def drawCodewords (c : Canvas) (data : List UInt8) : Except QrError Canvas :=
  if data.length ≠ QrCode.getNumRawDataModules c.version / 8 then
    .error (.invalidArgument "Invalid argument")
  else .ok (c.placeCodewords data).1

/-! ## Masks -/

def invert (msk x y : Nat) : Bool :=
  match msk with
  | 0 => (x + y) % 2 = 0
  | 1 => y % 2 = 0
  | 2 => x % 3 = 0
  | 3 => (x + y) % 3 = 0
  | 4 => (x / 3 + y / 2) % 2 = 0
  | 5 => x * y % 2 + x * y % 3 = 0
  | 6 => (x * y % 2 + x * y % 3) % 2 = 0
  | _ => ((x + y) % 2 + x * y % 3) % 2 = 0

def applyMask (c : Canvas) (msk : Int) : Except QrError Canvas :=
  if msk < 0 ∨ msk > 7 then .error (.domainError "Mask value out of range")
  else .ok { c with
    modules := fun y x => c.modules y x ^^ (invert msk.toNat x y && !c.isFunction y x) }

def PENALTY_N1 : Nat := 3
def PENALTY_N2 : Nat := 3
def PENALTY_N3 : Nat := 40
def PENALTY_N4 : Nat := 10

def LONG_MAX : Nat := 9223372036854775807

/-- The latest run first, seven of them. -/
def finderPenaltyAddHistory (size currentRunLength : Nat) (runHistory : List Nat) : List Nat :=
  (if runHistory.getD 0 0 = 0 then currentRunLength + size else currentRunLength) ::
    runHistory.dropLast

def finderPenaltyCountPatterns (runHistory : List Nat) : Nat :=
  let n := runHistory.getD 1 0
  let core := n > 0 && runHistory.getD 2 0 = n && runHistory.getD 3 0 = n * 3 &&
    runHistory.getD 4 0 = n && runHistory.getD 5 0 = n
  (if core && runHistory.getD 0 0 ≥ n * 4 && runHistory.getD 6 0 ≥ n then 1 else 0) +
    (if core && runHistory.getD 6 0 ≥ n * 4 && runHistory.getD 0 0 ≥ n then 1 else 0)

/-- The variables of the loops of `getPenaltyScore` along a row or a column. -/
structure Runs where
  runColor : Bool := false
  run : Nat := 0
  runHistory : List Nat := List.replicate 7 0
  result : Nat := 0

def Runs.add (size : Nat) (r : Runs) (color : Bool) : Runs :=
  if color = r.runColor then
    let run := r.run + 1
    ({ r with
      run := run
      result := r.result + if run = 5 then PENALTY_N1 else if run > 5 then 1 else 0 } : Runs)
  else
    let runHistory := finderPenaltyAddHistory size r.run r.runHistory
    { runColor := color
      run := 1
      runHistory := runHistory
      result := r.result +
        if !r.runColor then finderPenaltyCountPatterns runHistory * PENALTY_N3 else 0 }

/-- The history at the end of a line, with a light border after it. -/
def Runs.terminate (size : Nat) (r : Runs) : List Nat :=
  let runHistory :=
    if r.runColor then finderPenaltyAddHistory size r.run r.runHistory else r.runHistory
  let currentRunLength := if r.runColor then 0 else r.run
  finderPenaltyAddHistory size (currentRunLength + size) runHistory

/-- `finderPenaltyTerminateAndCount` -/
def Runs.terminateAndCount (size : Nat) (r : Runs) : Nat :=
  finderPenaltyCountPatterns (r.terminate size)

def linePenalty (size : Nat) (line : List Bool) : Nat :=
  let r := line.foldl (Runs.add size) {}
  r.result + r.terminateAndCount size * PENALTY_N3

def rowOf (c : Canvas) (y : Nat) : List Bool := (List.range c.size).map (c.modules y)

def columnOf (c : Canvas) (x : Nat) : List Bool := (List.range c.size).map (c.modules · x)

/-- The 2*2 blocks of one colour. -/
def blocks (c : Canvas) : Nat :=
  ((List.range (c.size - 1)).map fun y => (List.range (c.size - 1)).countP fun x =>
    let color := c.modules y x
    color = c.modules y (x + 1) && color = c.modules (y + 1) x &&
      color = c.modules (y + 1) (x + 1)).sum

def dark (c : Canvas) : Nat := ((List.range c.size).map fun y => (c.rowOf y).countP (· = true)).sum

/-- `k`, from the balance of dark and light modules. -/
def imbalance (c : Canvas) : Int :=
  let total : Nat := c.size * c.size
  ((((c.dark : Int) * 20 - total * 10).natAbs + total - 1) / total : Nat) - 1

def getPenaltyScore (c : Canvas) : Int :=
  ((List.range c.size).map fun y => linePenalty c.size (c.rowOf y)).sum +
  ((List.range c.size).map fun x => linePenalty c.size (c.columnOf x)).sum +
  c.blocks * PENALTY_N2 + c.imbalance * PENALTY_N4

/-- One turn of the loop over the masks, with `msk` and `minPenalty`. -/
def tryMask (s : Canvas × Int × Int) (i : Nat) : Except QrError (Canvas × Int × Int) := do
  let (c, msk, minPenalty) := s
  let c ← c.applyMask i
  let c ← c.drawFormatBits i
  let penalty := c.getPenaltyScore
  let (msk, minPenalty) := if penalty < minPenalty then ((i : Int), penalty) else (msk, minPenalty)
  let c ← c.applyMask i
  return (c, msk, minPenalty)

def chooseMask (c : Canvas) : Except QrError (Canvas × Int × Int) :=
  (List.range 8).foldlM tryMask (c, -1, (LONG_MAX : Int))

/-- The constructor of `QrCode`. -/
def construct (ver : Int) (ecl : Ecc) (dataCodewords : List UInt8) (msk : Int) :
    Except QrError Canvas := do
  if ver < QrCode.MIN_VERSION ∨ ver > QrCode.MAX_VERSION then
    throw (.domainError "Version value out of range")
  if msk < -1 ∨ msk > 7 then throw (.domainError "Mask value out of range")
  let c : Canvas := { version := ver.toNat, errorCorrectionLevel := ecl, mask := msk }
  let c ← c.drawFunctionPatterns
  let allCodewords ← QrCode.addEccAndInterleave ver.toNat ecl dataCodewords
  let c ← c.drawCodewords allCodewords
  let (c, msk) ← if msk = -1 then (c.chooseMask).map fun (c, msk, _) => (c, msk) else .ok (c, msk)
  let c ← c.applyMask msk
  let c ← c.drawFormatBits msk.toNat
  return { c with mask := msk, isFunction := fun _ _ => false }

/-- The code as it is printed. -/
def toQrCode (c : Canvas) : QrCode := ⟨c.size, fun y x => c.modules y x⟩

end Canvas

namespace QrCode

def encodeSegments (segs : List QrSegment) (ecl : Ecc) (minVersion maxVersion mask : Int)
    (boostEcl : Bool) : Except QrError Canvas := do
  if ¬(MIN_VERSION ≤ minVersion ∧ minVersion ≤ maxVersion ∧ maxVersion ≤ MAX_VERSION) ∨
      mask < -1 ∨ mask > 7 then
    throw (.invalidArgument "Invalid value")
  let (version, ecl, dataCodewords) ←
    dataCodewords segs ecl minVersion.toNat maxVersion.toNat boostEcl
  Canvas.construct version ecl dataCodewords mask

def encodeText (text : Bytes) (ecl : Ecc) : Except QrError Canvas := do
  let segs ← QrSegment.makeSegments text
  encodeSegments segs ecl MIN_VERSION MAX_VERSION (-1) true

def encodeBinary (data : Bytes) (ecl : Ecc) : Except QrError Canvas := do
  let seg ← QrSegment.makeBytes data
  encodeSegments [seg] ecl MIN_VERSION MAX_VERSION (-1) true

end QrCode
end Chatcurse

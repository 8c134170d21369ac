import Chatcurse.Td

/-!
# QR segments

The class `QrSegment` of `lib/qrcodegen/qrcodegen.cpp` with its `BitBuffer`. A C string is the bytes
before its null. An exception is an error with its text, and so is the overflow of an `int` that
counts characters, which is undefined.
-/

namespace Chatcurse

inductive QrError where
  /-- `std::domain_error` -/
  | domainError (what : String)
  /-- `std::length_error` -/
  | lengthError (what : String)
  /-- `std::invalid_argument` -/
  | invalidArgument (what : String)
  /-- `std::out_of_range`, of an `at` -/
  | outOfRange
  /-- `data_too_long` -/
  | dataTooLong (what : String)
  /-- no exception: an `int` is counted past `INT_MAX` -/
  | overflow
  deriving DecidableEq

def INT_MAX : Nat := 2147483647

/-- `QrCode::getBit` -/
def getBit (x i : Nat) : Bool := (x >>> i) &&& 1 ≠ 0

/-- The first bit first. -/
abbrev BitBuffer := List Bool

def BitBuffer.appendBits (bb : BitBuffer) (val len : Nat) : Except QrError BitBuffer :=
  if len > 31 ∨ val >>> len ≠ 0 then .error (.domainError "Value out of range")
  else .ok (bb ++ (List.range len).reverse.map (getBit val))

inductive Mode where
  | NUMERIC
  | ALPHANUMERIC
  | BYTE
  | KANJI
  | ECI
  deriving DecidableEq

namespace Mode

def modeBits : Mode → Nat
  | NUMERIC => 1
  | ALPHANUMERIC => 2
  | BYTE => 4
  | KANJI => 8
  | ECI => 7

def numBitsCharCount : Mode → List Nat
  | NUMERIC => [10, 12, 14]
  | ALPHANUMERIC => [9, 11, 13]
  | BYTE => [8, 16, 16]
  | KANJI => [8, 10, 12]
  | ECI => [0, 0, 0]

def numCharCountBits (m : Mode) (ver : Nat) : Nat := m.numBitsCharCount.getD ((ver + 7) / 17) 0

end Mode

/-- A segment, whose constructor lets no negative count through. -/
structure QrSegment where
  mode : Mode
  numChars : Nat
  data : BitBuffer

namespace QrSegment

/-- The constructor of `QrSegment`. -/
def construct (md : Mode) (numCh : Int) (dt : BitBuffer) : Except QrError QrSegment :=
  if numCh < 0 then .error (.domainError "Invalid value") else .ok ⟨md, numCh.toNat, dt⟩

def ALPHANUMERIC_CHARSET : Bytes := ascii "0123456789ABCDEFGHIJKLMNOPQRSTUVWXYZ $%*+-./:"

def makeBytes (data : Bytes) : Except QrError QrSegment :=
  if data.length > INT_MAX then .error (.lengthError "Data too long")
  else (data.foldlM (fun (bb : BitBuffer) b => bb.appendBits b.toNat 8) []).bind
    (construct .BYTE data.length)

/-- The variables of the loops of `makeNumeric` and `makeAlphanumeric`. -/
structure Accum where
  bb : BitBuffer := []
  accumData : Nat := 0
  accumCount : Nat := 0
  charCount : Nat := 0

/-- `charCount++`, of an `int` -/
def Accum.count (a : Accum) : Except QrError Accum :=
  if a.charCount < INT_MAX then .ok { a with charCount := a.charCount + 1 } else .error .overflow

/-- One turn of the loop, for a character that stands for `d` among `base` ones. Groups of `group`
characters are appended with `bits` bits. -/
def Accum.add (base group bits : Nat) (a : Accum) (d : Nat) : Except QrError Accum :=
  let accumData := a.accumData * base + d
  let accumCount := a.accumCount + 1
  (if accumCount = group then
    (a.bb.appendBits accumData bits).map fun bb => { a with bb, accumData := 0, accumCount := 0 }
  else .ok { a with accumData, accumCount }).bind Accum.count

/-- What is left of the last group. -/
def Accum.finish (restBits : Nat → Nat) (mode : Mode) (a : Accum) : Except QrError QrSegment :=
  (if a.accumCount > 0 then a.bb.appendBits a.accumData (restBits a.accumCount)
    else .ok a.bb).bind (construct mode a.charCount)

def Accum.addDigit (a : Accum) (c : UInt8) : Except QrError Accum :=
  if c < 48 ∨ c > 57 then .error (.domainError "String contains non-numeric characters")
  else a.add 10 3 10 (c.toNat - 48)

def makeNumeric (digits : Bytes) : Except QrError QrSegment :=
  (digits.foldlM Accum.addDigit {}).bind (·.finish (fun n => n * 3 + 1) .NUMERIC)

def Accum.addAlphanumeric (a : Accum) (c : UInt8) : Except QrError Accum :=
  match ALPHANUMERIC_CHARSET.idxOf? c with
  | none => .error (.domainError "String contains unencodable characters in alphanumeric mode")
  | some temp => a.add 45 2 11 temp

def makeAlphanumeric (text : Bytes) : Except QrError QrSegment :=
  (text.foldlM Accum.addAlphanumeric {}).bind (·.finish (fun _ => 6) .ALPHANUMERIC)

def isNumeric (text : Bytes) : Bool := text.all fun c => !(c < 48 || c > 57)

def isAlphanumeric (text : Bytes) : Bool :=
  text.all fun c => (ALPHANUMERIC_CHARSET.idxOf? c).isSome

def makeSegments (text : Bytes) : Except QrError (List QrSegment) :=
  if text = [] then .ok []
  else if isNumeric text then (makeNumeric text).map ([·])
  else if isAlphanumeric text then (makeAlphanumeric text).map ([·])
  else (makeBytes text).map ([·])

def makeEci (assignVal : Int) : Except QrError QrSegment :=
  (if assignVal < 0 then .error (.domainError "ECI assignment value out of range")
  else if assignVal < 1 <<< 7 then BitBuffer.appendBits [] assignVal.toNat 8
  else if assignVal < 1 <<< 14 then do
    let bb ← BitBuffer.appendBits [] 2 2
    bb.appendBits assignVal.toNat 14
  else if assignVal < 1000000 then do
    let bb ← BitBuffer.appendBits [] 6 3
    bb.appendBits assignVal.toNat 21
  else .error (.domainError "ECI assignment value out of range")).bind (construct .ECI 0)

/-- One turn of the loop of `getTotalBits`; the result is none if the number of characters does not
fit its field or the sum does not fit an `int`. -/
def addTotalBits (version result : Nat) (seg : QrSegment) : Option Nat :=
  let ccbits := seg.mode.numCharCountBits version
  if seg.numChars ≥ 1 <<< ccbits then none
  else if 4 + ccbits > INT_MAX - result then none
  else
    let result := result + (4 + ccbits)
    if seg.data.length > INT_MAX - result then none
    else some (result + seg.data.length)

def getTotalBits (segs : List QrSegment) (version : Nat) : Option Nat :=
  segs.foldlM (addTotalBits version) 0

end QrSegment
end Chatcurse

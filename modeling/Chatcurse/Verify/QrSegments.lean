import Chatcurse.QrSegment
import Chatcurse.Theory.Positional
import Mathlib.Data.List.GetD

/-!
# What a segment holds

The content of a segment, its bits as digits in groups, and a reader of segments. The builders of
`QrSegment` make the segment of a content (`makeSegments_cases`), and among the contents of a text
`makeSegments` takes one that is shortest at every version (`makeSegments_shortest`).
-/

namespace Chatcurse

/-- The content of a segment. -/
inductive Content where
  | numeric (digits : List (Fin 10))
  | alphanumeric (chars : List (Fin 45))
  | bytes (data : Bytes)
  | eci (assignVal : Fin 1000000)
  deriving DecidableEq

namespace Content
open Positional (bits packed unpack read)

def mode : Content → Mode
  | numeric _ => .NUMERIC
  | alphanumeric _ => .ALPHANUMERIC
  | bytes _ => .BYTE
  | eci _ => .ECI

def numChars : Content → Nat
  | numeric digits => digits.length
  | alphanumeric chars => chars.length
  | bytes data => data.length
  | eci _ => 0

/-- The number of bits for a group of digits, one to three of them. -/
def digitBits (n : Nat) : Nat := n * 3 + 1

/-- The number of bits for a character or a pair of them. -/
def charBits (n : Nat) : Nat := n * 5 + 1

def data : Content → BitBuffer
  | numeric digits => packed 10 3 digitBits (digits.map Fin.val)
  | alphanumeric chars => packed 45 2 charBits (chars.map Fin.val)
  | bytes data => packed 256 1 (fun _ => 8) (data.map UInt8.toNat)
  | eci v =>
    if v.val < 1 <<< 7 then bits 8 v
    else if v.val < 1 <<< 14 then bits 2 2 ++ bits 14 v
    else bits 3 6 ++ bits 21 v

def segment (c : Content) : QrSegment := ⟨c.mode, c.numChars, c.data⟩

/-- The text that a content stands for; an ECI designator is none. -/
def text : Content → Bytes
  | numeric digits => digits.map fun d => UInt8.ofNat (48 + d.val)
  | alphanumeric chars => chars.map fun d => QrSegment.ALPHANUMERIC_CHARSET.getD d.val 0
  | bytes data => data
  | eci _ => []

/-! ## Reading -/

/-- An ECI designator at the front of the bits, with the number of its bytes in unary. -/
def readEci : BitBuffer → Option (Nat × BitBuffer)
  | false :: bs => read 7 bs
  | true :: false :: bs => read 14 bs
  | true :: true :: false :: bs => read 21 bs
  | _ => none

/-- The content of a segment of the mode at the front of the bits, after the mode. -/
def readContent (version : Nat) (mode : Mode) (bs : BitBuffer) : Option (Content × BitBuffer) :=
  (read (mode.numCharCountBits version) bs).bind fun (n, bs) =>
    match mode with
    | .NUMERIC => (unpack 10 3 digitBits n bs).map fun (ds, bs) =>
        (.numeric (ds.map (Fin.ofNat 10)), bs)
    | .ALPHANUMERIC => (unpack 45 2 charBits n bs).map fun (ds, bs) =>
        (.alphanumeric (ds.map (Fin.ofNat 45)), bs)
    | .BYTE => (unpack 256 1 (fun _ => 8) n bs).map fun (ds, bs) =>
        (.bytes (ds.map UInt8.ofNat), bs)
    | .ECI => (readEci bs).map fun (v, bs) => (.eci (Fin.ofNat 1000000 v), bs)
    | .KANJI => none

def readMode (n : Nat) : Option Mode :=
  [Mode.NUMERIC, .ALPHANUMERIC, .BYTE, .KANJI, .ECI].find? (·.modeBits = n)

/-- The contents up to a terminator or the last bits that have no room for a mode. -/
def readContents (version : Nat) : Nat → BitBuffer → Option (List Content)
  | 0, _ => none
  | fuel + 1, bs =>
    match read 4 bs with
    | none => some []
    | some (0, _) => some []
    | some (n + 1, bs) =>
      (readMode (n + 1)).bind fun mode =>
        (readContent version mode bs).bind fun (c, bs) =>
          (readContents version fuel bs).map (c :: ·)

end Content

/-! ## Appended bits -/

open Positional (bits packed unpack read value)

theorem getBit_eq (x i : Nat) : getBit x i = x.testBit i := by
  rw [getBit, Nat.testBit, Nat.and_comm, Bool.eq_iff_iff, decide_eq_true_iff, bne_iff_ne]

theorem appendBits_eq (bb : BitBuffer) (hval : v < 2 ^ n) (hlen : n ≤ 31) :
    bb.appendBits v n = .ok (bb ++ bits n v) := by
  have hshift : v >>> n = 0 := by
    rw [Nat.shiftRight_eq_div_pow]
    exact Nat.div_eq_of_lt hval
  have hbit : getBit v = v.testBit := funext (getBit_eq v)
  rw [BitBuffer.appendBits, if_neg (by omega), hbit]
  rfl

namespace QrSegment

theorem construct_natCast (mode : Mode) (n : Nat) (bb : BitBuffer) :
    construct mode n bb = .ok ⟨mode, n, bb⟩ := by
  rw [construct, if_neg (Int.not_lt.mpr (Int.natCast_nonneg n)), Int.toNat_natCast]

/-! ## Groups of digits -/

section
variable {base group : Nat} {width rest : Nat → Nat}

theorem finish_eq (hw : ∀ k ≤ group, base ^ k ≤ 2 ^ width k ∧ width k ≤ 31)
    (hrest : ∀ k < group, 0 < k → rest k = width k) (mode : Mode) (bb : BitBuffer) {ds : List Nat}
    (hds : ∀ d ∈ ds, d < base) (hlt : ds.length < group) (n : Nat) :
    Accum.finish rest mode ⟨bb, value base ds, ds.length, n⟩ =
      .ok ⟨mode, n, bb ++ packed base group width ds⟩ := by
  rcases eq_or_ne ds [] with rfl | hne
  · rw [Positional.packed_nil, List.append_nil]
    exact construct_natCast mode n bb
  · have hpos := List.length_pos_iff.mpr hne
    obtain ⟨hfit, hwidth⟩ := hw ds.length hlt.le
    have hval := Nat.lt_of_lt_of_le (Positional.value_lt hds) hfit
    have htake : ds.take group = ds := List.take_of_length_le hlt.le
    have hdrop : ds.drop group = [] := List.drop_of_length_le hlt.le
    rw [Positional.packed_of_ne_nil (by omega) hne, htake, hdrop, Positional.packed_nil,
      List.append_nil]
    simp only [Accum.finish, if_pos hpos, hrest _ hlt hpos, appendBits_eq bb hval hwidth]
    exact construct_natCast mode n _

/-- One turn of the loop before it counts: the digits read of the last group become others, and the
bits to come stay the same. -/
theorem add_eq (hg : 0 < group) (hw : ∀ k ≤ group, base ^ k ≤ 2 ^ width k ∧ width k ≤ 31)
    {cur : List Nat} (hcur : ∀ d' ∈ cur ++ [d], d' < base) (hlt : cur.length < group)
    (bb : BitBuffer) (n : Nat) :
    ∃ (bb' : BitBuffer) (cur' : List Nat),
      Accum.add base group (width group) ⟨bb, value base cur, cur.length, n⟩ d =
        Accum.count ⟨bb', value base cur', cur'.length, n⟩ ∧
      (∀ d' ∈ cur', d' < base) ∧ cur'.length < group ∧
      ∀ ds, bb' ++ packed base group width (cur' ++ ds) =
        bb ++ packed base group width (cur ++ d :: ds) := by
  have hlen : (cur ++ [d]).length = cur.length + 1 := by simp
  have hsplit : ∀ ds, cur ++ d :: ds = cur ++ [d] ++ ds := by simp
  by_cases hfull : cur.length + 1 = group
  · -- the digit fills its group
    obtain ⟨hfit, hwidth⟩ := hw group le_rfl
    have hval : value base (cur ++ [d]) < 2 ^ width group := by
      refine Nat.lt_of_lt_of_le (Positional.value_lt hcur) ?_
      rwa [hlen, hfull]
    refine ⟨bb ++ bits (width group) (value base (cur ++ [d])), [], ?_, List.forall_mem_nil _, hg,
      fun ds => ?_⟩
    · rw [Positional.value_concat] at hval ⊢
      simp only [Accum.add, if_pos hfull, appendBits_eq bb hval hwidth]
      rfl
    · have hne : cur ++ [d] ++ ds ≠ [] := by simp
      have htake : (cur ++ [d] ++ ds).take group = cur ++ [d] :=
        List.take_left' (hlen.trans hfull)
      have hdrop : (cur ++ [d] ++ ds).drop group = ds := List.drop_left' (hlen.trans hfull)
      rw [hsplit ds, Positional.packed_of_ne_nil hg hne, htake, hdrop, hlen, hfull,
        ← List.append_assoc, List.nil_append]
  · -- its group goes on after it
    refine ⟨bb, cur ++ [d], ?_, hcur, by omega, fun ds => by rw [hsplit ds]⟩
    simp only [Accum.add, if_neg hfull, Positional.value_concat, hlen]
    rfl

theorem count_of_lt {a : Accum} (h : a.charCount < INT_MAX) :
    a.count = .ok { a with charCount := a.charCount + 1 } := if_pos h

theorem count_of_max {a : Accum} (h : a.charCount = INT_MAX) : a.count = .error .overflow :=
  if_neg (Nat.lt_irrefl _ <| h ▸ ·)

/-- The loop from a state with some digits of a group in it, and what is left at the end. -/
theorem foldlM_add (hg : 0 < group) (hw : ∀ k ≤ group, base ^ k ≤ 2 ^ width k ∧ width k ≤ 31)
    (hrest : ∀ k < group, 0 < k → rest k = width k) (mode : Mode) (ds : List Nat)
    (hds : ∀ d ∈ ds, d < base) (bb : BitBuffer) (cur : List Nat)
    (hcur : ∀ d ∈ cur, d < base) (hlt : cur.length < group) (hn : n ≤ INT_MAX) :
    (ds.foldlM (Accum.add base group (width group))
      ⟨bb, value base cur, cur.length, n⟩).bind (·.finish rest mode) =
      if n + ds.length ≤ INT_MAX then
        .ok ⟨mode, n + ds.length, bb ++ packed base group width (cur ++ ds)⟩
      else .error .overflow := by
  induction ds generalizing bb cur n with
  | nil =>
    rw [List.append_nil]
    exact (finish_eq hw hrest mode bb hcur hlt n).trans (if_pos hn).symm
  | cons d ds ih =>
    obtain ⟨hd, hds⟩ := List.forall_mem_cons.mp hds
    have hcur' : ∀ d' ∈ cur ++ [d], d' < base :=
      List.forall_mem_append.mpr ⟨hcur, fun d' hd' => List.mem_singleton.mp hd' ▸ hd⟩
    obtain ⟨bb', cur', hadd, hdigits, hlt', hbits⟩ := add_eq hg hw hcur' hlt bb n
    have hcount : n + (d :: ds).length = n + 1 + ds.length := by
      rw [List.length_cons]
      omega
    rw [List.foldlM_cons, hadd, hcount, ← hbits ds]
    rcases Nat.eq_or_lt_of_le hn with hmax | hroom
    · rw [count_of_max hmax, if_neg (by omega)]
      rfl
    · rw [count_of_lt hroom]
      exact ih hds bb' cur' hdigits hlt' hroom

/-- The loop of a builder, whose step gives each character of the text its digit. -/
theorem foldlM_chars {α : Type} {step : Accum → UInt8 → Except QrError Accum} {digit : α → Nat}
    {char : α → UInt8} (hstep : ∀ a d, step a (char d) = a.add base group (width group) (digit d))
    (ds : List α) (a : Accum) : (ds.map char).foldlM step a =
      (ds.map digit).foldlM (Accum.add base group (width group)) a := by
  induction ds generalizing a with
  | nil => rfl
  | cons d ds ih =>
    rw [List.map_cons, List.map_cons, List.foldlM_cons, List.foldlM_cons, hstep]
    simp only [ih]

end

/-! ## Builders -/

theorem makeNumeric_eq (ds : List (Fin 10)) :
    makeNumeric (Content.numeric ds).text =
      if ds.length ≤ INT_MAX then .ok (Content.numeric ds).segment else .error .overflow := by
  have hw : ∀ k ≤ 3, 10 ^ k ≤ 2 ^ Content.digitBits k ∧ Content.digitBits k ≤ 31 := by decide
  have hdigit : ∀ d : Fin 10, ¬(UInt8.ofNat (48 + d.val) < 48 ∨ UInt8.ofNat (48 + d.val) > 57) ∧
      (UInt8.ofNat (48 + d.val)).toNat - 48 = d.val := by decide
  have hstep : ∀ (a : Accum) (d : Fin 10), a.addDigit (UInt8.ofNat (48 + d.val)) =
      a.add 10 3 (Content.digitBits 3) d.val := by
    intro a d
    rw [Accum.addDigit, if_neg (hdigit d).1, (hdigit d).2]
    rfl
  have hfold := foldlM_add (by decide) hw (fun _ _ _ => rfl) .NUMERIC (ds.map Fin.val)
    (fun d hd => by obtain ⟨i, -, rfl⟩ := List.mem_map.mp hd; exact i.isLt) []
    [] (List.forall_mem_nil _) (by decide) (Nat.zero_le _)
  rw [List.nil_append, List.nil_append, List.length_map, Nat.zero_add] at hfold
  rw [makeNumeric, Content.text, foldlM_chars hstep]
  exact hfold

theorem makeAlphanumeric_eq (ds : List (Fin 45)) :
    makeAlphanumeric (Content.alphanumeric ds).text =
      if ds.length ≤ INT_MAX then .ok (Content.alphanumeric ds).segment
      else .error .overflow := by
  have hw : ∀ k ≤ 2, 45 ^ k ≤ 2 ^ Content.charBits k ∧ Content.charBits k ≤ 31 := by decide
  have hchar : ∀ d : Fin 45,
      ALPHANUMERIC_CHARSET.idxOf? (ALPHANUMERIC_CHARSET.getD d.val 0) = some d.val := by decide
  have hstep : ∀ (a : Accum) (d : Fin 45), a.addAlphanumeric (ALPHANUMERIC_CHARSET.getD d.val 0) =
      a.add 45 2 (Content.charBits 2) d.val := by
    intro a d
    rw [Accum.addAlphanumeric, hchar d]
    rfl
  have hrest : ∀ k < 2, 0 < k → 6 = Content.charBits k := by decide
  have hfold := foldlM_add (by decide) hw hrest .ALPHANUMERIC (ds.map Fin.val)
    (fun d hd => by obtain ⟨i, -, rfl⟩ := List.mem_map.mp hd; exact i.isLt) []
    [] (List.forall_mem_nil _) (by decide) (Nat.zero_le _)
  rw [List.nil_append, List.nil_append, List.length_map, Nat.zero_add] at hfold
  rw [makeAlphanumeric, Content.text, foldlM_chars hstep]
  exact hfold

theorem foldlM_appendBits (data : Bytes) (bb : BitBuffer) :
    data.foldlM (fun (bb : BitBuffer) b => bb.appendBits b.toNat 8) bb =
      .ok (bb ++ packed 256 1 (fun _ => 8) (data.map UInt8.toNat)) := by
  induction data generalizing bb with
  | nil =>
    rw [List.map_nil, Positional.packed_nil, List.append_nil]
    rfl
  | cons b data ih =>
    have happend := appendBits_eq bb (n := 8) b.toNat_lt (by decide)
    have hpacked : packed 256 1 (fun _ => 8) ((b :: data).map UInt8.toNat) =
        bits 8 b.toNat ++ packed 256 1 (fun _ => 8) (data.map UInt8.toNat) := by
      rw [Positional.packed_of_ne_nil (by decide) (by simp)]
      simp [value]
    rw [List.foldlM_cons, happend, hpacked, ← List.append_assoc]
    exact ih _

theorem makeBytes_eq {bs : Bytes} (h : bs.length ≤ INT_MAX) :
    makeBytes bs = .ok (Content.bytes bs).segment := by
  rw [makeBytes, if_neg (by omega), foldlM_appendBits]
  exact construct_natCast .BYTE bs.length _

theorem exists_map {α β : Type} {f : α → β} {l : List β} (h : ∀ b ∈ l, ∃ a, f a = b) :
    ∃ as : List α, as.map f = l := by
  induction l with
  | nil => exact ⟨[], rfl⟩
  | cons b l ih =>
    obtain ⟨⟨a, rfl⟩, hl⟩ := List.forall_mem_cons.mp h
    obtain ⟨as, rfl⟩ := ih hl
    exact ⟨a :: as, rfl⟩

theorem exists_numeric {text : Bytes} (h : isNumeric text) :
    ∃ ds, (Content.numeric ds).text = text := by
  refine exists_map fun c hc => ?_
  have hdigit := List.all_eq_true.mp h c hc
  simp only [Bool.not_eq_true', Bool.or_eq_false_iff, decide_eq_false_iff_not,
    UInt8.not_lt, gt_iff_lt] at hdigit
  obtain ⟨hlo, hhi⟩ := hdigit
  have hlo' : 48 ≤ c.toNat := UInt8.le_iff_toNat_le.mp hlo
  have hhi' : c.toNat ≤ 57 := UInt8.le_iff_toNat_le.mp hhi
  refine ⟨⟨c.toNat - 48, by omega⟩, ?_⟩
  rw [Nat.add_sub_cancel' hlo', UInt8.ofNat_toNat]

theorem exists_alphanumeric {text : Bytes} (h : isAlphanumeric text) :
    ∃ ds, (Content.alphanumeric ds).text = text := by
  refine exists_map fun c hc => ?_
  obtain ⟨i, hi⟩ := Option.isSome_iff_exists.mp (List.all_eq_true.mp h c hc)
  obtain ⟨hlt, hchar, -⟩ := List.idxOf?_eq_some_iff.mp hi
  refine ⟨⟨i, hlt⟩, ?_⟩
  rw [List.getD_eq_getElem _ _ hlt, hchar]

theorem makeEci_eq (v : Fin 1000000) : makeEci v.val = .ok (Content.eci v).segment := by
  have hv := v.isLt
  have h7 : (1 <<< 7 : Int) = 128 := rfl
  have h14 : (1 <<< 14 : Int) = 16384 := rfl
  have h7' : 1 <<< 7 = 128 := rfl
  have h14' : 1 <<< 14 = 16384 := rfl
  have hnat : ((v.val : Nat) : Int).toNat = v.val := Int.toNat_natCast _
  rw [makeEci, if_neg (by omega), Content.segment, Content.data, h7, h14, h7', h14', hnat]
  by_cases hshort : v.val < 128
  · have hfit : v.val < 2 ^ 8 := by omega
    rw [if_pos (by omega), if_pos hshort, appendBits_eq [] hfit (by decide)]
    rfl
  · rw [if_neg (by omega), if_neg hshort]
    by_cases hlong : v.val < 16384
    · rw [if_pos (by omega), if_pos hlong, appendBits_eq [] (by decide) (by decide)]
      simp only [bind, Except.bind, appendBits_eq _ (show v.val < 2 ^ 14 by omega)
        (show 14 ≤ 31 by decide)]
      rfl
    · rw [if_neg (by omega), if_neg hlong, if_pos (by omega),
        appendBits_eq [] (by decide) (by decide)]
      simp only [bind, Except.bind, appendBits_eq _ (show v.val < 2 ^ 21 by omega)
        (show 21 ≤ 31 by decide)]
      rfl

/-! ## The choice of a mode -/

theorem isNumeric_text (ds : List (Fin 10)) : isNumeric (Content.numeric ds).text := by
  have hdigit : ∀ d : Fin 10,
      (!(UInt8.ofNat (48 + d.val) < 48 || UInt8.ofNat (48 + d.val) > 57)) = true := by decide
  refine List.all_eq_true.mpr fun c hc => ?_
  obtain ⟨d, -, rfl⟩ := List.mem_map.mp hc
  exact hdigit d

theorem isAlphanumeric_text (ds : List (Fin 45)) :
    isAlphanumeric (Content.alphanumeric ds).text := by
  have hchar : ∀ d : Fin 45,
      (ALPHANUMERIC_CHARSET.idxOf? (ALPHANUMERIC_CHARSET.getD d.val 0)).isSome = true := by decide
  refine List.all_eq_true.mpr fun c hc => ?_
  obtain ⟨d, -, rfl⟩ := List.mem_map.mp hc
  exact hchar d

/-- Digits are alphanumeric characters. -/
theorem isAlphanumeric_numeric (ds : List (Fin 10)) :
    isAlphanumeric (Content.numeric ds).text := by
  have hdigit : ∀ d : Fin 10,
      (ALPHANUMERIC_CHARSET.idxOf? (UInt8.ofNat (48 + d.val))).isSome = true := by decide
  refine List.all_eq_true.mpr fun c hc => ?_
  obtain ⟨d, -, rfl⟩ := List.mem_map.mp hc
  exact hdigit d

theorem length_text_numeric (ds : List (Fin 10)) : (Content.numeric ds).text.length = ds.length :=
  List.length_map _

theorem length_text_alphanumeric (ds : List (Fin 45)) :
    (Content.alphanumeric ds).text.length = ds.length := List.length_map _

theorem makeSegments_cases {text : Bytes} (hlen : text.length ≤ INT_MAX) :
    (text = [] ∧ makeSegments text = .ok []) ∨
    (∃ ds, text ≠ [] ∧ (Content.numeric ds).text = text ∧
      makeSegments text = .ok [(Content.numeric ds).segment]) ∨
    (∃ ds, text ≠ [] ∧ isNumeric text = false ∧ (Content.alphanumeric ds).text = text ∧
      makeSegments text = .ok [(Content.alphanumeric ds).segment]) ∨
    isNumeric text = false ∧ isAlphanumeric text = false ∧
      makeSegments text = .ok [(Content.bytes text).segment] := by
  rw [makeSegments]
  split
  next hempty => exact .inl ⟨hempty, rfl⟩
  next hne =>
    split
    next hnum =>
      obtain ⟨ds, rfl⟩ := exists_numeric hnum
      rw [length_text_numeric] at hlen
      exact .inr (.inl ⟨ds, hne, rfl, by rw [makeNumeric_eq, if_pos hlen]; rfl⟩)
    next hnum =>
      rw [Bool.not_eq_true] at hnum
      split
      next halnum =>
        obtain ⟨ds, rfl⟩ := exists_alphanumeric halnum
        rw [length_text_alphanumeric] at hlen
        refine .inr (.inr (.inl ⟨ds, hne, hnum, rfl, ?_⟩))
        rw [makeAlphanumeric_eq, if_pos hlen]
        rfl
      next halnum =>
        rw [Bool.not_eq_true] at halnum
        exact .inr (.inr (.inr ⟨hnum, halnum, by rw [makeBytes_eq hlen]; rfl⟩))

/-- What stops the builder for a text of more characters than an `int` can say: it counts digits and
alphanumeric characters one by one, and takes the number of bytes from their vector. -/
def overlong (text : Bytes) : QrError :=
  if isAlphanumeric text then .overflow else .lengthError "Data too long"

theorem makeSegments_overlong {text : Bytes} (hlen : INT_MAX < text.length) :
    makeSegments text = .error (overlong text) := by
  have hne : text ≠ [] := by
    rintro rfl
    exact absurd hlen (Nat.not_lt_zero _)
  rw [makeSegments, if_neg hne]
  split
  next hnum =>
    obtain ⟨ds, rfl⟩ := exists_numeric hnum
    rw [overlong, if_pos (isAlphanumeric_numeric ds), makeNumeric_eq]
    rw [length_text_numeric] at hlen
    rw [if_neg (Nat.not_le.mpr hlen)]
    rfl
  next =>
    split
    next halnum =>
      rw [overlong, if_pos halnum]
      obtain ⟨ds, rfl⟩ := exists_alphanumeric halnum
      rw [length_text_alphanumeric] at hlen
      rw [makeAlphanumeric_eq, if_neg (Nat.not_le.mpr hlen)]
      rfl
    next halnum =>
      rw [overlong, if_neg halnum, makeBytes, if_pos hlen]
      rfl

/-- The number of bits of a segment with its header. -/
def totalBits (version : Nat) (seg : QrSegment) : Nat :=
  4 + seg.mode.numCharCountBits version + seg.data.length

theorem totalBits_numeric (version : Nat) (ds : List (Fin 10)) :
    totalBits version (Content.numeric ds).segment = 4 + Mode.NUMERIC.numCharCountBits version +
      (ds.length / 3 * 10 + if ds.length % 3 = 0 then 0 else ds.length % 3 * 3 + 1) := by
  have hlen := Positional.length_packed (b := 10) (g := 3) (w := Content.digitBits) (by decide)
    (ds.map Fin.val)
  rw [List.length_map] at hlen
  exact congrArg (4 + Mode.NUMERIC.numCharCountBits version + ·) hlen

theorem totalBits_alphanumeric (version : Nat) (ds : List (Fin 45)) :
    totalBits version (Content.alphanumeric ds).segment =
      4 + Mode.ALPHANUMERIC.numCharCountBits version +
        (ds.length / 2 * 11 + if ds.length % 2 = 0 then 0 else ds.length % 2 * 5 + 1) := by
  have hlen := Positional.length_packed (b := 45) (g := 2) (w := Content.charBits) (by decide)
    (ds.map Fin.val)
  rw [List.length_map] at hlen
  exact congrArg (4 + Mode.ALPHANUMERIC.numCharCountBits version + ·) hlen

theorem totalBits_bytes (version : Nat) (bs : Bytes) :
    totalBits version (Content.bytes bs).segment =
      4 + Mode.BYTE.numCharCountBits version + bs.length * 8 := by
  have hlen := Positional.length_packed (b := 256) (g := 1) (w := fun _ => 8) (by decide)
    (bs.map UInt8.toNat)
  rw [List.length_map, Nat.div_one, Nat.mod_one, if_pos rfl, Nat.add_zero] at hlen
  exact congrArg (4 + Mode.BYTE.numCharCountBits version + ·) hlen

/-- The fields for the count are longer for a mode of more bits to a character, or nearly so. -/
theorem numCharCountBits_le (version : Nat) :
    Mode.NUMERIC.numCharCountBits version ≤ Mode.ALPHANUMERIC.numCharCountBits version + 1 ∧
    Mode.NUMERIC.numCharCountBits version ≤ Mode.BYTE.numCharCountBits version + 2 ∧
    Mode.ALPHANUMERIC.numCharCountBits version ≤ Mode.BYTE.numCharCountBits version + 1 := by
  simp only [Mode.numCharCountBits, Mode.numBitsCharCount]
  match (version + 7) / 17 with
  | 0 | 1 | 2 => decide
  | k + 3 => exact ⟨Nat.zero_le _, Nat.zero_le _, Nat.zero_le _⟩

/-- Digits are as short as any content of the same text. -/
theorem totalBits_numeric_le {c : Content} {ds : List (Fin 10)}
    (hne : (Content.numeric ds).text ≠ [])
    (hc : c.text = (Content.numeric ds).text) (version : Nat) :
    totalBits version (Content.numeric ds).segment ≤ totalBits version c.segment := by
  obtain ⟨hna, hnb, -⟩ := numCharCountBits_le version
  have hlen := congrArg List.length hc
  have hpos := List.length_pos_iff.mpr hne
  rw [length_text_numeric] at hlen hpos
  rw [totalBits_numeric]
  cases c with
  | numeric ds' =>
    rw [length_text_numeric] at hlen
    rw [totalBits_numeric, hlen]
  | alphanumeric ds' =>
    rw [length_text_alphanumeric] at hlen
    rw [totalBits_alphanumeric, hlen]
    split <;> split <;> omega
  | bytes bs =>
    have hlen' : bs.length = ds.length := hlen
    rw [totalBits_bytes, hlen']
    split <;> omega
  | eci => exact (hne hc.symm).elim

theorem totalBits_alphanumeric_le {c : Content} {ds : List (Fin 45)}
    (hne : (Content.alphanumeric ds).text ≠ [])
    (hnum : isNumeric (Content.alphanumeric ds).text = false)
    (hc : c.text = (Content.alphanumeric ds).text) (version : Nat) :
    totalBits version (Content.alphanumeric ds).segment ≤ totalBits version c.segment := by
  obtain ⟨-, -, hab⟩ := numCharCountBits_le version
  have hlen := congrArg List.length hc
  have hpos := List.length_pos_iff.mpr hne
  rw [length_text_alphanumeric] at hlen hpos
  rw [totalBits_alphanumeric]
  cases c with
  | numeric ds' =>
    rw [← hc, isNumeric_text] at hnum
    cases hnum
  | alphanumeric ds' =>
    rw [length_text_alphanumeric] at hlen
    rw [totalBits_alphanumeric, hlen]
  | bytes bs =>
    have hlen' : bs.length = ds.length := hlen
    rw [totalBits_bytes, hlen']
    split <;> omega
  | eci => exact (hne hc.symm).elim

theorem makeSegments_least {text : Bytes} (hlen : text.length ≤ INT_MAX) :
    ∃ cs : List Content, makeSegments text = .ok (cs.map Content.segment) ∧
      cs.flatMap Content.text = text ∧ (∀ c ∈ cs, c.mode ≠ .ECI) ∧
      ∀ c : Content, c.text = text → ∀ version,
        ((cs.map Content.segment).map (totalBits version)).sum ≤ totalBits version c.segment := by
  rcases makeSegments_cases hlen with ⟨rfl, h⟩ | ⟨ds, hne, rfl, h⟩ | ⟨ds, hne, hnum, rfl, h⟩ |
    ⟨hnum, halnum, h⟩
  · exact ⟨[], h, rfl, List.forall_mem_nil _, fun _ _ _ => Nat.zero_le _⟩
  · refine ⟨[.numeric ds], h, List.flatMap_singleton .., ?_, fun c hc version => ?_⟩
    · simp [Content.mode]
    · simpa using totalBits_numeric_le hne hc version
  · refine ⟨[.alphanumeric ds], h, List.flatMap_singleton .., ?_, fun c hc version => ?_⟩
    · simp [Content.mode]
    · simpa using totalBits_alphanumeric_le hne hnum hc version
  · refine ⟨[.bytes text], h, List.flatMap_singleton .., ?_, fun c hc version => ?_⟩
    · simp [Content.mode]
    cases c with
    | numeric ds =>
      rw [← hc, isNumeric_text] at hnum
      cases hnum
    | alphanumeric ds =>
      rw [← hc, isAlphanumeric_text] at halnum
      cases halnum
    | bytes bs => simp [show bs = text from hc]
    | eci =>
      rw [← hc] at hnum
      cases hnum

/-- **The segments of a text** have it as their content, and at no version is any single content of
it shorter. There are none only for a text of more characters than an `int` can count. -/
theorem makeSegments_shortest (text : Bytes) :
    match makeSegments text with
    | .ok segs => text.length ≤ INT_MAX ∧
      ∃ cs : List Content, segs = cs.map Content.segment ∧ cs.flatMap Content.text = text ∧
        ∀ c : Content, c.text = text → ∀ version,
          (segs.map (totalBits version)).sum ≤ totalBits version c.segment
    | .error e => INT_MAX < text.length ∧ e = overlong text := by
  rcases Nat.lt_or_ge INT_MAX text.length with hlen | hlen
  · rw [makeSegments_overlong hlen]
    exact ⟨hlen, rfl⟩
  · obtain ⟨cs, h, htext, -, hleast⟩ := makeSegments_least hlen
    rw [h]
    exact ⟨hlen, cs, rfl, htext, hleast⟩

end QrSegment
end Chatcurse

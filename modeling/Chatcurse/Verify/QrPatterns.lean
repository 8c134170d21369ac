import Chatcurse.QrDraw
import Chatcurse.Verify.QrBlocks

/-!
# Drawing function patterns

Each pattern is a list of calls that set the modules at some places to some colours (`Draws`). The
calls stay inside the symbol, so that no index is out of range and the canvas is painted with all of
them (`drawFunctionPatterns_eq`).
-/

namespace Chatcurse
namespace Canvas
open QrCode (forUp Version)

theorem mem_forUp {a b i : Int} : i ∈ forUp a b 1 ↔ a ≤ i ∧ i < b := by
  rw [forUp, List.mem_map]
  constructor
  · rintro ⟨k, hk, rfl⟩
    have hlt := List.mem_range.mp hk
    omega
  · intro h
    exact ⟨(i - a).toNat, List.mem_range.mpr (by omega), by omega⟩

/-! ## Painting -/

/-- The colour of a module after the calls. -/
def written (calls : List (Int × Int × Bool)) (x y : Nat) (b : Bool) : Bool :=
  calls.foldl (fun b (x', y', b') => if x' = x ∧ y' = y then b' else b) b

def touched (calls : List (Int × Int × Bool)) (x y : Nat) : Bool :=
  calls.any fun (x', y', _) => x' = x ∧ y' = y

def paint (c : Canvas) (calls : List (Int × Int × Bool)) : Canvas :=
  { c with
    modules := fun y x => written calls x y (c.modules y x)
    isFunction := fun y x => c.isFunction y x || touched calls x y }

theorem isFunction_paint (c : Canvas) (calls : List (Int × Int × Bool)) (x y : Nat) :
    (c.paint calls).isFunction y x = (c.isFunction y x || touched calls x y) := rfl

theorem modules_paint (c : Canvas) (calls : List (Int × Int × Bool)) (x y : Nat) :
    (c.paint calls).modules y x = written calls x y (c.modules y x) := rfl

/-- The calls set modules inside the symbol only. -/
def Inside (size : Nat) (calls : List (Int × Int × Bool)) : Prop :=
  ∀ x y b, (x, y, b) ∈ calls → (0 ≤ x ∧ x < size) ∧ 0 ≤ y ∧ y < size

theorem paint_nil (c : Canvas) : c.paint [] = c := by
  simp [paint, written, touched]

theorem paint_append (c : Canvas) (calls calls' : List (Int × Int × Bool)) :
    (c.paint calls).paint calls' = c.paint (calls ++ calls') := by
  simp only [paint, written, touched, List.foldl_append, List.any_append, Bool.or_assoc]

theorem setFunctionModule_eq {c : Canvas} {x y : Int} (h : (0 ≤ x ∧ x < c.size) ∧ 0 ≤ y ∧ y < c.size)
    (b : Bool) : c.setFunctionModule x y b = .ok (c.paint [(x, y, b)]) := by
  have hplace : ∀ y' x' : Nat, (y' = y.toNat ∧ x' = x.toNat) = (x = x' ∧ y = y') := by
    intro y' x'
    rw [eq_iff_iff]
    omega
  rw [setFunctionModule, if_pos h, paint]
  congr 2
  · funext y' x'
    simp only [setAt, written, List.foldl_cons, List.foldl_nil, hplace]
  · funext y' x'
    simp only [setAt, touched, List.any_cons, List.any_nil, Bool.or_false, hplace]
    by_cases hxy : x = x' ∧ y = y'
    · simp [hxy]
    · simp [hxy]

theorem setFunctionModules_eq {c : Canvas} {calls : List (Int × Int × Bool)}
    (h : Inside c.size calls) : c.setFunctionModules calls = .ok (c.paint calls) := by
  induction calls generalizing c with
  | nil =>
    rw [paint_nil]
    rfl
  | cons call calls ih =>
    obtain ⟨x, y, b⟩ := call
    have hrest : Inside (c.paint [(x, y, b)]).size calls :=
      fun x' y' b' hmem => h x' y' b' (List.mem_cons_of_mem _ hmem)
    have hcall := setFunctionModule_eq (h x y b List.mem_cons_self) b
    have htail := ih hrest
    rw [paint_append] at htail
    rw [setFunctionModules, List.foldlM_cons]
    simp only [hcall]
    exact htail

theorem touched_iff {calls : List (Int × Int × Bool)} {x y : Nat} :
    touched calls x y = true ↔ ∃ b, ((x : Int), (y : Int), b) ∈ calls := by
  rw [touched, List.any_eq_true]
  constructor
  · rintro ⟨⟨x', y', b⟩, hmem, h⟩
    obtain ⟨rfl, rfl⟩ := of_decide_eq_true h
    exact ⟨b, hmem⟩
  · rintro ⟨b, hmem⟩
    exact ⟨_, hmem, decide_eq_true ⟨rfl, rfl⟩⟩

theorem written_of_untouched {calls : List (Int × Int × Bool)} {x y : Nat}
    (h : touched calls x y = false) (b : Bool) : written calls x y b = b := by
  induction calls generalizing b with
  | nil => rfl
  | cons call calls ih =>
    obtain ⟨x', y', b'⟩ := call
    rw [touched, List.any_cons, Bool.or_eq_false_iff] at h
    have hne : ¬(x' = x ∧ y' = y) := of_decide_eq_false h.1
    simp only [written, List.foldl_cons, if_neg hne]
    exact ih h.2 b

/-- The calls set the modules with `P`, to the colours of `f`. -/
def Draws (calls : List (Int × Int × Bool)) (P : Int → Int → Prop) (f : Int → Int → Bool) : Prop :=
  ∀ x y b, (x, y, b) ∈ calls ↔ P x y ∧ b = f x y

namespace Draws

variable {calls : List (Int × Int × Bool)} {P : Int → Int → Prop} {f : Int → Int → Bool} {x y : Nat}

theorem touched_iff (h : Draws calls P f) : touched calls x y = true ↔ P x y := by
  rw [Canvas.touched_iff]
  exact ⟨fun ⟨b, hb⟩ => ((h x y b).mp hb).1, fun hp => ⟨f x y, (h x y _).mpr ⟨hp, rfl⟩⟩⟩

theorem untouched (h : Draws calls P f) (hp : ¬P x y) : touched calls x y = false :=
  Bool.eq_false_iff.mpr (mt h.touched_iff.mp hp)

theorem written_out (h : Draws calls P f) (hp : ¬P x y) (b : Bool) : written calls x y b = b :=
  written_of_untouched (h.untouched hp) b

theorem written_in (h : Draws calls P f) (hp : P x y) (b : Bool) :
    written calls x y b = f x y := by
  have hcolour : ∀ call ∈ calls, call.1 = x ∧ call.2.1 = y → call.2.2 = f x y := by
    rintro ⟨x', y', b'⟩ hmem ⟨rfl, rfl⟩
    exact ((h x y b').mp hmem).2
  have hmem := (h x y (f x y)).mpr ⟨hp, rfl⟩
  clear h hp
  induction calls using List.reverseRecOn with
  | nil => exact absurd hmem List.not_mem_nil
  | append_singleton calls call ih =>
    obtain ⟨x', y', b'⟩ := call
    rw [written, List.foldl_append]
    by_cases hxy : x' = x ∧ y' = y
    · have hlast := hcolour _ (List.mem_append_right _ List.mem_cons_self) hxy
      simpa [hxy] using hlast
    · simp only [List.foldl_cons, List.foldl_nil, if_neg hxy]
      refine ih (fun call hcall => hcolour call (List.mem_append_left _ hcall)) ?_
      rcases List.mem_append.mp hmem with hmem | hmem
      · exact hmem
      · cases List.mem_singleton.mp hmem
        exact (hxy ⟨rfl, rfl⟩).elim

end Draws

/-! ## The calls of each pattern -/

theorem draws_timingPatterns (size : Nat) : Draws (timingPatterns size)
    (fun x y => (x = 6 ∧ 0 ≤ y ∧ y < size) ∨ y = 6 ∧ 0 ≤ x ∧ x < size)
    (fun x y => if x = 6 then y % 2 = 0 else x % 2 = 0) := by
  intro x y b
  rw [timingPatterns, List.mem_flatMap]
  constructor
  · rintro ⟨i, hi, h⟩
    rw [List.mem_pair, Prod.mk.injEq, Prod.mk.injEq, Prod.mk.injEq, Prod.mk.injEq] at h
    rcases h with ⟨rfl, rfl, rfl⟩ | ⟨rfl, rfl, rfl⟩
    · exact ⟨.inl ⟨rfl, mem_forUp.mp hi⟩, by simp⟩
    · refine ⟨.inr ⟨rfl, mem_forUp.mp hi⟩, ?_⟩
      by_cases hx : x = 6 <;> simp [hx]
  · rintro ⟨⟨rfl, hy⟩ | ⟨rfl, hx⟩, rfl⟩
    · exact ⟨y, mem_forUp.mpr hy, by simp⟩
    · refine ⟨x, mem_forUp.mpr hx, ?_⟩
      by_cases hx : x = 6 <;> simp [hx]

/-- The distance of `drawFinderPattern` and `drawAlignmentPattern`. -/
def dist (dx dy : Int) : Nat := max dx.natAbs dy.natAbs

theorem draws_finderPattern (size : Nat) (a b : Int) : Draws (finderPattern size a b)
    (fun x y => dist (x - a) (y - b) ≤ 4 ∧ (0 ≤ x ∧ x < size) ∧ 0 ≤ y ∧ y < size)
    (fun x y => dist (x - a) (y - b) ≠ 2 && dist (x - a) (y - b) ≠ 4) := by
  intro x y d
  simp only [finderPattern, List.mem_flatMap, mem_forUp]
  constructor
  · rintro ⟨dy, hdy, dx, hdx, h⟩
    split at h
    next hin =>
      rw [List.mem_singleton, Prod.mk.injEq, Prod.mk.injEq] at h
      obtain ⟨rfl, rfl, rfl⟩ := h
      have hx : a + dx - a = dx := by omega
      have hy : b + dy - b = dy := by omega
      rw [hx, hy]
      refine ⟨⟨?_, hin⟩, rfl⟩
      rw [dist]
      omega
    next => exact absurd h List.not_mem_nil
  · rintro ⟨⟨hdist, hin⟩, rfl⟩
    rw [dist] at hdist
    have hx : a + (x - a) = x := by omega
    have hy : b + (y - b) = y := by omega
    refine ⟨y - b, by omega, x - a, by omega, ?_⟩
    rw [hx, hy, if_pos hin]
    exact List.mem_cons_self

theorem draws_alignmentPattern (a b : Int) : Draws (alignmentPattern a b)
    (fun x y => dist (x - a) (y - b) ≤ 2) (fun x y => dist (x - a) (y - b) ≠ 1) := by
  intro x y d
  simp only [alignmentPattern, List.mem_flatMap, List.mem_map, mem_forUp]
  constructor
  · rintro ⟨dy, hdy, dx, hdx, h⟩
    rw [Prod.mk.injEq, Prod.mk.injEq] at h
    obtain ⟨rfl, rfl, rfl⟩ := h
    have hx : a + dx - a = dx := by omega
    have hy : b + dy - b = dy := by omega
    rw [hx, hy]
    refine ⟨?_, rfl⟩
    rw [dist]
    omega
  · rintro ⟨hdist, rfl⟩
    rw [dist] at hdist
    have hx : a + (x - a) = x := by omega
    have hy : b + (y - b) = y := by omega
    refine ⟨y - b, by omega, x - a, by omega, ?_⟩
    rw [hx, hy]
    rfl

/-- The places of the format: two copies around the corners and the module that is always dark. -/
def InFormat (size x y : Int) : Prop :=
  (x = 8 ∧ (0 ≤ y ∧ y ≤ 8 ∧ y ≠ 6 ∨ size - 8 ≤ y ∧ y < size)) ∨
    y = 8 ∧ (0 ≤ x ∧ x ≤ 7 ∧ x ≠ 6 ∨ size - 8 ≤ x ∧ x < size)

/-- The bit of the format at a place. -/
def formatIndex (size x y : Int) : Int :=
  if y = 8 then if x ≤ 5 then 14 - x else if x = 7 then 8 else if x = 8 then 7 else size - 1 - x
  else if y ≤ 5 then y else if y = 7 then 6 else y - size + 15

def formatColour (size : Int) (bits : Nat) (x y : Int) : Bool :=
  (x = 8 ∧ y = size - 8) || getBit bits (formatIndex size x y).toNat

theorem formatColour_eq {size x y i : Int} (hi : formatIndex size x y = i)
    (hdark : ¬(x = 8 ∧ y = size - 8)) (bits : Nat) :
    formatColour size bits x y = getBit bits i.toNat := by
  simp [formatColour, hi, hdark]

theorem draws_formatModules (size : Int) (hsize : 21 ≤ size) (bits : Nat) :
    Draws (formatModules size bits) (InFormat size) (formatColour size bits) := by
  intro x y b
  simp only [formatModules, List.mem_append, List.mem_map, mem_forUp, List.mem_cons,
    List.not_mem_nil, or_false, Prod.mk.injEq]
  constructor
  · rintro (((((⟨i, hi, rfl, rfl, rfl⟩ | ⟨rfl, rfl, rfl⟩ | ⟨rfl, rfl, rfl⟩ | ⟨rfl, rfl, rfl⟩) |
      ⟨i, hi, rfl, rfl, rfl⟩) | ⟨i, hi, rfl, rfl, rfl⟩) | ⟨i, hi, rfl, rfl, rfl⟩) |
      ⟨rfl, rfl, rfl⟩)
    · have hindex : formatIndex size 8 i = i := by
        rw [formatIndex, if_neg (by omega), if_pos (by omega)]
      exact ⟨.inl (by omega), (formatColour_eq hindex (by omega) bits).symm⟩
    · have hindex : formatIndex size 8 7 = 6 := rfl
      exact ⟨.inl (by omega), (formatColour_eq hindex (by omega) bits).symm⟩
    · have hindex : formatIndex size 8 8 = 7 := rfl
      exact ⟨.inl (by omega), (formatColour_eq hindex (by omega) bits).symm⟩
    · have hindex : formatIndex size 7 8 = 8 := rfl
      exact ⟨.inr (by omega), (formatColour_eq hindex (by omega) bits).symm⟩
    · have hindex : formatIndex size (14 - i) 8 = i := by
        rw [formatIndex, if_pos rfl, if_pos (by omega)]
        omega
      exact ⟨.inr (by omega), (formatColour_eq hindex (by omega) bits).symm⟩
    · have hindex : formatIndex size (size - 1 - i) 8 = i := by
        rw [formatIndex, if_pos rfl, if_neg (by omega), if_neg (by omega), if_neg (by omega)]
        omega
      exact ⟨.inr (by omega), (formatColour_eq hindex (by omega) bits).symm⟩
    · have hindex : formatIndex size 8 (size - 15 + i) = i := by
        rw [formatIndex, if_neg (by omega), if_neg (by omega), if_neg (by omega)]
        omega
      exact ⟨.inl (by omega), (formatColour_eq hindex (by omega) bits).symm⟩
    · exact ⟨.inl (by omega), by simp [formatColour]⟩
  · rintro ⟨hplace, rfl⟩
    by_cases hdark : x = 8 ∧ y = size - 8
    · exact .inr ⟨hdark.1, hdark.2, by simp [formatColour, hdark]⟩
    · have hindex : ∀ i, formatIndex size x y = i →
          formatColour size bits x y = getBit bits i.toNat :=
        fun i hi => formatColour_eq hi hdark bits
      refine .inl ?_
      rcases hplace with ⟨rfl, hy⟩ | ⟨rfl, hx⟩
      · rcases le_or_gt y 5 with h5 | h5
        · refine .inl (.inl (.inl (.inl ⟨y, by omega, rfl, rfl, (hindex y ?_).symm⟩)))
          rw [formatIndex, if_neg (by omega), if_pos h5]
        · rcases eq_or_ne y 7 with rfl | h7
          · exact .inl (.inl (.inl (.inr (.inl ⟨rfl, rfl, hindex 6 rfl⟩))))
          · rcases eq_or_ne y 8 with rfl | h8
            · exact .inl (.inl (.inl (.inr (.inr (.inl ⟨rfl, rfl, hindex 7 rfl⟩)))))
            · refine .inr ⟨y - size + 15, by omega, rfl, by omega, (hindex _ ?_).symm⟩
              rw [formatIndex, if_neg h8, if_neg (by omega), if_neg h7]
      · rcases le_or_gt x 5 with h5 | h5
        · refine .inl (.inl (.inr ⟨14 - x, by omega, by omega, rfl, (hindex _ ?_).symm⟩))
          rw [formatIndex, if_pos rfl, if_pos h5]
        · rcases eq_or_ne x 7 with rfl | h7
          · exact .inl (.inl (.inl (.inr (.inr (.inr ⟨rfl, rfl, hindex 8 rfl⟩)))))
          · refine .inl (.inr ⟨size - 1 - x, by omega, by omega, rfl, (hindex _ ?_).symm⟩)
            rw [formatIndex, if_pos rfl, if_neg (by omega), if_neg h7, if_neg (by omega)]

/-- The places of the version: two blocks beside the finder patterns. -/
def InVersion (size x y : Int) : Prop :=
  ((size - 11 ≤ x ∧ x < size - 8) ∧ 0 ≤ y ∧ y < 6) ∨
    (size - 11 ≤ y ∧ y < size - 8) ∧ 0 ≤ x ∧ x < 6

/-- The bit of the version at a place. -/
def versionIndex (size x y : Int) : Int :=
  if y < 6 then y * 3 + (x - (size - 11)) else x * 3 + (y - (size - 11))

theorem draws_versionModules {size : Int} (hsize : 21 ≤ size) (bits : Nat) :
    Draws (versionModules size bits) (InVersion size)
      (fun x y => getBit bits (versionIndex size x y).toNat) := by
  intro x y b
  simp only [versionModules, List.mem_flatMap, mem_forUp, List.mem_cons, List.not_mem_nil,
    or_false, Prod.mk.injEq]
  constructor
  · rintro ⟨i, hi, ⟨rfl, rfl, rfl⟩ | ⟨rfl, rfl, rfl⟩⟩
    · have hindex : versionIndex size (size - 11 + i % 3) (i / 3) = i := by
        rw [versionIndex, if_pos (by omega)]
        omega
      exact ⟨.inl (by omega), by rw [hindex]⟩
    · have hindex : versionIndex size (i / 3) (size - 11 + i % 3) = i := by
        rw [versionIndex, if_neg (by omega)]
        omega
      exact ⟨.inr (by omega), by rw [hindex]⟩
  · rintro ⟨⟨hx, hy⟩ | ⟨hy, hx⟩, rfl⟩
    · have hindex : versionIndex size x y = y * 3 + (x - (size - 11)) := if_pos hy.2
      exact ⟨_, by omega, .inl ⟨by omega, by omega, congrArg _ (congrArg _ hindex)⟩⟩
    · have hindex : versionIndex size x y = x * 3 + (y - (size - 11)) := if_neg (by omega)
      exact ⟨_, by omega, .inr ⟨by omega, by omega, congrArg _ (congrArg _ hindex)⟩⟩

/-! ## Alignment patterns -/

/-- The positions are inside the timing lines and far enough from each other. -/
theorem alignmentPatternPositions_spec (v : Version) :
    ∀ a ∈ alignmentPatternPositions v,
      (6 ≤ a ∧ a ≤ ((v * 4 + 17 : Nat) : Int) - 7 ∧ a % 2 = 0 ∧ (a = 6 ∨ 11 ≤ a)) ∧
        ∀ b ∈ alignmentPatternPositions v, a = b ∨ a + 5 ≤ b ∨ b + 5 ≤ a := by
  have hall : ∀ version ≤ 40, 1 ≤ version → ∀ a ∈ alignmentPatternPositions version,
      (6 ≤ a ∧ a ≤ ((version * 4 + 17 : Nat) : Int) - 7 ∧ a % 2 = 0 ∧ (a = 6 ∨ 11 ≤ a)) ∧
        ∀ b ∈ alignmentPatternPositions version, a = b ∨ a + 5 ≤ b ∨ b + 5 ≤ a := by
    decide +kernel
  exact hall v v.2.2 v.2.1

theorem mem_positions {positions : List Int} (h : p ∈ alignmentCentres positions) :
    p.1 ∈ positions ∧ p.2 ∈ positions := by
  simp only [alignmentCentres, List.mem_flatMap] at h
  obtain ⟨⟨x, i⟩, hx, ⟨y, j⟩, hy, h⟩ := h
  split at h
  next =>
    rw [List.mem_singleton] at h
    subst h
    exact ⟨List.fst_mem_of_mem_zipIdx hx, List.fst_mem_of_mem_zipIdx hy⟩
  next => exact absurd h List.not_mem_nil

def centres (version : Nat) : List (Int × Int) :=
  alignmentCentres (alignmentPatternPositions version)

def alignmentPatterns (version : Nat) : List (Int × Int × Bool) :=
  (centres version).flatMap fun (x, y) => alignmentPattern x y

theorem draws_alignmentPatterns (v : Version) : Draws (alignmentPatterns v)
    (fun x y => ∃ p ∈ centres v, dist (x - p.1) (y - p.2) ≤ 2)
    (fun x y => ∀ p ∈ centres v, dist (x - p.1) (y - p.2) ≠ 1) := by
  have hunique : ∀ x y : Int, ∀ p ∈ centres v, dist (x - p.1) (y - p.2) ≤ 2 →
      ∀ q ∈ centres v, dist (x - q.1) (y - q.2) = 1 → q = p := by
    intro x y p hp hdp q hq hdq
    obtain ⟨hp1, hp2⟩ := mem_positions hp
    obtain ⟨hq1, hq2⟩ := mem_positions hq
    have hx := (alignmentPatternPositions_spec v _ hp1).2 _ hq1
    have hy := (alignmentPatternPositions_spec v _ hp2).2 _ hq2
    rw [dist] at hdp hdq
    exact Prod.ext (by omega) (by omega)
  intro x y b
  rw [alignmentPatterns, List.mem_flatMap]
  have hmem : ∀ p : Int × Int, ((x, y, b) ∈ match p with | (x, y) => alignmentPattern x y) ↔ _ :=
    fun p => draws_alignmentPattern p.1 p.2 x y b
  simp only [hmem]
  constructor
  · rintro ⟨p, hp, hdist, rfl⟩
    refine ⟨⟨p, hp, hdist⟩, ?_⟩
    rw [decide_eq_decide]
    constructor
    · intro hne q hq hone
      obtain rfl := hunique x y p hp hdist q hq hone
      exact hne hone
    · exact fun h => h p hp
  · rintro ⟨⟨p, hp, hdist⟩, rfl⟩
    refine ⟨p, hp, hdist, ?_⟩
    rw [decide_eq_decide]
    constructor
    · exact fun h => h p hp
    · intro hne q hq hone
      obtain rfl := hunique x y p hp hdist q hq hone
      exact hne hone

theorem setFunctionModules_append (c : Canvas) (calls calls' : List (Int × Int × Bool)) :
    c.setFunctionModules (calls ++ calls') =
      (c.setFunctionModules calls).bind (·.setFunctionModules calls') := by
  rw [setFunctionModules, List.foldlM_append]
  rfl

theorem foldlM_drawAlignmentPattern (ps : List (Int × Int)) (c : Canvas) :
    ps.foldlM (fun c (x, y) => c.drawAlignmentPattern x y) c =
      c.setFunctionModules (ps.flatMap fun (x, y) => alignmentPattern x y) := by
  induction ps generalizing c with
  | nil => rfl
  | cons p ps ih =>
    rw [List.foldlM_cons, List.flatMap_cons, setFunctionModules_append]
    simp only [ih]
    rfl

/-! ## All patterns -/

/-- The calls of `drawVersion`. -/
def versionPatterns (version : Nat) : List (Int × Int × Bool) :=
  if version < 7 then [] else versionModules ((version * 4 + 17 : Nat) : Int) (versionBits version)

/-- The calls of `drawFunctionPatterns`. -/
def functionPatterns (version : Nat) (ecl : Ecc) : List (Int × Int × Bool) :=
  let size := version * 4 + 17
  timingPatterns size ++ finderPattern size 3 3 ++ finderPattern size (size - 4) 3 ++
    finderPattern size 3 (size - 4) ++ alignmentPatterns version ++
    formatModules size (formatBits ecl 0) ++ versionPatterns version

theorem inside_finderPattern (size : Nat) (a b : Int) : Inside size (finderPattern size a b) :=
  fun x y d h => ((draws_finderPattern size a b x y d).mp h).1.2

theorem inside_formatModules {size : Nat} (h : 21 ≤ size) (bits : Nat) :
    Inside size (formatModules size bits) := by
  intro x y b hmem
  obtain ⟨hplace, -⟩ := (draws_formatModules _ (by omega) bits x y b).mp hmem
  rw [InFormat] at hplace
  omega

theorem inside_alignmentPatterns (v : Version) :
    Inside (v * 4 + 17) (alignmentPatterns v) := by
  intro x y b hmem
  obtain ⟨⟨p, hp, hdist⟩, -⟩ := (draws_alignmentPatterns v x y b).mp hmem
  obtain ⟨hp1, hp2⟩ := mem_positions hp
  have hx := (alignmentPatternPositions_spec v _ hp1).1
  have hy := (alignmentPatternPositions_spec v _ hp2).1
  rw [dist] at hdist
  omega

theorem inside_versionPatterns (version : Nat) :
    Inside (version * 4 + 17) (versionPatterns version) := by
  intro x y b hmem
  rw [versionPatterns] at hmem
  split at hmem
  next => exact absurd hmem List.not_mem_nil
  next =>
    obtain ⟨hplace, -⟩ := (draws_versionModules (by omega) _ x y b).mp hmem
    rw [InVersion] at hplace
    omega

/-- A canvas that has been painted is painted on. -/
theorem setFunctionModules_paint {c : Canvas} {calls' : List (Int × Int × Bool)}
    (h : Inside c.size calls') (calls : List (Int × Int × Bool)) :
    (c.paint calls).setFunctionModules calls' = .ok (c.paint (calls ++ calls')) := by
  rw [← paint_append]
  exact setFunctionModules_eq h

theorem drawFunctionPatterns_eq {c : Canvas} {v : Version} (hv : c.version = v) :
    c.drawFunctionPatterns = .ok (c.paint (functionPatterns v c.errorCorrectionLevel)) := by
  have hsize : c.size = v * 4 + 17 := by rw [size, hv]
  have hpos : 1 ≤ v.val := v.2.1
  have htiming : c.setFunctionModules (timingPatterns c.size) =
      .ok (c.paint (timingPatterns c.size)) := by
    refine setFunctionModules_eq fun x y b hmem => ?_
    have hplace := ((draws_timingPatterns c.size x y b).mp hmem).1
    omega
  have hfinder : ∀ l a b, (c.paint l).drawFinderPattern a b =
      .ok (c.paint (l ++ finderPattern c.size a b)) :=
    fun l a b => setFunctionModules_paint (inside_finderPattern c.size a b) l
  have halignment : ∀ l, (alignmentCentres (c.paint l).getAlignmentPatternPositions).foldlM
      (fun c (x, y) => c.drawAlignmentPattern x y) (c.paint l) =
      .ok (c.paint (l ++ alignmentPatterns v)) := by
    intro l
    rw [foldlM_drawAlignmentPattern]
    have hcalls : (alignmentCentres (c.paint l).getAlignmentPatternPositions).flatMap
        (fun (x, y) => alignmentPattern x y) = alignmentPatterns v := by
      rw [alignmentPatterns, centres, ← hv]
      rfl
    rw [hcalls]
    exact setFunctionModules_paint (hsize ▸ inside_alignmentPatterns v) l
  have hformat : ∀ l, (c.paint l).drawFormatBits 0 =
      .ok (c.paint (l ++ formatModules c.size (formatBits c.errorCorrectionLevel 0))) :=
    fun l => setFunctionModules_paint (inside_formatModules (by omega) _) l
  have hversion : ∀ l, (c.paint l).drawVersion = .ok (c.paint (l ++ versionPatterns v)) := by
    intro l
    have hdraw : (c.paint l).drawVersion = if c.version < 7 then .ok (c.paint l) else
        (c.paint l).setFunctionModules (versionModules c.size (versionBits c.version)) := rfl
    have hinside := inside_versionPatterns v
    rw [hdraw, hv, hsize]
    rw [versionPatterns] at hinside ⊢
    split
    next => rw [List.append_nil]
    next hseven =>
      rw [if_neg hseven, ← hsize] at hinside
      rw [← hsize]
      exact setFunctionModules_paint hinside l
  have hpaint : ∀ l, (c.paint l).size = c.size := fun _ => rfl
  rw [drawFunctionPatterns, htiming]
  simp only [bind, Except.bind, hfinder, hpaint, halignment, hformat, hversion, functionPatterns,
    hsize]

end Canvas
end Chatcurse

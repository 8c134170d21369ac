import Chatcurse.Verify.QrPatterns
import Chatcurse.Theory.Tiling

/-!
# The function modules of a QR code

The function modules are the two timing lines, the three corners, the alignment squares and the
version blocks (`touched_functionPatterns`). The other modules are as many as `getNumRawDataModules`
says (`card_free`).
-/

namespace Chatcurse
namespace Canvas
open QrCode (Version)
open Tiling (Rect)

/-- The corners with a finder pattern, its separator and the format beside it. -/
def corners (size : Nat) : List Rect :=
  [⟨0, 9, 0, 9⟩, ⟨size - 8, size, 0, 9⟩, ⟨0, 9, size - 8, size⟩]

def alignmentSquares (version : Nat) : List Rect :=
  (centres version).map fun (x, y) => ⟨x.toNat - 2, x.toNat + 3, y.toNat - 2, y.toNat + 3⟩

def versionBlocks (version : Nat) : List Rect :=
  let size := version * 4 + 17
  if version < 7 then [] else [⟨size - 11, size - 8, 0, 6⟩, ⟨0, 6, size - 11, size - 8⟩]

def patternRects (version : Nat) : List Rect :=
  corners (version * 4 + 17) ++ alignmentSquares version ++ versionBlocks version

/-- The places of the function modules: the timing lines and some rectangles. -/
def IsPattern (version x y : Nat) : Prop :=
  x = 6 ∨ y = 6 ∨ ∃ r ∈ patternRects version, r.Mem x y

instance (version x y : Nat) : Decidable (IsPattern version x y) :=
  inferInstanceAs (Decidable (_ ∨ _))

theorem touched_append (calls calls' : List (Int × Int × Bool)) (x y : Nat) :
    touched (calls ++ calls') x y = (touched calls x y || touched calls' x y) := List.any_append

theorem exists_alignmentSquares (v : Version) (x y : Nat) :
    (∃ r ∈ alignmentSquares v, r.Mem x y) ↔
      ∃ p ∈ centres v, dist ((x : Int) - p.1) ((y : Int) - p.2) ≤ 2 := by
  simp only [alignmentSquares, List.mem_map, exists_exists_and_eq_and]
  refine exists_congr fun p => and_congr_right fun hp => ?_
  obtain ⟨hp1, hp2⟩ := mem_positions hp
  have hx := (alignmentPatternPositions_spec v _ hp1).1
  have hy := (alignmentPatternPositions_spec v _ hp2).1
  simp only [Rect.Mem, dist]
  omega

theorem touched_versionPatterns (v : Version) (x y : Nat) :
    touched (versionPatterns v) x y = true ↔ ∃ r ∈ versionBlocks v, r.Mem x y := by
  rw [versionPatterns, versionBlocks]
  split
  next => simp [touched]
  next hseven =>
    rw [(draws_versionModules (by omega) _).touched_iff, InVersion]
    simp only [List.mem_cons, List.not_mem_nil, or_false, exists_eq_or_imp, exists_eq_left, Rect.Mem]
    omega

theorem touched_functionPatterns (v : Version) (ecl : Ecc) {x y : Nat} (hx : x < v * 4 + 17)
    (hy : y < v * 4 + 17) : touched (functionPatterns v ecl) x y = true ↔ IsPattern v x y := by
  have hpos : 1 ≤ v.val := v.2.1
  have hcorners : (∃ r ∈ corners (v * 4 + 17), r.Mem x y) ↔ (x < 9 ∧ y < 9) ∨
      (v * 4 + 9 ≤ x ∧ y < 9) ∨ x < 9 ∧ v * 4 + 9 ≤ y := by
    simp only [corners, List.mem_cons, List.not_mem_nil, or_false, exists_eq_or_imp,
      exists_eq_left, Rect.Mem]
    omega
  have hsplit : (∃ r ∈ patternRects v, r.Mem x y) ↔ (∃ r ∈ corners (v * 4 + 17), r.Mem x y) ∨
      (∃ r ∈ alignmentSquares v, r.Mem x y) ∨ ∃ r ∈ versionBlocks v, r.Mem x y := by
    simp only [patternRects, List.mem_append, or_and_right, exists_or, or_assoc]
  rw [IsPattern, hsplit, hcorners, exists_alignmentSquares, ← touched_versionPatterns,
    functionPatterns]
  simp only [touched_append, Bool.or_eq_true, (draws_timingPatterns _).touched_iff,
    (draws_finderPattern _ _ _).touched_iff, (draws_alignmentPatterns v).touched_iff,
    (draws_formatModules ((v * 4 + 17 : Nat) : Int) (by omega) _).touched_iff]
  generalize (∃ p ∈ centres v, dist ((x : Int) - p.1) ((y : Int) - p.2) ≤ 2) = alignment
  generalize (touched (versionPatterns v) x y = true) = version
  by_cases ha : alignment
  · simp only [ha, or_true, true_or]
  · by_cases hv : version
    · simp only [hv, or_true]
    · simp only [ha, hv, or_false, dist, InFormat]
      omega

/-! ## The number of modules for data -/

/-- The function modules in rectangles that do not overlap. -/
def pieces (version : Nat) : List Rect :=
  let size := version * 4 + 17
  [⟨6, 7, 0, size⟩, ⟨0, 6, 6, 7⟩, ⟨7, size, 6, 7⟩] ++
    ((patternRects version).flatMap (Rect.cut 6 6)).filter (0 < ·.area)

theorem exists_pieces {version x y : Nat} (hx : x < version * 4 + 17) (hy : y < version * 4 + 17) :
    (∃ r ∈ pieces version, r.Mem x y) ↔ IsPattern version x y := by
  have hlines : (∃ r ∈ [(⟨6, 7, 0, version * 4 + 17⟩ : Rect), ⟨0, 6, 6, 7⟩,
      ⟨7, version * 4 + 17, 6, 7⟩], r.Mem x y) ↔ x = 6 ∨ y = 6 := by
    simp only [List.mem_cons, List.not_mem_nil, or_false, exists_eq_or_imp, exists_eq_left,
      Rect.Mem]
    omega
  have hcut : (∃ r ∈ ((patternRects version).flatMap (Rect.cut 6 6)).filter (0 < ·.area),
      r.Mem x y) ↔ (∃ r ∈ patternRects version, r.Mem x y) ∧ x ≠ 6 ∧ y ≠ 6 := by
    constructor
    · rintro ⟨s, hs, hmem⟩
      obtain ⟨r, hr, hs⟩ := List.mem_flatMap.mp (List.mem_filter.mp hs).1
      obtain ⟨hmem, hne⟩ := Rect.mem_cut.mp ⟨s, hs, hmem⟩
      exact ⟨⟨r, hr, hmem⟩, hne⟩
    · rintro ⟨⟨r, hr, hmem⟩, hne⟩
      obtain ⟨s, hs, hmem⟩ := Rect.mem_cut.mpr ⟨hmem, hne⟩
      refine ⟨s, List.mem_filter.mpr ⟨List.mem_flatMap.mpr ⟨r, hr, hs⟩, ?_⟩, hmem⟩
      have hcell : 0 < s.cells.card := Finset.card_pos.mpr ⟨(x, y), Rect.mem_cells.mpr hmem⟩
      rw [Rect.card_cells] at hcell
      exact decide_eq_true hcell
  rw [pieces, IsPattern]
  simp only [List.mem_append, or_and_right, exists_or, hlines, hcut]
  tauto

theorem pieces_spec (v : Version) : (pieces v).Pairwise Rect.Apart ∧
    (∀ r ∈ pieces v, r.x1 ≤ v * 4 + 17 ∧ r.y1 ≤ v * 4 + 17) ∧
    QrCode.getNumRawDataModules v + ((pieces v).map Rect.area).sum =
      (v * 4 + 17) * (v * 4 + 17) := by
  have hall : ∀ version ≤ 40, 1 ≤ version → (pieces version).Pairwise Rect.Apart ∧
      (∀ r ∈ pieces version, r.x1 ≤ version * 4 + 17 ∧ r.y1 ≤ version * 4 + 17) ∧
      QrCode.getNumRawDataModules version + ((pieces version).map Rect.area).sum =
        (version * 4 + 17) * (version * 4 + 17) := by
    decide +kernel
  exact hall v v.2.2 v.2.1

/-- The modules that no pattern is drawn on. -/
def freeCells (version : Nat) : Finset (Nat × Nat) :=
  (Tiling.square (version * 4 + 17)).filter fun p => ¬IsPattern version p.1 p.2

theorem card_free (v : Version) : (freeCells v).card = QrCode.getNumRawDataModules v := by
  obtain ⟨hapart, hin, hsum⟩ := pieces_spec v
  have hcard := Tiling.card_uncovered hapart hin
  have hfilter : (Tiling.square (v * 4 + 17)).filter (fun p => ¬∃ r ∈ pieces v, r.Mem p.1 p.2) =
      freeCells v := by
    refine Finset.filter_congr fun p hp => not_congr ?_
    rw [Tiling.square, Finset.mem_product, Finset.mem_range, Finset.mem_range] at hp
    exact exists_pieces hp.1 hp.2
  rw [hfilter] at hcard
  omega

/-- **The modules for data.** The function patterns can be drawn at each version, and leave as many
modules as `getNumRawDataModules` says. -/
theorem drawFunctionPatterns_free (v : Version) (ecl : Ecc) (mask : Int) :
    ∃ c, ({ version := v, errorCorrectionLevel := ecl, mask := mask } :
        Canvas).drawFunctionPatterns = .ok c ∧
      ((Tiling.square (v * 4 + 17)).filter fun p => c.isFunction p.2 p.1 = false).card =
        QrCode.getNumRawDataModules v := by
  refine ⟨_, drawFunctionPatterns_eq (v := v) rfl, ?_⟩
  rw [← card_free, freeCells]
  refine congrArg Finset.card (Finset.filter_congr fun p hp => ?_)
  obtain ⟨hx, hy⟩ := Finset.mem_product.mp hp
  rw [isFunction_paint, Bool.false_or, ← Bool.not_eq_true,
    touched_functionPatterns v ecl (Finset.mem_range.mp hx) (Finset.mem_range.mp hy)]

end Canvas
end Chatcurse

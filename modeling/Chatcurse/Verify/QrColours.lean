import Chatcurse.Verify.QrRegion

/-!
# The colours of the function modules

The patterns that a symbol is found and read by (`ShowsPatterns`) stay visible when they are drawn
one over the other.
-/

namespace Chatcurse
namespace Canvas
open QrCode (Version)

/-- The place of a bit of the format around the upper left corner. -/
def formatPlace (i : Nat) : Nat × Nat :=
  if i ≤ 5 then (8, i) else if i = 6 then (8, 7) else if i = 7 then (8, 8)
  else if i = 8 then (7, 8) else (14 - i, 8)

/-- And along the two other corners. -/
def formatPlace' (size i : Nat) : Nat × Nat :=
  if i < 8 then (size - 1 - i, 8) else (8, size - 15 + i)

/-- The modules of a symbol have the patterns that it is found and read by. -/
structure ShowsPatterns (version : Nat) (ecl : Ecc) (msk : Nat) (m : Nat → Nat → Bool) : Prop where
  finder : ∀ p ∈ [((3 : Int), (3 : Int)), ((version * 4 + 13 : Nat), 3),
      (3, (version * 4 + 13 : Nat))],
    ∀ x < version * 4 + 17, ∀ y < version * 4 + 17, dist (x - p.1) (y - p.2) ≤ 4 →
      m y x = (dist (x - p.1) (y - p.2) ≠ 2 && dist (x - p.1) (y - p.2) ≠ 4)
  timing : ∀ i, 8 ≤ i → i < version * 4 + 9 →
    m 6 i = decide (i % 2 = 0) ∧ m i 6 = decide (i % 2 = 0)
  alignment : ∀ p ∈ centres version, ∀ x y : Nat, dist (x - p.1) (y - p.2) ≤ 2 →
    m y x = decide (dist (x - p.1) (y - p.2) ≠ 1)
  format : ∀ i < 15, m (formatPlace i).2 (formatPlace i).1 = getBit (formatBits ecl msk) i ∧
    m (formatPlace' (version * 4 + 17) i).2 (formatPlace' (version * 4 + 17) i).1 =
      getBit (formatBits ecl msk) i
  dark : m (version * 4 + 9) 8 = true
  version : 7 ≤ version → ∀ i < 18,
    m (i / 3) (version * 4 + 6 + i % 3) = getBit (versionBits version) i ∧
      m (version * 4 + 6 + i % 3) (i / 3) = getBit (versionBits version) i

theorem written_append (calls calls' : List (Int × Int × Bool)) (x y : Nat) (b : Bool) :
    written (calls ++ calls') x y b = written calls' x y (written calls x y b) :=
  List.foldl_append

/-- No alignment pattern touches a corner or a version block. -/
theorem centres_apart (v : Version) : ∀ p ∈ centres v,
    ¬(p.1 ≤ 10 ∧ p.2 ≤ 10) ∧ ¬(v * 4 + 7 ≤ p.1 ∧ p.2 ≤ 10) ∧ ¬(p.1 ≤ 10 ∧ v * 4 + 7 ≤ p.2) ∧
    ¬(v * 4 + 4 ≤ p.1 ∧ p.2 ≤ 7) ∧ ¬(p.1 ≤ 7 ∧ v * 4 + 4 ≤ p.2) := by
  have hall : ∀ version ≤ 40, 1 ≤ version → ∀ p ∈ centres version,
      ¬(p.1 ≤ 10 ∧ p.2 ≤ 10) ∧ ¬((version * 4 + 7 : Nat) ≤ p.1 ∧ p.2 ≤ 10) ∧
      ¬(p.1 ≤ 10 ∧ (version * 4 + 7 : Nat) ≤ p.2) ∧
      ¬((version * 4 + 4 : Nat) ≤ p.1 ∧ p.2 ≤ 7) ∧ ¬(p.1 ≤ 7 ∧ (version * 4 + 4 : Nat) ≤ p.2) := by
    decide +kernel
  intro p hp
  have h := hall v v.2.2 v.2.1 p hp
  omega

theorem draws_versionPatterns (version : Nat) : Draws (versionPatterns version)
    (fun x y => 7 ≤ version ∧ InVersion ((version * 4 + 17 : Nat) : Int) x y)
    (fun x y => getBit (versionBits version)
      (versionIndex ((version * 4 + 17 : Nat) : Int) x y).toNat) := by
  intro x y b
  rw [versionPatterns]
  split
  next hfew =>
    refine ⟨fun h => absurd h List.not_mem_nil, ?_⟩
    rintro ⟨⟨hseven, -⟩, -⟩
    omega
  next hseven =>
    rw [draws_versionModules (by omega) _ x y b]
    exact and_congr_left' ⟨fun h => ⟨by omega, h⟩, fun h => h.2⟩

/-- The calls of a symbol, with the format of its mask drawn again. -/
def symbolPatterns (version : Nat) (ecl : Ecc) (msk : Nat) : List (Int × Int × Bool) :=
  functionPatterns version ecl ++
    formatModules ((version * 4 + 17 : Nat) : Int) (formatBits ecl msk)

section
variable (v : Version) (ecl : Ecc) (msk : Nat) {x y : Nat} (b : Bool)

/-- Outside the places of the format and the version, the last colours are those of the alignment
patterns. -/
theorem written_symbolPatterns (hformat : ¬InFormat ((v * 4 + 17 : Nat) : Int) x y)
    (hversion : ¬(7 ≤ v.val ∧ InVersion ((v * 4 + 17 : Nat) : Int) x y)) :
    written (symbolPatterns v ecl msk) x y b =
      written (alignmentPatterns v) x y
        (written (finderPattern (v * 4 + 17) 3 (v * 4 + 13 : Nat)) x y
          (written (finderPattern (v * 4 + 17) (v * 4 + 13 : Nat) 3) x y
            (written (finderPattern (v * 4 + 17) 3 3) x y
              (written (timingPatterns (v * 4 + 17)) x y b)))) := by
  have hpos : 1 ≤ v.val := v.2.1
  have hcentre : ((v * 4 + 17 : Nat) : Int) - 4 = (v * 4 + 13 : Nat) := by omega
  have hout := fun bits =>
    (draws_formatModules ((v * 4 + 17 : Nat) : Int) (by omega) bits).written_out hformat
  rw [symbolPatterns, functionPatterns]
  simp only [written_append, hout, (draws_versionPatterns v).written_out hversion, hcentre]

theorem dist_le {dx dy : Int} {n : Nat} :
    dist dx dy ≤ n ↔ (-(n : Int) ≤ dx ∧ dx ≤ n) ∧ -(n : Int) ≤ dy ∧ dy ≤ n := by
  rw [dist]
  omega

/-- The three finder patterns are apart from each other and from what is drawn over them. -/
theorem finder_places (hx : x < v * 4 + 17) (hy : y < v * 4 + 17)
    (h : (x ≤ 7 ∧ y ≤ 7) ∨ (v * 4 + 9 ≤ x ∧ y ≤ 7) ∨ x ≤ 7 ∧ v * 4 + 9 ≤ y) :
    ¬InFormat ((v * 4 + 17 : Nat) : Int) x y ∧
      ¬(7 ≤ v.val ∧ InVersion ((v * 4 + 17 : Nat) : Int) x y) ∧
      ¬∃ p ∈ centres v, dist ((x : Int) - p.1) ((y : Int) - p.2) ≤ 2 := by
  have hpos : 1 ≤ v.val := v.2.1
  refine ⟨?_, ?_, ?_⟩
  · rw [InFormat]
    omega
  · rw [InVersion]
    omega
  · rintro ⟨q, hq, hq'⟩
    have hapart := centres_apart v q hq
    rw [dist_le] at hq'
    omega

theorem written_finder (hx : x < v * 4 + 17) (hy : y < v * 4 + 17)
    (h : dist ((x : Int) - 3) ((y : Int) - 3) ≤ 4) :
    written (symbolPatterns v ecl msk) x y b =
      (dist ((x : Int) - 3) ((y : Int) - 3) ≠ 2 && dist ((x : Int) - 3) ((y : Int) - 3) ≠ 4) := by
  have hpos : 1 ≤ v.val := v.2.1
  have hcell := dist_le.mp h
  obtain ⟨hformat, hversion, halignment⟩ := finder_places v hx hy (.inl (by omega))
  have h2 : ¬(dist ((x : Int) - (v * 4 + 13 : Nat)) ((y : Int) - 3) ≤ 4 ∧
      (0 ≤ (x : Int) ∧ (x : Int) < (v * 4 + 17 : Nat)) ∧
        0 ≤ (y : Int) ∧ (y : Int) < (v * 4 + 17 : Nat)) := by
    rw [dist_le]
    omega
  have h3 : ¬(dist ((x : Int) - 3) ((y : Int) - (v * 4 + 13 : Nat)) ≤ 4 ∧
      (0 ≤ (x : Int) ∧ (x : Int) < (v * 4 + 17 : Nat)) ∧
        0 ≤ (y : Int) ∧ (y : Int) < (v * 4 + 17 : Nat)) := by
    rw [dist_le]
    omega
  rw [written_symbolPatterns v ecl msk b hformat hversion,
    (draws_alignmentPatterns v).written_out halignment,
    (draws_finderPattern _ _ _).written_out h3, (draws_finderPattern _ _ _).written_out h2,
    (draws_finderPattern _ _ _).written_in ⟨h, by omega⟩]

theorem written_finder_right (hx : x < v * 4 + 17) (hy : y < v * 4 + 17)
    (h : dist ((x : Int) - (v * 4 + 13 : Nat)) ((y : Int) - 3) ≤ 4) :
    written (symbolPatterns v ecl msk) x y b =
      (dist ((x : Int) - (v * 4 + 13 : Nat)) ((y : Int) - 3) ≠ 2 &&
        dist ((x : Int) - (v * 4 + 13 : Nat)) ((y : Int) - 3) ≠ 4) := by
  have hpos : 1 ≤ v.val := v.2.1
  have hcell := dist_le.mp h
  obtain ⟨hformat, hversion, halignment⟩ := finder_places v hx hy (.inr (.inl (by omega)))
  have h3 : ¬(dist ((x : Int) - 3) ((y : Int) - (v * 4 + 13 : Nat)) ≤ 4 ∧
      (0 ≤ (x : Int) ∧ (x : Int) < (v * 4 + 17 : Nat)) ∧
        0 ≤ (y : Int) ∧ (y : Int) < (v * 4 + 17 : Nat)) := by
    rw [dist_le]
    omega
  rw [written_symbolPatterns v ecl msk b hformat hversion,
    (draws_alignmentPatterns v).written_out halignment,
    (draws_finderPattern _ _ _).written_out h3,
    (draws_finderPattern _ _ _).written_in ⟨h, by omega⟩]

theorem written_finder_below (hx : x < v * 4 + 17) (hy : y < v * 4 + 17)
    (h : dist ((x : Int) - 3) ((y : Int) - (v * 4 + 13 : Nat)) ≤ 4) :
    written (symbolPatterns v ecl msk) x y b =
      (dist ((x : Int) - 3) ((y : Int) - (v * 4 + 13 : Nat)) ≠ 2 &&
        dist ((x : Int) - 3) ((y : Int) - (v * 4 + 13 : Nat)) ≠ 4) := by
  have hpos : 1 ≤ v.val := v.2.1
  have hcell := dist_le.mp h
  obtain ⟨hformat, hversion, halignment⟩ := finder_places v hx hy (.inr (.inr (by omega)))
  rw [written_symbolPatterns v ecl msk b hformat hversion,
    (draws_alignmentPatterns v).written_out halignment,
    (draws_finderPattern _ _ _).written_in ⟨h, by omega⟩]

/-- Away from the finder patterns only the timing lines are below the alignment patterns. -/
theorem written_no_finder (hformat : ¬InFormat ((v * 4 + 17 : Nat) : Int) x y)
    (hversion : ¬(7 ≤ v.val ∧ InVersion ((v * 4 + 17 : Nat) : Int) x y))
    (hfinder : ¬((x ≤ 7 ∧ y ≤ 7) ∨ (v * 4 + 9 ≤ x ∧ y ≤ 7) ∨ x ≤ 7 ∧ v * 4 + 9 ≤ y)) :
    written (symbolPatterns v ecl msk) x y b =
      written (alignmentPatterns v) x y (written (timingPatterns (v * 4 + 17)) x y b) := by
  have hout : ∀ p q : Int, ¬dist ((x : Int) - p) ((y : Int) - q) ≤ 4 → ∀ b,
      written (finderPattern (v * 4 + 17) p q) x y b = b :=
    fun p q h b => (draws_finderPattern _ p q).written_out (fun h' => h h'.1) b
  rw [written_symbolPatterns v ecl msk b hformat hversion, hout _ _ (by rw [dist_le]; omega),
    hout _ _ (by rw [dist_le]; omega), hout _ _ (by rw [dist_le]; omega)]

/-- The distance to a centre that is near to a timing line is the one along the line. -/
theorem dist_timing {p : Int × Int} (hp : p ∈ centres v) {i : Int} :
    (dist (i - p.1) (6 - p.2) ≤ 2 → dist (i - p.1) (6 - p.2) = (i - p.1).natAbs) ∧
      (dist (6 - p.1) (i - p.2) ≤ 2 → dist (6 - p.1) (i - p.2) = (i - p.2).natAbs) ∧
      p.1 % 2 = 0 ∧ p.2 % 2 = 0 := by
  obtain ⟨hp1, hp2⟩ := mem_positions hp
  have hx := (alignmentPatternPositions_spec v _ hp1).1
  have hy := (alignmentPatternPositions_spec v _ hp2).1
  refine ⟨fun h => ?_, fun h => ?_, hx.2.2.1, hy.2.2.1⟩
  · have hcell := dist_le.mp h
    obtain hsix : p.2 = 6 := by omega
    rw [dist, hsix]
    omega
  · have hcell := dist_le.mp h
    obtain hsix : p.1 = 6 := by omega
    rw [dist, hsix]
    omega

/-- An alignment pattern on a timing line has its colours. -/
theorem alignment_timing {i : Int} :
    ((∃ p ∈ centres v, dist (i - p.1) (6 - p.2) ≤ 2) →
      ((∀ p ∈ centres v, dist (i - p.1) (6 - p.2) ≠ 1) ↔ i % 2 = 0)) ∧
    ((∃ p ∈ centres v, dist (6 - p.1) (i - p.2) ≤ 2) →
      ((∀ p ∈ centres v, dist (6 - p.1) (i - p.2) ≠ 1) ↔ i % 2 = 0)) := by
  constructor
  · rintro ⟨p, hp, hdist⟩
    obtain ⟨halong, -, heven, -⟩ := dist_timing v hp (i := i)
    constructor
    · intro hne
      have hone := hne p hp
      have heq := halong hdist
      omega
    · intro hi q hq hone
      obtain ⟨halong, -, heven, -⟩ := dist_timing v hq (i := i)
      have heq := halong (by omega)
      omega
  · rintro ⟨p, hp, hdist⟩
    obtain ⟨-, halong, -, heven⟩ := dist_timing v hp (i := i)
    constructor
    · intro hne
      have hone := hne p hp
      have heq := halong hdist
      omega
    · intro hi q hq hone
      obtain ⟨-, halong, -, heven⟩ := dist_timing v hq (i := i)
      have heq := halong (by omega)
      omega

theorem written_timing (b' : Bool) {i : Nat} (h : 8 ≤ i) (h' : i < v * 4 + 9) :
    written (symbolPatterns v ecl msk) i 6 b = decide (i % 2 = 0) ∧
      written (symbolPatterns v ecl msk) 6 i b' = decide (i % 2 = 0) := by
  have hpos : 1 ≤ v.val := v.2.1
  have heven : ((i : Int) % 2 = 0) ↔ i % 2 = 0 := by omega
  constructor
  · have hline := (draws_timingPatterns (v * 4 + 17)).written_in (x := i) (y := 6)
      (.inr ⟨rfl, by omega⟩) b
    rw [if_neg (by omega), decide_eq_decide.mpr heven] at hline
    rw [written_no_finder v ecl msk b (by rw [InFormat]; omega) (by rw [InVersion]; omega)
      (by omega), hline]
    by_cases hnear : ∃ p ∈ centres v, dist ((i : Int) - p.1) (((6 : Nat) : Int) - p.2) ≤ 2
    · rw [(draws_alignmentPatterns v).written_in hnear, decide_eq_decide, ← heven]
      exact (alignment_timing v).1 hnear
    · rw [(draws_alignmentPatterns v).written_out hnear]
  · have hline := (draws_timingPatterns (v * 4 + 17)).written_in (x := 6) (y := i)
      (.inl ⟨rfl, by omega⟩) b'
    rw [if_pos (show ((6 : Nat) : Int) = 6 from rfl), decide_eq_decide.mpr heven] at hline
    rw [written_no_finder v ecl msk b' (by rw [InFormat]; omega) (by rw [InVersion]; omega)
      (by omega), hline]
    by_cases hnear : ∃ p ∈ centres v, dist (((6 : Nat) : Int) - p.1) ((i : Int) - p.2) ≤ 2
    · rw [(draws_alignmentPatterns v).written_in hnear, decide_eq_decide, ← heven]
      exact (alignment_timing v).2 hnear
    · rw [(draws_alignmentPatterns v).written_out hnear]

theorem written_alignment {p : Int × Int} (hp : p ∈ centres v)
    (h : dist ((x : Int) - p.1) ((y : Int) - p.2) ≤ 2) :
    written (symbolPatterns v ecl msk) x y b =
      decide (dist ((x : Int) - p.1) ((y : Int) - p.2) ≠ 1) := by
  have hcell := dist_le.mp h
  have hapart := centres_apart v p hp
  have hcolour := (draws_alignmentPatterns v x y _).mp
    (List.mem_flatMap.mpr ⟨p, hp, (draws_alignmentPattern p.1 p.2 x y _).mpr ⟨h, rfl⟩⟩)
  rw [written_no_finder v ecl msk b (by rw [InFormat]; omega) (by rw [InVersion]; omega)
    (by omega), (draws_alignmentPatterns v).written_in hcolour.1]
  exact hcolour.2.symm

theorem written_format (h : InFormat ((v * 4 + 17 : Nat) : Int) x y) :
    written (symbolPatterns v ecl msk) x y b =
      formatColour ((v * 4 + 17 : Nat) : Int) (formatBits ecl msk) x y := by
  have hpos : 1 ≤ v.val := v.2.1
  rw [symbolPatterns, written_append]
  exact (draws_formatModules _ (by omega) _).written_in h _

theorem written_version (hv : 7 ≤ v.val) (h : InVersion ((v * 4 + 17 : Nat) : Int) x y) :
    written (symbolPatterns v ecl msk) x y b =
      getBit (versionBits v) (versionIndex ((v * 4 + 17 : Nat) : Int) x y).toNat := by
  have hformat : ¬InFormat ((v * 4 + 17 : Nat) : Int) x y := by
    rw [InVersion] at h
    rw [InFormat]
    omega
  rw [symbolPatterns, functionPatterns, written_append, written_append,
    (draws_formatModules _ (by omega) _).written_out hformat]
  exact (draws_versionPatterns v).written_in ⟨hv, h⟩ _

theorem written_formatPlace {i : Nat} (hi : i < 15) (b : Nat → Nat → Bool) :
    written (symbolPatterns v ecl msk) (formatPlace i).1 (formatPlace i).2
        (b (formatPlace i).2 (formatPlace i).1) = getBit (formatBits ecl msk) i ∧
      written (symbolPatterns v ecl msk) (formatPlace' (v * 4 + 17) i).1
        (formatPlace' (v * 4 + 17) i).2
        (b (formatPlace' (v * 4 + 17) i).2 (formatPlace' (v * 4 + 17) i).1) =
          getBit (formatBits ecl msk) i := by
  have hpos : 1 ≤ v.val := v.2.1
  have hnat : ((i : Nat) : Int).toNat = i := Int.toNat_natCast i
  constructor
  · have hplace : InFormat ((v * 4 + 17 : Nat) : Int) (formatPlace i).1 (formatPlace i).2 ∧
        formatIndex ((v * 4 + 17 : Nat) : Int) (formatPlace i).1 (formatPlace i).2 = i ∧
        ¬(((formatPlace i).1 : Int) = 8 ∧
          ((formatPlace i).2 : Int) = ((v * 4 + 17 : Nat) : Int) - 8) := by
      simp only [InFormat, formatIndex, formatPlace]
      split_ifs <;> omega
    rw [written_format v ecl msk _ hplace.1, formatColour_eq hplace.2.1 hplace.2.2, hnat]
  · have hplace : InFormat ((v * 4 + 17 : Nat) : Int) (formatPlace' (v * 4 + 17) i).1
          (formatPlace' (v * 4 + 17) i).2 ∧
        formatIndex ((v * 4 + 17 : Nat) : Int) (formatPlace' (v * 4 + 17) i).1
          (formatPlace' (v * 4 + 17) i).2 = i ∧
        ¬(((formatPlace' (v * 4 + 17) i).1 : Int) = 8 ∧
          ((formatPlace' (v * 4 + 17) i).2 : Int) = ((v * 4 + 17 : Nat) : Int) - 8) := by
      simp only [InFormat, formatIndex, formatPlace']
      split_ifs <;> omega
    rw [written_format v ecl msk _ hplace.1, formatColour_eq hplace.2.1 hplace.2.2, hnat]

/-- **The patterns** are visible after they are drawn in their order, whatever is below them. -/
theorem showsPatterns_written (m : Nat → Nat → Bool) :
    ShowsPatterns v ecl msk fun y x => written (symbolPatterns v ecl msk) x y (m y x) := by
  have hpos : 1 ≤ v.val := v.2.1
  constructor
  · intro p hp x hx y hy hdist
    simp only [List.mem_cons, List.not_mem_nil, or_false] at hp
    rcases hp with rfl | rfl | rfl
    · exact written_finder v ecl msk _ hx hy hdist
    · exact written_finder_right v ecl msk _ hx hy hdist
    · exact written_finder_below v ecl msk _ hx hy hdist
  · exact fun i h h' => written_timing v ecl msk _ _ h h'
  · exact fun p hp x y h => written_alignment v ecl msk _ hp h
  · exact fun i hi => written_formatPlace v ecl msk hi m
  · rw [written_format v ecl msk _ (by rw [InFormat]; omega), formatColour]
    simp
    omega
  · intro hseven i hi
    have hnat : ((i : Nat) : Int).toNat = i := Int.toNat_natCast i
    constructor
    · rw [written_version v ecl msk _ hseven (by rw [InVersion]; omega), versionIndex,
        if_pos (by omega)]
      congr 1
      omega
    · rw [written_version v ecl msk _ hseven (by rw [InVersion]; omega), versionIndex,
        if_neg (by omega)]
      congr 1
      omega

end

end Canvas
end Chatcurse

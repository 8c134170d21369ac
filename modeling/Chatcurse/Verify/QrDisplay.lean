import Chatcurse.QrDisplay
import Chatcurse.Theory.Raster
import Mathlib.Data.List.DropRight

/-!
# The printed QR code can be scanned

Reading each character of the text back as two modules gives the modules of the code in a frame of
two light ones, and a dark row below it where the last line has only one row left
(`display_decodes`). The rows are printed from two above the code on, so that the frame and the code
are the rows of one picture, which is written as a `Raster`.
-/

namespace Chatcurse
namespace QrCode
open Raster (rows line lines readLines framed)

/-- The two modules that a character shows on a dark terminal. -/
def readChar : Char → Option (Bool × Bool)
  | '█' => some (false, false)
  | '▀' => some (false, true)
  | '▄' => some (true, false)
  | ' ' => some (true, true)
  | _ => none

/-- A line without the two blanks on each side. -/
def strip (l : List Char) : List Char := (l.drop 2).rdrop 2

/-- The rows of modules in a text; an empty line has none. -/
def scan (text : List Char) : Option (List (List Bool)) :=
  readLines readChar (((text.splitOn '\n').filter (· ≠ [])).map strip)

/-- The modules with two light ones on each of the four sides. -/
def quiet (q : QrCode) : List (List Bool) :=
  framed 2 (List.replicate (2 + q.size + 2) false)
    (List.ofFn fun y => framed 2 false (List.ofFn (q.modules y)))

theorem readChar_char (upper lower : Bool) :
    readChar (char upper lower) = some (upper, lower) := by
  cases upper <;> cases lower <;> rfl

theorem char_ne_feed (upper lower : Bool) : char upper lower ≠ '\n' := by
  cases upper <;> cases lower <;> decide

/-! ## The picture -/

/-- The code and its frame, by row and column from two before the first one on. -/
def picture (q : QrCode) (y x : Nat) : Bool := q.getModule (x - bsize) (y - bsize)

theorem picture_inside (q : QrCode) (y x : Fin q.size) :
    q.picture (2 + y) (2 + x) = q.modules y x := by
  have hx : ((2 + x.val : Nat) : Int) - bsize = x.val := by
    simp only [bsize]
    omega
  have hy : ((2 + y.val : Nat) : Int) - bsize = y.val := by
    simp only [bsize]
    omega
  have hin : (0 ≤ (x.val : Int) ∧ (x.val : Int) < q.size) ∧
      0 ≤ (y.val : Int) ∧ (y.val : Int) < q.size := by omega
  rw [picture, hx, hy, getModule, dif_pos hin]
  rfl

theorem picture_outside (q : QrCode)
    (h : (y < 2 ∨ 2 + q.size ≤ y) ∨ x < 2 ∨ 2 + q.size ≤ x) : q.picture y x = false := by
  apply dif_neg
  simp only [bsize]
  omega

theorem rows_picture (q : QrCode) : rows (2 + q.size + 2) (2 + q.size + 2) q.picture = q.quiet := by
  have hlight : ∀ y, y < 2 ∨ 2 + q.size ≤ y →
      (List.range (2 + q.size + 2)).map (q.picture y) =
        List.replicate (2 + q.size + 2) false := by
    intro y hy
    refine List.eq_replicate_iff.mpr ⟨by simp, fun b hb => ?_⟩
    obtain ⟨x, -, rfl⟩ := List.mem_map.mp hb
    exact q.picture_outside (.inl hy)
  refine Raster.map_range_framed (fun y hy => hlight y (.inl hy)) (fun y => ?_)
    fun k _ => hlight _ (.inr (by omega))
  exact Raster.map_range_framed (fun x hx => q.picture_outside (.inr (.inl hx)))
    (fun x => q.picture_inside y x) fun k _ => q.picture_outside (.inr (.inr (by omega)))

/-! ## The lines -/

theorem forUp_one (n : Nat) : forUp (-bsize) (n + bsize) 1 =
    (List.range (2 + n + 2)).map fun x : Nat => (x : Int) - bsize := by
  have hcount : ((n + bsize - -bsize + 1 - 1) / 1).toNat = 2 + n + 2 := by
    simp only [bsize]
    omega
  rw [forUp, hcount]
  exact List.map_congr_left fun x _ => by omega

theorem forUp_two (n : Nat) : forUp (-bsize) (n + bsize) 2 =
    (List.range ((2 + n + 2 + 1) / 2)).map fun k : Nat => ((2 * k : Nat) : Int) - bsize := by
  have hcount : ((n + bsize - -bsize + 2 - 1) / 2).toNat = (2 + n + 2 + 1) / 2 := by
    simp only [bsize]
    omega
  rw [forUp, hcount]
  exact List.map_congr_left fun k _ => by omega

theorem displayLine_eq (q : QrCode) (y : Nat) :
    q.displayLine ((y : Int) - bsize) = line char (2 + q.size + 2) (q.picture y)
      (if y + 1 < 2 + q.size + 2 then q.picture (y + 1) else fun _ => true) := by
  have hbelow : (y : Int) - bsize + 1 = ((y + 1 : Nat) : Int) - bsize := by omega
  have hrow : ((y + 1 : Nat) : Int) - bsize < q.size + bsize ↔ y + 1 < 2 + q.size + 2 := by
    simp only [bsize]
    omega
  rw [displayLine, forUp_one, List.map_map, line]
  refine List.map_congr_left fun x _ => ?_
  simp only [Function.comp_apply, hbelow, hrow, picture]
  split <;> rfl

def pad (l : List Char) : List Char := [' ', ' '] ++ l ++ [' ', ' ']

theorem strip_pad (l : List Char) : strip (pad l) = l := List.rdrop_append_length

/-- The lines that are printed, blanks and all. -/
def padded (q : QrCode) : List (List Char) :=
  (lines char true (2 + q.size + 2) (2 + q.size + 2) q.picture).map pad

theorem display_eq (q : QrCode) :
    q.display = ([] :: q.padded ++ [[]]).flatMap (· ++ ['\n']) := by
  have hline : ∀ y : Nat, [' ', ' '] ++ q.displayLine ((y : Int) - bsize) ++ [' ', ' ', '\n'] =
      [' ', ' '] ++ line char (2 + q.size + 2) (q.picture y)
        (if y + 1 < 2 + q.size + 2 then q.picture (y + 1) else fun _ => true) ++
        [' ', ' '] ++ ['\n'] := by
    intro y
    rw [displayLine_eq, List.append_assoc _ [' ', ' '] ['\n']]
    rfl
  rw [display, forUp_two, List.flatMap_map, List.flatMap_append, List.flatMap_cons, padded, lines,
    List.map_map, List.flatMap_map]
  simp only [hline]
  rfl

theorem feed_notMem_padded {q : QrCode} (hl : l ∈ q.padded) : '\n' ∉ l := by
  obtain ⟨inner, hinner, rfl⟩ := List.mem_map.mp hl
  obtain ⟨k, -, rfl⟩ := List.mem_map.mp hinner
  intro hfeed
  rcases List.mem_append.mp hfeed with hfeed | hfeed
  · rcases List.mem_append.mp hfeed with hfeed | hfeed
    · exact absurd hfeed (by decide)
    · obtain ⟨x, -, hchar⟩ := List.mem_map.mp hfeed
      exact char_ne_feed _ _ hchar
  · exact absurd hfeed (by decide)

/-- The text without the ends of its lines and the blanks. -/
theorem unpadded_display (q : QrCode) :
    ((q.display.splitOn '\n').filter (· ≠ [])).map strip =
      lines char true (2 + q.size + 2) (2 + q.size + 2) q.picture := by
  have hfeed : ∀ l ∈ [] :: q.padded ++ [[]], '\n' ∉ l := by
    intro l hl
    rcases List.mem_append.mp hl with hl | hl
    · rcases List.mem_cons.mp hl with rfl | hl
      · exact List.not_mem_nil
      · exact feed_notMem_padded hl
    · rw [List.mem_singleton.mp hl]
      exact List.not_mem_nil
  have hpadded : q.padded.filter (· ≠ []) = q.padded := by
    refine List.filter_eq_self.mpr fun l hl => ?_
    obtain ⟨inner, -, rfl⟩ := List.mem_map.mp hl
    rfl
  have hlines : ([] :: q.padded ++ [[]] ++ [[]]).filter (· ≠ []) = q.padded := by
    simp only [List.filter_append, List.filter_cons, hpadded]
    simp
  have hstrip : strip ∘ pad = id := funext strip_pad
  rw [display_eq, Raster.splitOn_terminated hfeed, hlines, padded, List.map_map, hstrip,
    List.map_id]

/-- **The printed code** is read as the code in a frame of two light modules, and as a dark row
below it where the number of rows is odd. So codes of one size that are printed alike are the
same. -/
theorem display_decodes (n : Nat) (m : Fin n → Fin n → Bool) :
    scan (display ⟨n, m⟩) =
        some (quiet ⟨n, m⟩ ++ if n % 2 = 1 then [List.replicate (2 + n + 2) true] else []) ∧
      ∀ m' : Fin n → Fin n → Bool, display ⟨n, m'⟩ = display ⟨n, m⟩ → m' = m := by
  have hscan : ∀ m : Fin n → Fin n → Bool, scan (display ⟨n, m⟩) =
      some (quiet ⟨n, m⟩ ++ if n % 2 = 1 then [List.replicate (2 + n + 2) true] else []) := by
    intro m
    have hodd : (2 + n + 2) % 2 = n % 2 := by omega
    rw [scan, unpadded_display, Raster.readLines_lines readChar_char, rows_picture, hodd]
  refine ⟨hscan m, fun m' h => ?_⟩
  have hquiet : quiet ⟨n, m'⟩ = quiet ⟨n, m⟩ := by
    have heq := hscan m'
    rw [h, hscan m] at heq
    exact (List.append_cancel_right (Option.some.inj heq)).symm
  have hrows := List.ofFn_injective (Raster.framed_injective _ _ hquiet)
  funext y
  exact List.ofFn_injective (Raster.framed_injective _ _ (congrFun hrows y))

end QrCode
end Chatcurse

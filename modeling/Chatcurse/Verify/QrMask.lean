import Chatcurse.Verify.QrColours
import Chatcurse.Verify.QrScan
import Chatcurse.Verify.QrPenalty

/-!
# The mask of a QR code

A mask is undone by the same mask, since it leaves the function modules alone and the format is drawn
on these. So each turn of the loop over the masks looks at the symbol of that mask, and the one with
the least penalty is taken (`construct_least_penalty`).
-/

namespace Chatcurse
namespace Canvas
open QrCode (Version)

/-- The modules with a mask. -/
def masked (c : Canvas) (i : Nat) : Canvas :=
  { c with modules := fun y x => c.modules y x ^^ (invert i x y && !c.isFunction y x) }

def formatCalls (c : Canvas) (i : Nat) : List (Int × Int × Bool) :=
  formatModules c.size (formatBits c.errorCorrectionLevel i)

/-- The symbol of a mask. -/
def symbol (c : Canvas) (i : Nat) : Canvas := (c.masked i).paint (c.formatCalls i)

theorem applyMask_eq (c : Canvas) {i : Nat} (hi : i < 8) :
    c.applyMask (i : Int) = .ok (c.masked i) := by
  rw [applyMask, if_neg (by omega), Int.toNat_natCast]
  rfl

theorem drawFormatBits_eq {c : Canvas} (h : 21 ≤ c.size) (i : Nat) :
    c.drawFormatBits i = .ok (c.paint (c.formatCalls i)) :=
  setFunctionModules_eq (inside_formatModules h _)

/-- The format has been drawn. -/
structure HasFormat (c : Canvas) : Prop where
  size_le : 21 ≤ c.size
  isFunction : ∀ x y : Nat, InFormat c.size x y → c.isFunction y x = true

theorem draws_formatCalls {c : Canvas} (h : 21 ≤ c.size) (i : Nat) :
    Draws (c.formatCalls i) (InFormat c.size)
      (formatColour c.size (formatBits c.errorCorrectionLevel i)) :=
  draws_formatModules _ (by omega) _

theorem HasFormat.paint_eq {c : Canvas} (h : c.HasFormat) (i : Nat) :
    c.paint (c.formatCalls i) =
      { c with modules := fun y x => written (c.formatCalls i) x y (c.modules y x) } := by
  rw [Canvas.paint, mk.injEq]
  refine ⟨rfl, rfl, rfl, rfl, ?_⟩
  funext y x
  by_cases hplace : InFormat c.size x y
  · rw [h.isFunction x y hplace, Bool.true_or]
  · rw [(draws_formatCalls h.size_le i).untouched hplace, Bool.or_false]

theorem HasFormat.masked {c : Canvas} (h : c.HasFormat) (i : Nat) : (c.masked i).HasFormat :=
  ⟨h.size_le, h.isFunction⟩

theorem HasFormat.symbol_eq {c : Canvas} (h : c.HasFormat) (i : Nat) : c.symbol i =
    { c with
      modules := fun y x =>
        written (c.formatCalls i) x y (c.modules y x ^^ (invert i x y && !c.isFunction y x)) } :=
  (h.masked i).paint_eq i

/-- The mask is undone, up to the format. -/
theorem HasFormat.masked_symbol {c : Canvas} (h : c.HasFormat) (i : Nat) :
    (c.symbol i).masked i = c.paint (c.formatCalls i) := by
  rw [h.symbol_eq, h.paint_eq, Canvas.masked, mk.injEq]
  refine ⟨rfl, rfl, rfl, ?_, rfl⟩
  funext y x
  change (written (c.formatCalls i) x y (c.modules y x ^^ (invert i x y && !c.isFunction y x)) ^^
    (invert i x y && !c.isFunction y x)) = written (c.formatCalls i) x y (c.modules y x)
  by_cases hplace : InFormat c.size x y
  · rw [(draws_formatCalls h.size_le i).written_in hplace, h.isFunction x y hplace, Bool.not_true,
      Bool.and_false, Bool.xor_false, (draws_formatCalls h.size_le i).written_in hplace]
  · rw [(draws_formatCalls h.size_le i).written_out hplace,
      (draws_formatCalls h.size_le i).written_out hplace, Bool.xor_assoc, Bool.xor_self,
      Bool.xor_false]

theorem HasFormat.paint {c : Canvas} (h : c.HasFormat) (calls : List (Int × Int × Bool)) :
    (c.paint calls).HasFormat where
  size_le := h.size_le
  isFunction := fun x y hplace => by
    have hfunction := h.isFunction x y hplace
    exact (congrArg (· || touched calls x y) hfunction).trans (Bool.true_or _)

theorem HasFormat.paint_paint {c : Canvas} (h : c.HasFormat) (i j : Nat) :
    (c.paint (c.formatCalls i)).paint (c.formatCalls j) = c.paint (c.formatCalls j) := by
  have hpaint := (h.paint (c.formatCalls i)).paint_eq j
  refine hpaint.trans ?_
  rw [h.paint_eq i, h.paint_eq j, mk.injEq]
  refine ⟨rfl, rfl, rfl, ?_, rfl⟩
  funext y x
  by_cases hplace : InFormat c.size x y
  · exact ((draws_formatCalls h.size_le j).written_in hplace _).trans
      ((draws_formatCalls h.size_le j).written_in hplace _).symm
  · exact congrArg _ ((draws_formatCalls h.size_le i).written_out hplace _)

/-- The symbol of a mask is the same whatever format was drawn before. -/
theorem HasFormat.symbol_paint {c : Canvas} (h : c.HasFormat) (i j : Nat) :
    (c.paint (c.formatCalls i)).symbol j = c.symbol j := by
  rw [(h.paint (c.formatCalls i)).symbol_eq j, h.symbol_eq j, h.paint_eq i, mk.injEq]
  refine ⟨rfl, rfl, rfl, ?_, rfl⟩
  funext y x
  by_cases hplace : InFormat c.size x y
  · exact ((draws_formatCalls h.size_le j).written_in hplace _).trans
      ((draws_formatCalls h.size_le j).written_in hplace _).symm
  · have hout := (draws_formatCalls h.size_le i).written_out hplace (c.modules y x)
    exact congrArg (fun b => written (c.formatCalls j) x y
      (b ^^ (invert j x y && !c.isFunction y x))) hout

/-! ## The loop over the masks -/

def penalty (c : Canvas) (i : Nat) : Int := (c.symbol i).getPenaltyScore

theorem tryMask_eq {c : Canvas} (h : c.HasFormat) {i : Nat} (hi : i < 8) (best : Int × Int) :
    tryMask (c, best) i =
      .ok (c.paint (c.formatCalls i),
        if c.penalty i < best.2 then ((i : Int), c.penalty i) else best) := by
  obtain ⟨msk, minPenalty⟩ := best
  have hformat : (c.masked i).drawFormatBits i = .ok (c.symbol i) :=
    drawFormatBits_eq (h.masked i).size_le i
  have hundo := applyMask_eq (c.symbol i) hi
  rw [h.masked_symbol] at hundo
  rw [tryMask]
  simp only [applyMask_eq c hi, bind, Except.bind, hformat, hundo]
  by_cases hless : (c.symbol i).getPenaltyScore < minPenalty
  · have hless' : c.penalty i < minPenalty := hless
    rw [if_pos hless', if_pos hless]
    rfl
  · have hless' : ¬c.penalty i < minPenalty := hless
    rw [if_neg hless', if_neg hless]
    rfl

/-- `msk` and `minPenalty` after the first masks. -/
def best (penalty : Nat → Int) : Nat → Int × Int
  | 0 => (-1, LONG_MAX)
  | k + 1 => if penalty k < (best penalty k).2 then ((k : Int), penalty k) else best penalty k

/-- The first mask with the least penalty. -/
theorem best_spec {penalty : Nat → Int} {n : Nat} (h : ∀ i < n + 1, penalty i < LONG_MAX) :
    ∃ m < n + 1, best penalty (n + 1) = ((m : Int), penalty m) ∧
      ∀ j < n + 1, penalty m ≤ penalty j ∧ (j < m → penalty m < penalty j) := by
  induction n with
  | zero =>
    refine ⟨0, Nat.one_pos, if_pos (h 0 Nat.one_pos), fun j hj => ?_⟩
    obtain rfl : j = 0 := by omega
    exact ⟨le_rfl, fun hlt => absurd hlt (Nat.lt_irrefl 0)⟩
  | succ n ih =>
    obtain ⟨m, hm, hbest, hleast⟩ := ih fun i hi => h i (by omega)
    rw [best, hbest]
    by_cases hless : penalty (n + 1) < penalty m
    · refine ⟨n + 1, by omega, if_pos hless, fun j hj => ?_⟩
      rcases Nat.lt_succ_iff_lt_or_eq.mp hj with hj | rfl
      · have hlt := Int.lt_of_lt_of_le hless (hleast j hj).1
        exact ⟨hlt.le, fun _ => hlt⟩
      · exact ⟨le_rfl, fun hlt => absurd hlt (Nat.lt_irrefl _)⟩
    · refine ⟨m, by omega, if_neg hless, fun j hj => ?_⟩
      rcases Nat.lt_succ_iff_lt_or_eq.mp hj with hj | rfl
      · exact hleast j hj
      · exact ⟨Int.not_lt.mp hless, fun hlt => by omega⟩

/-- The canvas after the first masks. -/
def painted (c : Canvas) : Nat → Canvas
  | 0 => c
  | k + 1 => c.paint (c.formatCalls k)

theorem HasFormat.symbol_painted {c : Canvas} (h : c.HasFormat) (n i : Nat) :
    (c.painted n).symbol i = c.symbol i := by
  cases n with
  | zero => rfl
  | succ n => exact h.symbol_paint n i

theorem HasFormat.paint_painted {c : Canvas} (h : c.HasFormat) (n i : Nat) :
    (c.painted n).paint ((c.painted n).formatCalls i) = c.paint (c.formatCalls i) := by
  cases n with
  | zero => rfl
  | succ n => exact h.paint_paint n i

theorem HasFormat.painted {c : Canvas} (h : c.HasFormat) (n : Nat) : (c.painted n).HasFormat := by
  cases n with
  | zero => exact h
  | succ n => exact h.paint _

theorem foldlM_tryMask {c : Canvas} (h : c.HasFormat) {n : Nat} (hn : n ≤ 8) :
    (List.range n).foldlM tryMask (c, -1, (LONG_MAX : Int)) =
      .ok (c.painted n, best c.penalty n) := by
  induction n with
  | zero => rfl
  | succ n ih =>
    have hstep := tryMask_eq (h.painted n) (i := n) (by omega) (best c.penalty n)
    have hpenalty : (c.painted n).penalty n = c.penalty n :=
      congrArg getPenaltyScore (h.symbol_painted n n)
    rw [h.paint_painted, hpenalty] at hstep
    rw [List.range_succ, List.foldlM_append, ih (by omega)]
    simp only [bind, Except.bind, List.foldlM_cons, hstep]
    rfl

theorem penalty_lt {c : Canvas} (h : c.version ≤ 40) (i : Nat) : c.penalty i < LONG_MAX := by
  have hle := (getPenaltyScore_le (c := c.symbol i) h).2
  have hmax : (LONG_MAX : Int) = 9223372036854775807 := rfl
  rw [penalty]
  omega

/-- The mask that is chosen. -/
theorem chooseMask_eq {c : Canvas} (h : c.HasFormat) (hver : c.version ≤ 40) :
    ∃ m : Nat, m < 8 ∧ c.chooseMask = .ok (c.painted 8, (m : Int), c.penalty m) ∧
      ∀ j < 8, c.penalty m ≤ c.penalty j ∧ (j < m → c.penalty m < c.penalty j) := by
  obtain ⟨m, hm, hbest, hleast⟩ := best_spec (n := 7)
    fun i _ => penalty_lt hver i
  refine ⟨m, hm, ?_, hleast⟩
  rw [chooseMask, foldlM_tryMask h le_rfl, hbest]

end Canvas
end Chatcurse

import Mathlib.Data.List.Count
import Mathlib.Logic.Function.Basic

/-!
# The distance of words

The distance of two words of one length is the number of places where they differ. A word that is
near to one of some words that are apart from each other is read as that one (`nearest_eq`).
-/

universe u v

namespace Hamming

variable {α : Type u} [DecidableEq α]

/-- The number of places where two words differ. -/
def dist : List α → List α → Nat
  | r :: l, c :: m => (if r = c then 0 else 1) + dist l m
  | _, _ => 0

theorem dist_self (l : List α) : dist l l = 0 := by
  induction l with
  | nil => rfl
  | cons r l ih => rw [dist, if_pos rfl, ih]

theorem eq_of_dist_eq_zero {l m : List α} (hlen : l.length = m.length) (h : dist l m = 0) :
    l = m := by
  induction l generalizing m with
  | nil => exact (List.length_eq_zero_iff.mp hlen.symm).symm
  | cons r l ih =>
    cases m with
    | nil => cases hlen
    | cons c m =>
      rw [dist] at h
      split at h
      next heq => rw [heq, ih (Nat.succ.inj hlen) (by omega)]
      next => omega

theorem dist_map {β : Type v} [DecidableEq β] {f : α → β} (hf : Function.Injective f)
    (l m : List α) : dist (l.map f) (m.map f) = dist l m := by
  induction l generalizing m with
  | nil => rfl
  | cons r l ih =>
    cases m with
    | nil => rfl
    | cons c m => simp only [List.map_cons, dist, ih, hf.eq_iff]

theorem dist_comm (l m : List α) : dist l m = dist m l := by
  induction l generalizing m with
  | nil => cases m <;> rfl
  | cons r l ih =>
    cases m with
    | nil => rfl
    | cons c m => simp only [dist, ih, eq_comm]

theorem dist_triangle {l m k : List α} (hl : l.length = m.length) (hk : k.length = m.length) :
    dist l k ≤ dist l m + dist m k := by
  induction l generalizing m k with
  | nil => simp [dist]
  | cons r l ih =>
    cases m with
    | nil => cases hl
    | cons c m =>
      cases k with
      | nil => cases hk
      | cons b k =>
        have hrest := ih (Nat.succ.inj hl) (Nat.succ.inj hk)
        simp only [dist]
        rcases eq_or_ne r c with rfl | hrc
        · rw [if_pos (rfl : r = r)]
          omega
        · rw [if_neg hrc]
          split <;> omega

theorem dist_append {l m : List α} (h : l.length = m.length) (l' m' : List α) :
    dist (l ++ l') (m ++ m') = dist l m + dist l' m' := by
  induction l generalizing m with
  | nil =>
    rw [List.length_eq_zero_iff.mp h.symm]
    exact (Nat.zero_add _).symm
  | cons r l ih =>
    cases m with
    | nil => cases h
    | cons c m =>
      rw [List.cons_append, List.cons_append, dist, dist, ih (Nat.succ.inj h), Nat.add_assoc]

theorem dist_take_le (n : Nat) (l m : List α) : dist (l.take n) (m.take n) ≤ dist l m := by
  induction n generalizing l m with
  | zero => simp [dist]
  | succ n ih =>
    cases l with
    | nil => simp [dist]
    | cons r l =>
      cases m with
      | nil => simp [dist]
      | cons c m =>
        rw [List.take_succ_cons, List.take_succ_cons, dist, dist]
        exact Nat.add_le_add_left (ih l m) _

theorem dist_map_map {β : Type v} (f g : β → α) (l : List β) :
    dist (l.map f) (l.map g) = l.countP fun b => f b ≠ g b := by
  induction l with
  | nil => rfl
  | cons b l ih =>
    rw [List.map_cons, List.map_cons, dist, ih, List.countP_cons, Nat.add_comm]
    by_cases h : f b = g b <;> simp [h]

/-- Words differ no less after each letter is replaced by a code of one length. -/
theorem dist_le_flatMap {β : Type v} [DecidableEq β] {code : α → List β} {n : Nat}
    (hcode : Function.Injective code) (hn : ∀ a, (code a).length = n) {l m : List α}
    (hlen : l.length = m.length) : dist l m ≤ dist (l.flatMap code) (m.flatMap code) := by
  induction l generalizing m with
  | nil => exact Nat.zero_le _
  | cons r l ih =>
    cases m with
    | nil => cases hlen
    | cons c m =>
      have hcodes : (code r).length = (code c).length := (hn r).trans (hn c).symm
      have hrest := ih (Nat.succ.inj hlen)
      rw [List.flatMap_cons, List.flatMap_cons, dist_append hcodes, dist]
      split
      next => omega
      next hne =>
        have hpos : dist (code r) (code c) ≠ 0 :=
          fun h => hne (hcode (eq_of_dist_eq_zero hcodes h))
        omega

/-! ## Reading -/

variable {γ : Type v}

/-- The first one whose word is no farther than `t` from the word that is read. -/
def nearest (word : γ → List α) (t : Nat) (l : List γ) (w : List α) : Option γ :=
  l.find? fun p => dist w (word p) ≤ t

theorem nearest_eq {word : γ → List α} {t n : Nat} {l : List γ} {w : List α} {p : γ}
    (hn : ∀ q, (word q).length = n) (hw : w.length = n)
    (hapart : ∀ p ∈ l, ∀ q ∈ l, p ≠ q → 2 * t < dist (word p) (word q)) (hp : p ∈ l)
    (hnear : dist w (word p) ≤ t) : nearest word t l w = some p := by
  obtain ⟨q, hq⟩ : ∃ q, nearest word t l w = some q :=
    Option.isSome_iff_exists.mp (List.find?_isSome.mpr ⟨p, hp, decide_eq_true hnear⟩)
  have hfound := List.find?_some (show l.find? (fun p => dist w (word p) ≤ t) = some q from hq)
  have hdist : dist w (word q) ≤ t := of_decide_eq_true hfound
  rw [hq]
  by_contra hne
  have hlt := hapart p hp q (List.mem_of_find?_eq_some hq) fun h => hne (h ▸ rfl)
  have htriangle := dist_triangle (m := w) ((hn p).trans hw.symm) ((hn q).trans hw.symm)
  rw [dist_comm (word p) w] at htriangle
  omega

end Hamming

import Chatcurse.Theory.Hamming
import Mathlib.LinearAlgebra.Vandermonde

/-!
# Reed–Solomon codes with a systematic encoder

A polynomial is the list of its coefficients, from the highest power down. The generator is built
one root at a time in a window of its low coefficients (`generator_eval`), and the encoder divides
by it with a shift register of the same length. The message with the negated remainder after it has
the roots of the generator (`eval_codeword`). Over a domain, where these are the first powers of one
element, two words with all of them differ in more places than there are roots, or not at all
(`eq_of_dist_le`).
-/

universe u

namespace ReedSolomon

variable {R : Type u} [CommRing R]

/-- The value of a polynomial. -/
def eval (t : R) (l : List R) : R := l.foldl (fun a c => a * t + c) 0

@[simp] theorem eval_nil (t : R) : eval t [] = 0 := rfl

theorem foldl_eval (t a : R) (l : List R) :
    l.foldl (fun a c => a * t + c) a = a * t ^ l.length + eval t l := by
  induction l using List.reverseRecOn with
  | nil => simp
  | append_singleton l c ih =>
    have hsnoc : eval t (l ++ [c]) = eval t l * t + c := by
      rw [eval, eval, List.foldl_append]
      rfl
    rw [List.foldl_append, ih, hsnoc, List.length_append, pow_add]
    simp only [List.foldl_cons, List.foldl_nil, List.length_singleton]
    ring

theorem eval_append (t : R) (l m : List R) :
    eval t (l ++ m) = eval t l * t ^ m.length + eval t m := by
  conv_lhs => rw [eval, List.foldl_append]
  exact foldl_eval t _ m

theorem eval_cons (t c : R) (l : List R) : eval t (c :: l) = c * t ^ l.length + eval t l := by
  have hsingle : eval t [c] = c := by simp [eval]
  rw [← List.singleton_append, eval_append, hsingle]

theorem eval_concat (t : R) (l : List R) (c : R) : eval t (l ++ [c]) = eval t l * t + c := by
  rw [eval, List.foldl_append]
  rfl

theorem eval_map_neg (t : R) (l : List R) : eval t (l.map (- ·)) = -eval t l := by
  induction l with
  | nil => simp
  | cons c l ih =>
    rw [List.map_cons, eval_cons, eval_cons, ih, List.length_map]
    ring

theorem eval_zipWith_sub (t f : R) {l m : List R} (h : l.length = m.length) :
    eval t (List.zipWith (fun r c => r - c * f) l m) = eval t l - eval t m * f := by
  induction l generalizing m with
  | nil =>
    cases m with
    | nil => simp
    | cons => cases h
  | cons r l ih =>
    cases m with
    | nil => cases h
    | cons c m =>
      have hlen : l.length = m.length := Nat.succ.inj h
      rw [List.zipWith_cons_cons, eval_cons, eval_cons, eval_cons, ih hlen, List.length_zipWith,
        hlen, Nat.min_self]
      ring

/-! ## The generator -/

/-- A window of coefficients times `x + r`. What leaves it at the top is dropped. -/
def timesRoot (r : R) : List R → List R
  | [] => []
  | [c] => [c * r]
  | c :: d :: l => (c * r + d) :: timesRoot r (d :: l)

@[simp] theorem length_timesRoot (r : R) (l : List R) : (timesRoot r l).length = l.length := by
  induction l with
  | nil => rfl
  | cons c l ih =>
    cases l with
    | nil => rfl
    | cons d l => exact congrArg (· + 1) ih

theorem eval_timesRoot (r t c : R) (l : List R) :
    eval t (timesRoot r (c :: l)) = eval t (c :: l) * (t + r) - c * t ^ (l.length + 1) := by
  induction l generalizing c with
  | nil =>
    simp only [timesRoot, eval_cons, eval_nil, List.length_nil]
    ring
  | cons d l ih =>
    rw [timesRoot, eval_cons, ih, eval_cons t c, length_timesRoot, eval_cons]
    simp only [List.length_cons]
    ring

/-- The low coefficients of the product of `x + r`, in a window with room for them all. -/
def generator (d : Nat) (rs : List R) : List R :=
  rs.foldl (fun l r => timesRoot r l) (List.replicate d 0 ++ [1])

theorem timesRoot_padded (r : R) (k : Nat) (l : List R) :
    timesRoot r (List.replicate (k + 1) 0 ++ 1 :: l) =
      List.replicate k 0 ++ 1 :: timesRoot r (1 :: l) := by
  induction k with
  | zero => simp [timesRoot]
  | succ k ih =>
    have hcons : List.replicate (k + 1 + 1) 0 ++ 1 :: l =
        0 :: 0 :: (List.replicate k 0 ++ 1 :: l) := rfl
    have ih' : timesRoot r (0 :: (List.replicate k 0 ++ 1 :: l)) =
        List.replicate k 0 ++ 1 :: timesRoot r (1 :: l) := ih
    rw [hcons, timesRoot, ih', zero_mul, add_zero]
    rfl

/-- A monic polynomial as long as there are roots left for its window. -/
theorem foldl_timesRoot (rs : List R) (l : List R) :
    ∃ l', rs.foldl (fun l r => timesRoot r l) (List.replicate rs.length 0 ++ 1 :: l) = 1 :: l' ∧
      l'.length = l.length + rs.length ∧
      ∀ t, eval t (1 :: l') = eval t (1 :: l) * (rs.map (t + ·)).prod := by
  induction rs generalizing l with
  | nil => exact ⟨l, rfl, rfl, fun t => by simp⟩
  | cons r rs ih =>
    obtain ⟨l', hl', hlen, heval⟩ := ih (timesRoot r (1 :: l))
    refine ⟨l', ?_, ?_, fun t => ?_⟩
    · rw [List.foldl_cons, List.length_cons, timesRoot_padded, hl']
    · rw [hlen, length_timesRoot, List.length_cons, List.length_cons]
      omega
    · have htop : eval t (1 :: timesRoot r (1 :: l)) = eval t (1 :: l) * (t + r) := by
        rw [eval_cons, eval_timesRoot, length_timesRoot, List.length_cons]
        ring
      rw [heval, htop, List.map_cons, List.prod_cons, mul_assoc]

/-- **The generator** with its leading coefficient is the product of `x + r` over the roots. -/
theorem generator_eval (r : R) (rs : List R) :
    (generator rs.length (rs ++ [r])).length = rs.length + 1 ∧
      ∀ t, eval t (1 :: generator rs.length (rs ++ [r])) = (rs.map (t + ·)).prod * (t + r) := by
  obtain ⟨l, hl, hlen, heval⟩ := foldl_timesRoot rs ([] : List R)
  rw [generator, List.foldl_append, hl]
  simp only [List.foldl_cons, List.foldl_nil, length_timesRoot, List.length_cons]
  refine ⟨by simp [hlen], fun t => ?_⟩
  have hone : eval t [(1 : R)] = 1 := by simp [eval]
  have hprod := heval t
  rw [hone, one_mul] at hprod
  rw [eval_cons, eval_timesRoot, length_timesRoot, ← hprod, List.length_cons]
  ring

/-! ## The encoder -/

/-- A coefficient enters the shift register of a division by `x ^ g.length + g`. -/
def feed (g : List R) (state : List R) (b : R) : List R :=
  match state with
  | [] => []
  | h :: rest => List.zipWith (fun r c => r - c * (b + h)) (rest ++ [0]) g

/-- The register after all coefficients of the message. -/
def remainder (g data : List R) : List R := data.foldl (feed g) (List.replicate g.length 0)

/-- The message with the negated remainder after it. -/
def codeword (g data : List R) : List R := data ++ (remainder g data).map (- ·)

theorem length_feed {g state : List R} (h : state.length = g.length) (b : R) :
    (feed g state b).length = g.length := by
  cases state with
  | nil => exact h
  | cons r rest =>
    rw [List.length_cons] at h
    simp [feed, h]

theorem eval_feed {g state : List R} (h : state.length = g.length) (hg : g ≠ [])
    (ht : eval t (1 :: g) = 0) (b : R) :
    eval t (feed g state b) = eval t state * t + b * t ^ g.length := by
  cases state with
  | nil => exact (hg (List.length_eq_zero_iff.mp h.symm)).elim
  | cons r rest =>
    rw [List.length_cons] at h
    have hlen : (rest ++ [(0 : R)]).length = g.length := by simp [h]
    have hroot : eval t g = -t ^ g.length := by
      rw [eval_cons, one_mul] at ht
      exact eq_neg_of_add_eq_zero_right ht
    rw [feed, eval_zipWith_sub t _ hlen, eval_concat, eval_cons, hroot, ← h]
    ring

theorem foldl_feed {g : List R} (hg : g ≠ []) (ht : eval t (1 :: g) = 0) (data state : List R)
    (h : state.length = g.length) :
    (data.foldl (feed g) state).length = g.length ∧
      eval t (data.foldl (feed g) state) =
        eval t state * t ^ data.length + eval t data * t ^ g.length := by
  induction data generalizing state with
  | nil => simp [h]
  | cons b data ih =>
    obtain ⟨hlen, heval⟩ := ih (feed g state b) (length_feed h b)
    refine ⟨hlen, ?_⟩
    rw [List.foldl_cons, heval, eval_feed h hg ht, eval_cons, List.length_cons]
    ring

theorem length_remainder (g data : List R) : (remainder g data).length = g.length := by
  have hfold : ∀ state : List R, state.length = g.length →
      (data.foldl (feed g) state).length = g.length := by
    induction data with
    | nil => exact fun _ => id
    | cons b data ih => exact fun state h => ih _ (length_feed h b)
  exact hfold _ List.length_replicate

theorem eval_replicate_zero (t : R) (n : Nat) : eval t (List.replicate n 0) = 0 := by
  induction n with
  | zero => rfl
  | succ n ih => rw [List.replicate_succ, eval_cons, ih, zero_mul, zero_add]

/-- **A codeword** has the roots of its generator. -/
theorem eval_codeword {g : List R} (hg : g ≠ []) (ht : eval t (1 :: g) = 0) (data : List R) :
    eval t (codeword g data) = 0 := by
  obtain ⟨-, heval⟩ := foldl_feed hg ht data _ List.length_replicate
  rw [codeword, eval_append, eval_map_neg, List.length_map, length_remainder, remainder, heval,
    eval_replicate_zero]
  ring

/-! ## The distance of two codewords -/

/-- The differences of the coefficients with the powers of `a` that they go with. -/
def gaps (a : R) : List R → List R → List (R × R)
  | r :: l, c :: m => (r - c, a ^ l.length) :: gaps a l m
  | _, _ => []

theorem sum_gaps (a : R) (i : Nat) {l m : List R} (hlen : l.length = m.length) :
    ((gaps a l m).map fun p => p.1 * p.2 ^ i).sum = eval (a ^ i) l - eval (a ^ i) m := by
  induction l generalizing m with
  | nil =>
    rw [List.length_eq_zero_iff.mp hlen.symm]
    simp [gaps]
  | cons r l ih =>
    cases m with
    | nil => cases hlen
    | cons c m =>
      have hrest : l.length = m.length := Nat.succ.inj hlen
      have hpow : (a ^ l.length) ^ i = (a ^ i) ^ l.length := by
        rw [← pow_mul, ← pow_mul, Nat.mul_comm]
      rw [gaps, List.map_cons, List.sum_cons, ih hrest, eval_cons, eval_cons, hpow, hrest]
      ring

theorem gaps_nodes (a : R) {l m : List R} (hlen : l.length = m.length) :
    (gaps a l m).map Prod.snd = (List.range l.length).reverse.map (a ^ ·) := by
  induction l generalizing m with
  | nil =>
    rw [List.length_eq_zero_iff.mp hlen.symm]
    rfl
  | cons r l ih =>
    cases m with
    | nil => cases hlen
    | cons c m =>
      rw [gaps, List.map_cons, ih (Nat.succ.inj hlen), List.length_cons, List.range_succ]
      simp

theorem length_filter_gaps [DecidableEq R] (a : R) {l m : List R} (hlen : l.length = m.length) :
    ((gaps a l m).filter fun p => p.1 ≠ 0).length = Hamming.dist l m := by
  induction l generalizing m with
  | nil =>
    rw [List.length_eq_zero_iff.mp hlen.symm]
    rfl
  | cons r l ih =>
    cases m with
    | nil => cases hlen
    | cons c m =>
      have hrest := ih (Nat.succ.inj hlen)
      rw [gaps, Hamming.dist]
      split
      next heq =>
        rw [List.filter_cons_of_neg (by simp [heq]), hrest, Nat.zero_add]
      next hne =>
        have hsub : r - c ≠ 0 := sub_ne_zero.mpr hne
        rw [List.filter_cons_of_pos (by simp [hsub]), List.length_cons, hrest, Nat.add_comm]

theorem sum_filter_ne_zero [DecidableEq R] (ps : List (R × R)) (i : Nat) :
    ((ps.filter fun p => p.1 ≠ 0).map fun p => p.1 * p.2 ^ i).sum =
      (ps.map fun p => p.1 * p.2 ^ i).sum := by
  induction ps with
  | nil => rfl
  | cons p ps ih =>
    rcases eq_or_ne p.1 0 with hp | hp
    · rw [List.filter_cons_of_neg (by simp [hp]), ih, List.map_cons, List.sum_cons, hp, zero_mul,
        zero_add]
    · rw [List.filter_cons_of_pos (by simp [hp]), List.map_cons, List.sum_cons, ih, List.map_cons,
        List.sum_cons]

/-- Coefficients at different nodes are zero if as many power sums are. -/
theorem coeff_eq_zero_of_sums [IsDomain R] {qs : List (R × R)}
    (hnodup : (qs.map Prod.snd).Nodup)
    (hsum : ∀ i < qs.length, (qs.map fun p => p.1 * p.2 ^ i).sum = 0) : ∀ q ∈ qs, q.1 = 0 := by
  have hinj : Function.Injective fun j : Fin qs.length => (qs.get j).2 := by
    intro i j hij
    have heq := List.inj_on_of_nodup_map hnodup (qs.get_mem i) (qs.get_mem j) hij
    exact (List.Nodup.get_inj_iff hnodup.of_map).mp heq
  have hzero : (fun j : Fin qs.length => (qs.get j).1) = 0 := by
    apply Matrix.eq_zero_of_forall_pow_sum_mul_pow_eq_zero hinj
    intro i
    rw [← List.sum_ofFn, ← hsum i i.isLt]
    congr 1
    exact List.ofFn_getElem_eq_map qs fun p => p.1 * p.2 ^ (i : Nat)
  intro q hq
  obtain ⟨j, rfl⟩ := List.get_of_mem hq
  exact congrFun hzero j

/-- **The distance.** Words with the roots `1`, `a`, …, `a ^ (d - 1)` that are no longer than the
order of `a` are the same if they differ in `d` places at most. -/
theorem eq_of_dist_le [DecidableEq R] [IsDomain R] {a : R} {l m : List R} {d : Nat}
    (hlen : l.length = m.length)
    (ha : ∀ i < l.length, ∀ j < l.length, a ^ i = a ^ j → i = j)
    (hl : ∀ i < d, eval (a ^ i) l = 0) (hm : ∀ i < d, eval (a ^ i) m = 0)
    (hd : Hamming.dist l m ≤ d) : l = m := by
  have hnodup : ((gaps a l m).map Prod.snd).Nodup := by
    rw [gaps_nodes a hlen, List.nodup_map_iff_inj_on (List.nodup_reverse.mpr List.nodup_range)]
    intro i hi j hj
    rw [List.mem_reverse, List.mem_range] at hi hj
    exact ha i hi j hj
  have hcount := length_filter_gaps a hlen
  have hnone : (gaps a l m).filter (fun p => p.1 ≠ 0) = [] := by
    refine List.eq_nil_iff_forall_not_mem.mpr fun q hq => ?_
    have hsub : (((gaps a l m).filter fun p => p.1 ≠ 0).map Prod.snd).Nodup :=
      (List.filter_sublist.map Prod.snd).nodup hnodup
    have hzero := coeff_eq_zero_of_sums hsub fun i hi => by
      rw [sum_filter_ne_zero, sum_gaps a i hlen, hl i (by omega), hm i (by omega), sub_zero]
    exact of_decide_eq_true (List.mem_filter.mp hq).2 (hzero q hq)
  refine Hamming.eq_of_dist_eq_zero hlen ?_
  rw [← hcount, hnone, List.length_nil]

end ReedSolomon

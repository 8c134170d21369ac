import Mathlib.Data.List.Basic

/-!
# Texts as UTF-8

A text is a list of characters, and its encoding the bytes of one after the other. A text has at
most as many characters as its encoding has bytes, and as many only if it is ASCII. So a list of
bytes is the encoding of a text of its own length exactly if all its bytes are ASCII
(`exists_encode_iff`). To cut an encoding is to cut the text as long as both leave only ASCII
(`ascii_take_encode`).
-/

namespace Utf8

def encode (cs : List Char) : List UInt8 := cs.flatMap String.utf8EncodeChar

@[simp] theorem encode_nil : encode [] = [] := rfl

@[simp] theorem encode_cons (c : Char) (cs : List Char) :
    encode (c :: cs) = String.utf8EncodeChar c ++ encode cs := rfl

/-! ## One character -/

theorem encodeChar_ascii {c : Char} (h : c.toNat < 128) :
    String.utf8EncodeChar c = [UInt8.ofNat c.toNat] :=
  if_pos (Nat.le_of_lt_succ h)

theorem toNat_ofNat_of_lt (h : n < 256) : (UInt8.ofNat n).toNat = n := by
  rw [UInt8.toNat_ofNat']
  exact Nat.mod_eq_of_lt h

/-- No byte of a character that is not ASCII is an ASCII byte. -/
theorem le_of_mem_encodeChar {c : Char} (h : 128 ≤ c.toNat) (hb : b ∈ String.utf8EncodeChar c) :
    128 ≤ b.toNat := by
  have hbyte : ∀ n, 128 ≤ n → n < 256 → 128 ≤ (UInt8.ofNat n).toNat := by
    intro n hn hlt
    rw [toNat_ofNat_of_lt hlt]
    exact hn
  unfold String.utf8EncodeChar at hb
  change b ∈ ite (c.toNat ≤ 127) _ _ at hb
  rw [if_neg (by omega)] at hb
  split at hb
  next =>
    simp only [List.mem_cons, List.not_mem_nil, or_false] at hb
    rcases hb with rfl | rfl <;> exact hbyte _ (by omega) (by omega)
  next =>
    split at hb
    next =>
      simp only [List.mem_cons, List.not_mem_nil, or_false] at hb
      rcases hb with rfl | rfl | rfl <;> exact hbyte _ (by omega) (by omega)
    next =>
      simp only [List.mem_cons, List.not_mem_nil, or_false] at hb
      rcases hb with rfl | rfl | rfl | rfl <;> exact hbyte _ (by omega) (by omega)

theorem encodeChar_head {c : Char} (h : 128 ≤ c.toNat) :
    ∃ b bs, String.utf8EncodeChar c = b :: bs ∧ 128 ≤ b.toNat := by
  obtain ⟨b, bs, hbs⟩ := List.exists_cons_of_ne_nil (String.utf8EncodeChar_ne_nil (c := c))
  exact ⟨b, bs, hbs, le_of_mem_encodeChar h (hbs ▸ List.mem_cons_self)⟩

/-! ## Whole texts -/

/-- Only the null character has a null byte. -/
theorem ne_zero_of_mem_encode {cs : List Char} (h : ∀ c ∈ cs, c.toNat ≠ 0) (hb : b ∈ encode cs) :
    b ≠ 0 := by
  obtain ⟨c, hc, hb⟩ := List.mem_flatMap.mp hb
  rintro rfl
  rcases Nat.lt_or_ge c.toNat 128 with hlt | hge
  · rw [encodeChar_ascii hlt, List.mem_singleton] at hb
    have hzero := congrArg UInt8.toNat hb
    rw [toNat_ofNat_of_lt (by omega)] at hzero
    exact h c hc hzero.symm
  · exact absurd (le_of_mem_encodeChar hge hb) (by decide)

theorem length_le_length_encode (cs : List Char) : cs.length ≤ (encode cs).length := by
  induction cs with
  | nil => exact Nat.le_refl _
  | cons c cs ih =>
    have hpos := c.utf8Size_pos
    rw [encode_cons, List.length_append, String.length_utf8EncodeChar, List.length_cons]
    omega

theorem ascii_take_encode (cs : List Char) (n : Nat) :
    (∀ b ∈ (encode cs).take n, b.toNat < 128) ↔ ∀ c ∈ cs.take n, c.toNat < 128 := by
  induction cs generalizing n with
  | nil => simp
  | cons c cs ih =>
    cases n with
    | zero => simp
    | succ n =>
      rcases Nat.lt_or_ge c.toNat 128 with hlt | hge
      · have hbyte : (UInt8.ofNat c.toNat).toNat = c.toNat := toNat_ofNat_of_lt (by omega)
        rw [encode_cons, encodeChar_ascii hlt, List.singleton_append, List.take_succ_cons,
          List.take_succ_cons, List.forall_mem_cons, List.forall_mem_cons, ih, hbyte]
      · obtain ⟨b, bs, hbs, hb⟩ := encodeChar_head hge
        rw [encode_cons, hbs, List.cons_append, List.take_succ_cons, List.take_succ_cons,
          List.forall_mem_cons, List.forall_mem_cons]
        exact iff_of_false (fun h => Nat.not_lt.mpr hb h.1) fun h => Nat.not_lt.mpr hge h.1

/-- A text that is no longer than its characters is ASCII. -/
theorem ascii_of_length_encode {cs : List Char} (h : (encode cs).length = cs.length) :
    ∀ c ∈ cs, c.toNat < 128 := by
  induction cs with
  | nil => exact nofun
  | cons c cs ih =>
    have hle := length_le_length_encode cs
    have hpos := c.utf8Size_pos
    rw [encode_cons, List.length_append, String.length_utf8EncodeChar, List.length_cons] at h
    have hone : c.utf8Size = 1 := by omega
    refine List.forall_mem_cons.mpr ⟨?_, ih (by omega)⟩
    exact Nat.lt_succ_of_le (UInt32.le_iff_toNat_le.mp (Char.utf8Size_eq_one_iff.mp hone))

/-- ASCII bytes are the encoding of as many characters. -/
theorem exists_encode_of_ascii {bs : List UInt8} (h : ∀ b ∈ bs, b.toNat < 128) :
    ∃ cs, encode cs = bs ∧ cs.length = bs.length := by
  induction bs with
  | nil => exact ⟨[], rfl, rfl⟩
  | cons b bs ih =>
    obtain ⟨hb, hbs⟩ := List.forall_mem_cons.mp h
    obtain ⟨cs, hcs, hlen⟩ := ih hbs
    have hvalid : Nat.isValidChar b.toNat := .inl (by omega)
    have hchar : (Char.ofNat b.toNat).toNat = b.toNat := by
      rw [Char.ofNat, dif_pos hvalid]
      rfl
    refine ⟨Char.ofNat b.toNat :: cs, ?_, congrArg (· + 1) hlen⟩
    rw [encode_cons, encodeChar_ascii (by omega), hchar, hcs, List.singleton_append,
      UInt8.ofNat_toNat]

/-- **Bytes that are as many characters.** -/
theorem exists_encode_iff (bs : List UInt8) :
    (∃ cs, encode cs = bs ∧ cs.length = bs.length) ↔ ∀ b ∈ bs, b.toNat < 128 := by
  refine ⟨?_, exists_encode_of_ascii⟩
  rintro ⟨cs, rfl, hlen⟩
  have htake := ascii_take_encode cs (encode cs).length
  rw [List.take_length, ← hlen, List.take_length] at htake
  exact htake.mpr (ascii_of_length_encode hlen.symm)

end Utf8

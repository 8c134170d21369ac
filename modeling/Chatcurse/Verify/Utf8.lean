import Chatcurse.Theory.Utf8
import Chatcurse.Verify.Drawing

/-!
# Titles and texts in UTF-8

`draw_side` and `draw_main` count bytes where the terminal counts characters. What they write is a
text as wide as the pane exactly if all the characters that would be in sight are ASCII
(`text_covers_iff`). An empty title is an exception: its "deleted account" is cut, but not padded.
-/

namespace Chatcurse
open Utf8 (encode)

/-- The control characters, C0, delete and C1. -/
def Control (c : Char) : Prop := c.toNat < 32 ∨ 127 ≤ c.toNat ∧ c.toNat < 160

instance (c : Char) : Decidable (Control c) := inferInstanceAs (Decidable (_ ∨ _))

/-- Bytes that are whole characters, as many as there are columns. -/
def Covers (w : Nat) (s : Bytes) : Prop := ∃ cs, encode cs = s ∧ cs.length = w

namespace Client

theorem sideText_of_ne_nil {title : Bytes} (ht : title ≠ []) (h : ∀ b ∈ title, b ≠ 0) (w : Nat) :
    sideText title w = (title ++ blanks (w - title.length)).take w := by
  have hlen : title.length ≠ 0 := fun h0 => ht (List.length_eq_zero_iff.mp h0)
  rw [← cStr_padded h, sideText]
  simp only [if_neg hlen]
  split
  next => rfl
  next hge =>
    have hnone : blanks (w - title.length) = [] := by
      rw [Nat.sub_eq_zero_of_le (by omega)]
      rfl
    rw [hnone, List.append_nil]

/-- A text that is padded and cut by bytes covers its row if what is in sight of it is ASCII. -/
theorem covers_padded_iff (cs : List Char) (w : Nat) :
    Covers w ((encode cs ++ blanks (w - (encode cs).length)).take w) ↔
      ∀ c ∈ cs.take w, c.toNat < 128 := by
  have hlen : ((encode cs ++ blanks (w - (encode cs).length)).take w).length = w := by
    rw [List.length_take, List.length_append, length_blanks]
    omega
  have hiff := Utf8.exists_encode_iff ((encode cs ++ blanks (w - (encode cs).length)).take w)
  rw [hlen] at hiff
  rw [Covers, hiff, List.take_append, ← Utf8.ascii_take_encode]
  constructor
  · exact fun h b hb => h b (List.mem_append_left _ hb)
  · intro h b hb
    rcases List.mem_append.mp hb with hb | hb
    · exact h b hb
    · rw [List.eq_of_mem_replicate (List.mem_of_mem_take hb)]
      decide

theorem covers_deletedAccount_iff (w : Nat) : Covers w (sideText [] w) ↔ w ≤ 15 := by
  have htext : sideText [] w = (ascii "deleted account").take w :=
    cStr_eq_self fun b hb => (printable_deletedAccount b (List.mem_of_mem_take hb)).ne_zero
  rw [htext]
  constructor
  · rintro ⟨cs, hcs, rfl⟩
    have hle := Utf8.length_le_length_encode cs
    rw [hcs, List.length_take] at hle
    exact Nat.le_trans hle (Nat.min_le_right ..)
  · intro hw
    have hlen : ((ascii "deleted account").take w).length = w :=
      List.length_take_of_le hw
    have hname : ∀ b ∈ ascii "deleted account", b.toNat < 128 :=
      List.all_iff_forall_prop.mp (by decide)
    have hascii : ∀ b ∈ (ascii "deleted account").take w, b.toNat < 128 :=
      fun b hb => hname b (List.mem_of_mem_take hb)
    have hcovers := Utf8.exists_encode_of_ascii hascii
    rw [hlen] at hcovers
    exact hcovers

/-- **Whole characters.** A title or a text fills its row with whole characters exactly if those in
sight are ASCII; the name of a deleted account does if the pane is no wider than that. -/
theorem text_covers_iff (hcs : ∀ c ∈ cs, ¬Control c) (w : Nat) :
    (Covers w (sideText (encode cs) w) ↔
      if cs = [] then w ≤ 15 else ∀ c ∈ cs.take w, c.toNat < 128) ∧
    (Covers w (mainText (.messageText (encode cs)) w) ↔ ∀ c ∈ cs.take w, c.toNat < 128) := by
  have hzero : ∀ b ∈ encode cs, b ≠ 0 := by
    refine fun b => Utf8.ne_zero_of_mem_encode fun c hc h0 => ?_
    exact hcs c hc (.inl (by omega))
  constructor
  · split
    next hnil =>
      subst hnil
      exact covers_deletedAccount_iff w
    next hnil =>
      have hne : encode cs ≠ [] := by
        intro h0
        have hle := Utf8.length_le_length_encode cs
        rw [h0] at hle
        exact hnil (List.length_eq_zero_iff.mp (Nat.le_zero.mp hle))
      rw [sideText_of_ne_nil hne hzero, covers_padded_iff]
  · rw [mainText, cStr_padded hzero, covers_padded_iff]

/-- A character of two bytes beyond the last column does no harm. -/
theorem text_covers_iff_ascii :
    Covers 1 (sideText (encode ['d', 'é']) 1) ∧
      Covers 1 (mainText (.messageText (encode ['d', 'é'])) 1) := by
  have hcs : ∀ c ∈ ['d', 'é'], ¬Control c := List.all_iff_forall_prop.mp (by decide)
  have hascii : ∀ c ∈ ['d', 'é'].take 1, c.toNat < 128 := List.all_iff_forall_prop.mp (by decide)
  obtain ⟨hside, hmain⟩ := text_covers_iff hcs 1
  rw [if_neg (List.cons_ne_nil _ _)] at hside
  exact ⟨hside.mpr hascii, hmain.mpr hascii⟩

/-- A character of two bytes in a pane of one column is cut in two. -/
theorem text_cut_not_covers :
    sideText (encode ['é']) 1 = [0xC3] ∧ ¬Covers 1 (sideText (encode ['é']) 1) ∧
      ¬Covers 1 (mainText (.messageText (encode ['é'])) 1) := by
  have hcut : ¬Covers 1 [0xC3] := fun h => by
    have hascii := (Utf8.exists_encode_iff _).mp h
    exact absurd (hascii _ List.mem_cons_self) (by decide)
  exact ⟨by decide, hcut, hcut⟩

end Client
end Chatcurse

import Chatcurse.Verify.Drawing

/-!
# The rows of the message pane

`draw_main` writes a row for each message, from the last row of the window up. A text is cut and
padded to the width of the window, but a line feed in it takes the rest of it to the row below,
which was drawn before, and a null ends it before its row is filled; "<empty>" is not cut. A content
of none of these kinds `FillsRow` and `KeepsRow`. A drawing shows each message on its own row,
whatever the window held, and its writes leave the rows of each other alone, exactly when the
contents that it draws fill their rows and those above the last row keep to them
(`rowsDetermined_iff`). The messages that are not drawn do not matter.
-/

namespace Chatcurse

namespace MessageContent

/-- A text of single-byte characters that are printable or line feeds, or another content. -/
def Plain : MessageContent → Prop
  | messageText text => ∀ b ∈ text, Printable b ∨ b = 10
  | other _ => True

/-- A content whose writing leaves nothing of what its row held: no null comes within the width of
the window, unless after a line feed, which clears the row. -/
def FillsRow (w : Window) : MessageContent → Prop
  | messageText text => 0 ∈ text.take w.cols.toNat → 10 ∈ Client.cStr text
  | other _ => True

/-- A content whose writing ends on its row: no line feed but at the end of the row or right before
the null that ends the text, and what is not cut is no wider than the window. -/
def KeepsRow (w : Window) : MessageContent → Prop
  | messageText text => ∀ i < w.cols.toNat - 1, text[i]? = some 10 → 0 ∈ text.take (i + 2)
  | other _ => (ascii "<empty>").length ≤ w.cols.toNat

instance (w : Window) : DecidablePred (FillsRow w)
  | messageText _ => inferInstanceAs (Decidable (_ → _))
  | other _ => .isTrue trivial

instance (w : Window) : DecidablePred (KeepsRow w)
  | messageText _ => inferInstanceAs (Decidable (∀ _ < _, _ → _))
  | other _ => inferInstanceAs (Decidable (_ ≤ _))

end MessageContent

namespace Client
open MessageContent

/-! ## The text of a message -/

theorem cStr_cons_of_ne (h : b ≠ 0) (s : Bytes) : cStr (b :: s) = b :: cStr s :=
  List.takeWhile_cons_of_pos (by simpa using h)

theorem cStr_cons_zero (s : Bytes) : cStr (0 :: s) = [] := rfl

/-- What comes after a null is not written. -/
theorem cStr_append_of_mem {s : Bytes} (h : 0 ∈ s) (s' : Bytes) : cStr (s ++ s') = cStr s := by
  induction s with
  | nil => cases h
  | cons b s ih =>
    rcases eq_or_ne b 0 with rfl | hb
    · rfl
    · have hs : 0 ∈ s := (List.mem_cons.mp h).resolve_left hb.symm
      rw [List.cons_append, cStr_cons_of_ne hb, cStr_cons_of_ne hb, ih hs]

theorem length_cStr_lt {s : Bytes} (h : 0 ∈ s) : (cStr s).length < s.length := by
  induction s with
  | nil => cases h
  | cons b s ih =>
    rcases eq_or_ne b 0 with rfl | hb
    · exact Nat.succ_pos _
    · have hs : 0 ∈ s := (List.mem_cons.mp h).resolve_left hb.symm
      rw [cStr_cons_of_ne hb]
      exact Nat.succ_lt_succ (ih hs)

/-- The line feeds before the last byte that is written. -/
theorem feed_dropLast_cStr_iff (s : Bytes) : (∀ b ∈ (cStr s).dropLast, b ≠ 10) ↔
    ∀ i < s.length - 1, s[i]? = some 10 → 0 ∈ s.take (i + 2) := by
  induction s with
  | nil => exact iff_of_true nofun nofun
  | cons b s ih =>
    rcases eq_or_ne b 0 with rfl | hb
    · exact iff_of_true nofun fun i _ _ => List.mem_cons_self
    cases s with
    | nil =>
      rw [cStr_cons_of_ne hb]
      exact iff_of_true nofun nofun
    | cons b' s =>
      rcases eq_or_ne b' 0 with rfl | hb'
      · rw [cStr_cons_of_ne hb, cStr_cons_zero]
        exact iff_of_true nofun fun i _ _ => List.mem_cons_of_mem _ List.mem_cons_self
      · have hcons : cStr (b' :: s) ≠ [] := by simp [cStr_cons_of_ne hb']
        rw [cStr_cons_of_ne hb, List.dropLast_cons_of_ne_nil hcons, List.forall_mem_cons, ih]
        constructor
        · rintro ⟨hfeed, hrest⟩ i hi hget
          cases i with
          | zero => exact (hfeed (Option.some.inj hget)).elim
          | succ i => exact List.mem_cons_of_mem _ (hrest i (Nat.lt_of_succ_lt_succ hi) hget)
        · refine fun h => ⟨fun hfeed => ?_, fun i hi hget => ?_⟩
          · have hzero := h 0 (Nat.succ_pos _) (congrArg some hfeed)
            simp [hb.symm, hb'.symm] at hzero
          · have hzero := h (i + 1) (Nat.succ_lt_succ hi) hget
            exact (List.mem_cons.mp hzero).resolve_left hb.symm

/-- A text as `draw_main` pads and cuts it. -/
def padded (text : Bytes) (width : Nat) : Bytes :=
  (text ++ blanks (width - text.length)).take width

theorem length_padded (text : Bytes) (width : Nat) : (padded text width).length = width := by
  rw [padded, List.length_take, List.length_append, length_blanks]
  omega

/-- The blanks aside, padding and cutting change nothing within the width. -/
theorem mem_take_padded_iff {text : Bytes} (hb : b ≠ 32) (hn : n ≤ width) :
    b ∈ (padded text width).take n ↔ b ∈ text.take n := by
  rw [padded, List.take_take, Nat.min_eq_left hn, List.take_append, List.mem_append]
  refine or_iff_left fun hmem => hb ?_
  exact List.eq_of_mem_replicate (List.mem_of_mem_take hmem)

theorem padded_getElem?_eq_some_iff {text : Bytes} (hb : b ≠ 32) (hi : i < width) :
    (padded text width)[i]? = some b ↔ text[i]? = some b := by
  rw [padded, List.getElem?_take_of_lt hi]
  rcases Nat.lt_or_ge i text.length with hlt | hge
  · rw [List.getElem?_append_left hlt]
  · rw [List.getElem?_append_right hge, List.getElem?_eq_none hge]
    refine iff_of_false (fun hget => hb ?_) nofun
    exact List.eq_of_mem_replicate (List.mem_of_getElem? hget)

/-- Which contents fill their row. -/
theorem fills_mainText_iff {w : Window} {content : MessageContent} :
    10 ∈ mainText content w.cols.toNat ∨
      w.cols.toNat ≤ (mainText content w.cols.toNat).length ↔ content.FillsRow w := by
  cases content with
  | messageText text =>
    have hmain : mainText (messageText text) w.cols.toNat = cStr (padded text w.cols.toNat) := rfl
    have hmem : 0 ∈ padded text w.cols.toNat ↔ 0 ∈ text.take w.cols.toNat := by
      rw [← mem_take_padded_iff (by decide) (Nat.le_refl _),
        List.take_of_length_le (Nat.le_of_eq (length_padded ..))]
    rw [hmain, FillsRow]
    by_cases hzero : 0 ∈ text.take w.cols.toNat
    · have hlt := length_cStr_lt (hmem.mpr hzero)
      rw [length_padded] at hlt
      have hcStr : cStr (padded text w.cols.toNat) = cStr text := by
        rw [padded, List.take_append, cStr_append_of_mem hzero]
        conv_rhs => rw [← List.take_append_drop w.cols.toNat text, cStr_append_of_mem hzero]
      rw [or_iff_left (Nat.not_le_of_gt hlt), hcStr]
      exact (imp_iff_right hzero).symm
    · have hself : cStr (padded text w.cols.toNat) = padded text w.cols.toNat := by
        refine cStr_eq_self fun b hb h => hzero (hmem.mp ?_)
        exact h ▸ hb
      refine iff_of_true (.inr ?_) fun h => (hzero h).elim
      rw [hself, length_padded]
  | other id =>
    refine iff_of_true (.inr ?_) trivial
    rw [mainText, List.length_append, length_blanks]
    omega

theorem Write.isFeed_item (x : Write) (b : UInt8) : (x.item b).isFeed = decide (b = 10) := by
  unfold item
  split
  next h => exact (decide_eq_true h).symm
  next h => exact (decide_eq_false h).symm

/-- Which contents are written on one row. -/
theorem stays_mainText_iff {x : Write} {w : Window} {content : MessageContent}
    (hx : x.text = mainText content w.cols.toNat) :
    Grid.Stays w.cols.toNat 0 (x.text.map x.item) ↔ content.KeepsRow w := by
  have hcols : 0 < w.cols.toNat := Int.pos_iff_toNat_pos.mp w.cols_pos
  cases content with
  | messageText text =>
    have hmain : x.text = cStr (padded text w.cols.toNat) := hx
    have hlen : x.text.length ≤ w.cols.toNat := by
      rw [hmain]
      exact (List.takeWhile_sublist _).length_le.trans (Nat.le_of_eq (length_padded ..))
    rw [Grid.stays_iff_dropLast (by simpa using hlen), ← List.map_dropLast]
    simp only [List.forall_mem_map, Write.isFeed_item, decide_eq_false_iff_not]
    rw [hmain, feed_dropLast_cStr_iff, length_padded, KeepsRow]
    refine forall_congr' fun i => imp_congr_right fun hi => ?_
    rw [padded_getElem?_eq_some_iff (by decide) (by omega),
      mem_take_padded_iff (by decide) (by omega)]
  | other id =>
    have hfeed : ∀ b ∈ x.text, b ≠ 10 := by
      intro b hb
      rcases List.mem_append.mp (hx ▸ hb) with hb | hb
      · have hempty : ∀ b ∈ ascii "<empty>", b ≠ 10 := List.all_iff_forall_prop.mp (by decide)
        exact hempty b hb
      · exact (printable_blanks _ b hb).ne_feed
    rw [Write.items_of_no_feed hfeed, Grid.stays_map_put_iff hcols, hx, List.length_map, mainText,
      List.length_append, length_blanks, KeepsRow]
    omega

/-! ## One row -/

theorem Write.line_items (x : Write) (s : Bytes) :
    Grid.line (s.map x.item) = (s.takeWhile (· ≠ 10)).map (⟨·, x.reversed⟩) := by
  induction s with
  | nil => rfl
  | cons b s ih =>
    by_cases hb : b = 10
    · simp [Write.item, hb, Grid.line]
    · simp [Write.item, hb, Grid.line, ih]

theorem takeWhile_of_no_feed {s : Bytes} (h : ∀ b ∈ s, b ≠ 10) : s.takeWhile (· ≠ 10) = s :=
  List.takeWhile_eq_self_iff.mpr fun b hb => by simpa using h b hb

/-- A cell of its row after a write. -/
theorem Write.addTo_own {w : Window} {x : Write} (hrow : x.row < w.lines.toNat) (g : Grid Cell)
    (hcol : col < w.cols.toNat) :
    x.addTo w g x.row col = ((x.text.takeWhile (· ≠ 10))[col]?.map (⟨·, x.reversed⟩)).getD
      (if 10 ∈ x.text then .blank else g x.row col) := by
  have hany : (x.text.map x.item).any (·.isFeed) = decide (10 ∈ x.text) := by
    rw [List.any_map, Bool.eq_iff_iff, List.any_eq_true, decide_eq_true_iff]
    simp [isFeed_item]
  rw [addTo, if_pos hrow, Grid.write_own (Nat.zero_le _) hcol, line_items, Nat.sub_zero,
    List.getElem?_map, hany]
  simp only [decide_eq_true_iff]

/-- Which writes show on their row what they write and nothing else, whatever it held. -/
theorem Write.shows_iff {w : Window} {x : Write} (hrow : x.row < w.lines.toNat)
    (hrev : x.reversed = false) :
    (∀ g, RowShows w (x.addTo w g) x.row (x.text.takeWhile (· ≠ 10)) false) ↔
      10 ∈ x.text ∨ w.cols.toNat ≤ x.text.length := by
  constructor
  · intro h
    by_contra! hnot
    obtain ⟨hfeed, hlt⟩ := hnot
    -- the cell after the text keeps what it held
    have hcell := h (fun _ _ => ⟨33, false⟩) x.text.length hlt
    rw [addTo_own hrow _ hlt, if_neg hfeed,
      takeWhile_of_no_feed fun b hb h => hfeed (h ▸ hb),
      List.getElem?_eq_none (Nat.le_refl _)] at hcell
    cases hcell
  · intro h g col hcol
    rw [addTo_own hrow g hcol, hrev]
    by_cases hfeed : 10 ∈ x.text
    · rw [if_pos hfeed]
      cases (x.text.takeWhile (· ≠ 10))[col]? <;> rfl
    · have hlen := h.resolve_left hfeed
      rw [takeWhile_of_no_feed fun b hb h => hfeed (h ▸ hb), List.getElem?_eq_getElem (by omega)]
      rfl

/-- A write that alters no other row of the window, whatever that row holds. -/
def Write.Apart (w : Window) (x : Write) : Prop :=
  ∀ g, ∀ r < w.lines.toNat, r ≠ x.row → x.addTo w g r = g r

theorem Write.apart_iff {w : Window} {x : Write} (hrow : x.row < w.lines.toNat) :
    x.Apart w ↔
      x.row + 1 = w.lines.toNat ∨ Grid.Stays w.cols.toNat 0 (x.text.map x.item) := by
  have hcols : 0 < w.cols.toNat := Int.pos_iff_toNat_pos.mp w.cols_pos
  simp only [Apart, addTo, if_pos hrow]
  constructor
  · intro h
    by_contra! hnot
    obtain ⟨hlast, hstays⟩ := hnot
    have hbelow : x.row + 1 < w.lines.toNat := by omega
    obtain ⟨a, ha⟩ : ∃ a, ∀ g : Grid Cell, Grid.write w.lines.toNat w.cols.toNat .blank x.row 0
        (x.text.map x.item) g (x.row + 1) 0 = a := Grid.exists_write_below hstays hbelow hcols
    -- whatever the cell below held, it now is `a`
    have hcell : ∀ b : Cell, a = b := fun b => (ha fun _ _ => b).symm.trans
      (congrFun (h (fun _ _ => b) (x.row + 1) hbelow (Nat.succ_ne_self _)) 0)
    exact absurd ((hcell ⟨33, false⟩).symm.trans (hcell .blank)) (by decide)
  · rintro (hlast | hstays) g r hr hne
    · exact Grid.write_above (by omega)
    · exact Grid.write_of_stays hstays hne

/-- What `draw_main` writes on row `i` for a message or the end of the set. -/
def mainRow (width i : Nat) : Option Message → Write
  | some m => ⟨i, mainText m.content width, false, some m.id⟩
  | none => ⟨i, blanks width, false, none⟩

@[simp] theorem mainRow_row (width i : Nat) (o : Option Message) : (mainRow width i o).row = i := by
  cases o <;> rfl

/-- What a row shows for a message, up to its first line feed, or for none. -/
def rowText (width : Nat) : Option Message → Bytes
  | some m => (mainText m.content width).takeWhile (· ≠ 10)
  | none => []

theorem mainRow_shows_iff {w : Window} {o : Option Message} (hrow : i < w.lines.toNat) :
    (∀ g, RowShows w ((mainRow w.cols.toNat i o).addTo w g) i (rowText w.cols.toNat o) false) ↔
      ∀ m ∈ o, m.content.FillsRow w := by
  cases o with
  | some m =>
    have hiff := Write.shows_iff (x := mainRow w.cols.toNat i (some m)) hrow rfl
    exact (hiff.trans fills_mainText_iff).trans (by simp)
  | none =>
    refine iff_of_true (fun g col hcol => ?_) nofun
    have hshows := (Write.shows_iff (w := w) (x := mainRow w.cols.toNat i none) hrow rfl).mpr
      (.inr (Nat.le_of_eq (length_blanks _).symm)) g col hcol
    have hblanks : (blanks w.cols.toNat)[col]? = some 32 := by simp [blanks, hcol]
    rw [mainRow, takeWhile_of_no_feed fun b hb => (printable_blanks _ b hb).ne_feed,
      hblanks] at hshows
    exact hshows

theorem mainRow_apart_iff {w : Window} {o : Option Message} (hrow : i < w.lines.toNat) :
    (mainRow w.cols.toNat i o).Apart w ↔
      i + 1 = w.lines.toNat ∨ ∀ m ∈ o, m.content.KeepsRow w := by
  rw [Write.apart_iff (by simpa using hrow), mainRow_row]
  refine or_congr_right ?_
  cases o with
  | some m => exact (stays_mainText_iff rfl).trans (by simp)
  | none =>
    refine iff_of_true ?_ nofun
    rw [Write.items_of_no_feed fun b hb => (printable_blanks _ b hb).ne_feed]
    exact Grid.stays_map_put (by simp [mainRow])

/-! ## All rows -/

theorem mainRows_succ (width n : Nat) (it : List Message) :
    mainRows width (n + 1) it = mainRow width n it[0]? :: mainRows width n it.tail := by
  cases it <;> rfl

/-- The writes of the loop, a row for each. -/
theorem mem_mainRows {it : List Message} :
    x ∈ mainRows width n it ↔ ∃ i < n, x = mainRow width i it[n - 1 - i]? := by
  induction n generalizing it with
  | zero => simp [mainRows]
  | succ n ih =>
    rw [mainRows_succ, List.mem_cons, ih]
    have htail : ∀ i < n, it.tail[n - 1 - i]? = it[n + 1 - 1 - i]? := by
      intro i hi
      rw [List.getElem?_tail, show n - 1 - i + 1 = n + 1 - 1 - i by omega]
    constructor
    · rintro (rfl | ⟨i, hi, rfl⟩)
      · exact ⟨n, Nat.lt_succ_self n, by rw [show n + 1 - 1 - n = 0 by omega]⟩
      · exact ⟨i, Nat.lt_succ_of_lt hi, by rw [htail i hi]⟩
    · rintro ⟨i, hi, rfl⟩
      rcases Nat.eq_or_lt_of_le (Nat.le_of_lt_succ hi) with rfl | hlt
      · exact .inl (by rw [show i + 1 - 1 - i = 0 by omega])
      · exact .inr ⟨i, hlt, by rw [htail i hlt]⟩

/-- **Rows that are drawn apart**, from row `n` of the window up, are as the writes on each of them
alone leave them. -/
theorem paint_mainRows {w : Window} {it : List Message} (hn : n ≤ w.lines.toNat)
    (hapart : ∀ x ∈ mainRows w.cols.toNat n it, x.Apart w) (g : Grid Cell) :
    (∀ r < n, ∀ col < w.cols.toNat, paint w (mainRows w.cols.toNat n it) g r col =
      (mainRow w.cols.toNat r it[n - 1 - r]?).addTo w g r col) ∧
    ∀ r < w.lines.toNat, n ≤ r → paint w (mainRows w.cols.toNat n it) g r = g r := by
  induction n generalizing it g with
  | zero => exact ⟨nofun, fun _ _ _ => rfl⟩
  | succ n ih =>
    rw [mainRows_succ, List.forall_mem_cons] at hapart
    obtain ⟨hhead, htail⟩ := hapart
    rw [Write.Apart, mainRow_row] at hhead
    obtain ⟨hbelow, habove⟩ := ih (by omega) htail ((mainRow w.cols.toNat n it[0]?).addTo w g)
    rw [mainRows_succ, paint, List.foldl_cons, ← paint]
    refine ⟨fun r hr col hcol => ?_, fun r hr hge => ?_⟩
    · rcases Nat.eq_or_lt_of_le (Nat.le_of_lt_succ hr) with rfl | hlt
      · rw [habove r (by omega) (Nat.le_refl r), show r + 1 - 1 - r = 0 by omega]
      · -- the row still held what it held before
        have hsame := hhead g r (by omega) (Nat.ne_of_lt hlt)
        rw [hbelow r hlt col hcol, List.getElem?_tail,
          show n - 1 - r + 1 = n + 1 - 1 - r by omega]
        have hown := fun g : Grid Cell => Write.addTo_own (w := w)
          (x := mainRow w.cols.toNat r it[n + 1 - 1 - r]?) (by simp; omega) g hcol
        simp only [mainRow_row] at hown
        rw [hown, hown, hsame]
    · rw [habove r hr (by omega), hhead g r hr (by omega)]

/-- Which messages are drawn one to a row. -/
theorem mainRows_determined_iff (w : Window) (it : List Message) :
    ((∀ g, ∀ r < w.lines.toNat, RowShows w (paint w (mainRows w.cols.toNat w.lines.toNat it) g) r
      (rowText w.cols.toNat it[w.lines.toNat - 1 - r]?) false) ∧
    ∀ x ∈ mainRows w.cols.toNat w.lines.toNat it, x.Apart w) ↔
    ∀ r < w.lines.toNat, ∀ m ∈ it[w.lines.toNat - 1 - r]?,
      m.content.FillsRow w ∧ (r + 1 = w.lines.toNat ∨ m.content.KeepsRow w) := by
  constructor
  · rintro ⟨hshows, hapart⟩ r hr m hm
    have hkeeps := (mainRow_apart_iff hr).mp (hapart _ (mem_mainRows.mpr ⟨r, hr, rfl⟩))
    have hfills : ∀ g, RowShows w ((mainRow w.cols.toNat r it[w.lines.toNat - 1 - r]?).addTo w g) r
        (rowText w.cols.toNat it[w.lines.toNat - 1 - r]?) false := by
      intro g col hcol
      rw [← (paint_mainRows (Nat.le_refl _) hapart g).1 r hr col hcol]
      exact hshows g r hr col hcol
    exact ⟨(mainRow_shows_iff hr).mp hfills m hm, hkeeps.imp_right fun h => h m hm⟩
  · intro h
    have hapart : ∀ x ∈ mainRows w.cols.toNat w.lines.toNat it, x.Apart w := by
      intro x hx
      obtain ⟨i, hi, rfl⟩ := mem_mainRows.mp hx
      rw [mainRow_apart_iff hi]
      exact or_iff_not_imp_left.mpr fun hlast m hm => (h i hi m hm).2.resolve_left hlast
    refine ⟨fun g r hr col hcol => ?_, hapart⟩
    rw [(paint_mainRows (Nat.le_refl _) hapart g).1 r hr col hcol]
    exact (mainRow_shows_iff hr).mpr (fun m hm => (h r hr m hm).1) g col hcol

theorem drawMain_eq {c : Client} (hw : c.window .main = some w) (hchosen : c.chosenChatId ≠ -1)
    (hoff : c.scrollOffset .main ≤ c.chosenMessages.size) :
    c.drawMain = some (mainRows w.cols.toNat w.lines.toNat
      (c.chosenMessages.elems.drop (c.scrollOffset .main))) := by
  have hadv := OrdSet.advance_eq_some.mpr ⟨hoff, rfl⟩
  rw [drawMain, if_neg hchosen, hadv, Option.bind_some, hw, Option.map_some]

/-- The drawing gives every message its own row: whatever the window held, each row shows the
message of its rank up to its first line feed, and blanks after that or if there is none, and
writing a message alters no other row, whatever that row holds. -/
def RowsDetermined (c : Client) (w : Window) : Prop :=
  ∃ writes, c.drawMain = some writes ∧
    (∀ g, ∀ r < w.lines.toNat, RowShows w (paint w writes g) r
      (rowText w.cols.toNat
        c.chosenMessages.elems[c.scrollOffset .main + (w.lines.toNat - 1 - r)]?) false) ∧
    ∀ x ∈ writes, x.Apart w

/-- A client that shows these messages in this window. -/
def showing (w : Window) (ms : MessageSet) : Client :=
  { init System.screen5x4 with
    chosenChatId := 0
    messages := fun _ => ms
    layout := { Layout.init System.screen5x4 with panels := fun _ => some w } }

def newest : Message := ⟨2, 0, 2, .messageText (ascii "b")⟩

/-- Three messages for three rows, one of which ends in a line feed at the margin, and an older one
off screen that begins with a line feed. -/
def feedOffScreen : MessageSet :=
  ⟨[⟨4, 0, 4, .messageText (ascii "d")⟩, ⟨3, 0, 3, .messageText (ascii "c\n")⟩, newest,
    ⟨1, 0, 1, .messageText (ascii "\na")⟩], by decide⟩

/-- The newest message alone. -/
def alone : MessageSet := ⟨[newest], List.pairwise_singleton ..⟩

/-- The newest message after one that begins with a line feed. -/
def afterFeed : MessageSet :=
  ⟨[newest, ⟨1, 0, 1, .messageText (ascii "\nc")⟩], List.pairwise_pair.mpr (by decide)⟩

end Client
end Chatcurse

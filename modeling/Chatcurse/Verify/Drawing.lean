import Chatcurse.Paint
import Chatcurse.Verify.System
import Mathlib.Data.Bool.AllAny
import Mathlib.Data.List.TakeWhile

/-!
# What the side window shows

`draw_side` writes a row for each chat from the offset on, the title cut or padded to the width of
the window, and blanks from the end of the list down to the row that its size counts to. It writes
neither the rows below nor what is beside "deleted account", so the window shows the list and
nothing else exactly when it held nothing else there, once every chat in sight is in the table
(`drawSide_shown_iff`). After a chat left the list its row can be one of these
(`drawSide_leftover`).
-/

namespace Chatcurse

/-- A printable character of a single-byte encoding. -/
def Printable (b : UInt8) : Prop := 32 ≤ b ∧ b ≠ 127 ∧ (b < 127 ∨ 160 ≤ b)

instance (b : UInt8) : Decidable (Printable b) := inferInstanceAs (Decidable (_ ∧ _ ∧ _))

theorem Printable.ne_zero (h : Printable b) : b ≠ 0 := by
  rintro rfl
  exact absurd h.1 (by decide)

theorem Printable.ne_feed (h : Printable b) : b ≠ 10 := by
  rintro rfl
  exact absurd h.1 (by decide)

namespace Client

theorem cStr_eq_self {s : Bytes} (h : ∀ b ∈ s, b ≠ 0) : cStr s = s :=
  List.takeWhile_eq_self_iff.mpr fun b hb => by simpa using h b hb

/-! ## One write -/

/-- A text without line feeds that is no wider than the window. -/
structure Write.Fits (w : Window) (x : Write) : Prop where
  no_feed : ∀ b ∈ x.text, b ≠ 10
  width : x.text.length ≤ w.cols.toNat

theorem Write.items_of_no_feed {x : Write} (h : ∀ b ∈ x.text, b ≠ 10) :
    x.text.map x.item = (x.text.map (⟨·, x.reversed⟩)).map .put := by
  rw [List.map_map]
  refine List.map_congr_left fun b hb => ?_
  rw [Write.item, if_neg (h b hb)]
  rfl

/-- A cell after a write that fits. -/
theorem Write.Fits.addTo {w : Window} {x : Write} (h : x.Fits w) (g : Grid Cell)
    (hrow : x.row < w.lines.toNat) (hcol : col < w.cols.toNat) :
    x.addTo w g r col =
      if r = x.row then (x.text[col]?.map (⟨·, x.reversed⟩)).getD (g r col) else g r col := by
  rw [Write.addTo, if_pos hrow, items_of_no_feed h.no_feed]
  split
  next hr =>
    subst hr
    rw [Grid.write_own (Nat.zero_le _) hcol, Grid.line_map_put, Nat.sub_zero, List.getElem?_map]
    congr 1
    simp [Grid.Item.isFeed]
  next hr =>
    rw [Grid.write_of_stays (Grid.stays_map_put ?_) hr]
    simpa using h.width

/-- A cell after writes on the first rows, one for each of them. -/
theorem paint_range {w : Window} {f : Nat → Write} (hf : ∀ i, (f i).row = i ∧ (f i).Fits w)
    (hn : n ≤ w.lines.toNat) (g : Grid Cell) (hcol : col < w.cols.toNat) :
    paint w ((List.range n).map f) g r col =
      if r < n then ((f r).text[col]?.map (⟨·, (f r).reversed⟩)).getD (g r col) else g r col := by
  induction n with
  | zero => rfl
  | succ n ih =>
    obtain ⟨hrow, hfits⟩ := hf n
    rw [List.range_succ, List.map_append, List.map_singleton, paint, List.foldl_concat, ← paint,
      hfits.addTo _ (by omega) hcol, ih (by omega), hrow]
    split
    next hr =>
      subst hr
      rw [if_neg (Nat.lt_irrefl r), if_pos (Nat.lt_succ_self r)]
    next hr =>
      by_cases hlt : r < n
      · rw [if_pos hlt, if_pos (by omega)]
      · rw [if_neg hlt, if_neg (by omega)]

/-! ## The side pane -/

/-- What `draw_side` writes on row `i` for an entry of the list or its end. -/
def sideRow (c : Client) (maxx i : Nat) (p : Option (Int × Int)) : Write :=
  match p.bind fun p => c.store.idToChat p.2 with
  | some chat => ⟨i, sideText chat.title maxx, c.chosenChatId = chat.id, some chat.id⟩
  | none => ⟨i, blanks maxx, false, none⟩

theorem sideRow_some {c : Client} {p : Int × Int} (h : c.store.idToChat p.2 = some chat) :
    c.sideRow maxx i (some p) =
      ⟨i, sideText chat.title maxx, c.chosenChatId = chat.id, some chat.id⟩ := by
  simp [sideRow, h]

theorem sideRow_row (c : Client) (maxx i : Nat) (p : Option (Int × Int)) :
    (c.sideRow maxx i p).row = i := by
  unfold sideRow
  split <;> rfl

/-- The loop of `draw_side` over chats that are in the table. -/
theorem sideRows_eq {c : Client} {pos : List (Int × Int)}
    (h : ∀ j < n, ∀ p ∈ pos[j]?, ∃ chat, c.store.idToChat p.2 = some chat) (maxx i : Nat) :
    c.sideRows maxx i n pos =
      some ((List.range n).map fun j => c.sideRow maxx (i + j) pos[j]?) := by
  induction n generalizing i pos with
  | zero => rfl
  | succ n ih =>
    rw [List.range_succ_eq_map, List.map_cons, List.map_map]
    have hstep : ∀ j, i + 1 + j = i + (j + 1) := by omega
    cases pos with
    | nil =>
      rw [sideRows, ih (by simp), Option.map_some]
      simp only [hstep]
      rfl
    | cons p pos =>
      obtain ⟨chat, hchat⟩ := h 0 (Nat.succ_pos n) p rfl
      have hrest : ∀ j < n, ∀ q ∈ pos[j]?, ∃ chat, c.store.idToChat q.2 = some chat :=
        fun j hj => h (j + 1) (Nat.succ_lt_succ hj)
      rw [sideRows, hchat, Option.bind_some, ih hrest, Option.map_some]
      simp only [hstep]
      refine congrArg (fun x => some (x :: _)) ?_
      simp [sideRow, hchat]

/-- The chats on the rows of the side window are in the table. -/
def RowsListed (c : Client) (w : Window) : Prop :=
  ∀ r < w.lines.toNat, ∀ p ∈ c.chatlist.elems[c.scrollOffset .side + r]?,
    ∃ chat, c.store.idToChat p.2 = some chat

/-- `draw_side` on a state in which nothing that it reads is missing. -/
theorem drawSide_eq {c : Client} (hw : c.window .side = some w)
    (hoff : c.scrollOffset .side ≤ c.chatlist.size) (hchats : c.RowsListed w) :
    c.drawSide = some ((List.range (min c.chatlist.size w.lines.toNat)).map fun r =>
      c.sideRow w.cols.toNat r c.chatlist.elems[c.scrollOffset .side + r]?) := by
  have hadv := OrdSet.advance_eq_some.mpr ⟨hoff, rfl⟩
  rw [drawSide, hw, Option.bind_some, hadv, Option.bind_some, sideRows_eq]
  · simp only [Nat.zero_add, List.getElem?_drop]
  · intro j hj p hp
    rw [List.getElem?_drop] at hp
    exact hchats j (Nat.lt_of_lt_of_le hj (Nat.min_le_right _ _)) p hp

@[simp] theorem length_blanks (n : Nat) : (blanks n).length = n := List.length_replicate

theorem printable_blanks (n : Nat) : ∀ b ∈ blanks n, Printable b := by
  intro b hb
  rw [List.eq_of_mem_replicate hb]
  decide

/-- A text that is padded and cut to a width. -/
theorem cStr_padded {s : Bytes} (h : ∀ b ∈ s, b ≠ 0) (width : Nat) :
    cStr ((s ++ blanks (width - s.length)).take width) =
      (s ++ blanks (width - s.length)).take width := by
  apply cStr_eq_self
  intro b hb
  rcases List.mem_append.mp (List.mem_of_mem_take hb) with hb | hb
  · exact h b hb
  · exact (printable_blanks _ b hb).ne_zero

theorem printable_deletedAccount : ∀ b ∈ ascii "deleted account", Printable b :=
  List.all_iff_forall_prop.mp (by decide)

theorem printable_sideText {title : Bytes} (h : ∀ b ∈ title, Printable b) (maxx : Nat) :
    sideText title maxx = (if title.length = 0 then ascii "deleted account"
      else if title.length < maxx then title ++ blanks (maxx - title.length)
      else title).take maxx ∧ ∀ b ∈ sideText title maxx, Printable b := by
  have hname : ∀ b ∈ (if title.length = 0 then ascii "deleted account"
      else if title.length < maxx then title ++ blanks (maxx - title.length)
      else title).take maxx, Printable b := by
    intro b hb
    have hb := List.mem_of_mem_take hb
    split at hb
    · exact printable_deletedAccount b hb
    split at hb
    · rcases List.mem_append.mp hb with hb | hb
      · exact h b hb
      · exact printable_blanks _ b hb
    · exact h b hb
  have heq := cStr_eq_self fun b hb => (hname b hb).ne_zero
  exact ⟨heq, fun b hb => hname b (heq ▸ hb)⟩

/-- The name a title is shown as. -/
def sideName (title : Bytes) : Bytes := if title = [] then ascii "deleted account" else title

/-- A title is padded, the name of a deleted account is not. -/
theorem sideText_getElem? {title : Bytes} (h : ∀ b ∈ title, Printable b) (hx : x < maxx) :
    (sideText title maxx)[x]? =
      if title = [] then (sideName title)[x]? else some ((sideName title)[x]?.getD 32) := by
  rw [(printable_sideText h maxx).1, List.getElem?_take_of_lt hx, sideName]
  by_cases ht : title = []
  · simp [ht]
  · have hlen : title.length ≠ 0 := fun h0 => ht (List.length_eq_zero_iff.mp h0)
    rw [if_neg hlen, if_neg ht, if_neg ht]
    by_cases hlt : x < title.length
    · have hcell : title[x]? = some title[x] := List.getElem?_eq_getElem hlt
      split
      · rw [List.getElem?_append_left hlt, hcell, Option.getD_some]
      · rw [hcell, Option.getD_some]
    · rw [if_pos (by omega), List.getElem?_append_right (by omega),
        List.getElem?_eq_none (l := title) (by omega), blanks, List.getElem?_replicate,
        if_pos (by omega), Option.getD_none]

theorem sideRow_fits {c : Client} {w : Window} {p : Option (Int × Int)}
    (h : ∀ q ∈ p, ∀ chat ∈ c.store.idToChat q.2, ∀ b ∈ chat.title, Printable b) (i : Nat) :
    (c.sideRow w.cols.toNat i p).Fits w := by
  unfold sideRow
  split
  next chat hchat =>
    obtain ⟨q, hq, hchat⟩ := Option.bind_eq_some_iff.mp hchat
    obtain ⟨heq, hprint⟩ := printable_sideText (h q hq chat hchat) w.cols.toNat
    refine ⟨fun b hb => (hprint b hb).ne_feed, ?_⟩
    change (sideText chat.title w.cols.toNat).length ≤ w.cols.toNat
    rw [heq]
    exact List.length_take_le _ _
  next =>
    exact ⟨fun b hb => (printable_blanks _ b hb).ne_feed, by simp⟩

/-- A row that shows a text cut or padded to the full width. -/
def RowShows (w : Window) (g : Grid Cell) (r : Nat) (text : Bytes) (reversed : Bool) : Prop :=
  ∀ x < w.cols.toNat, g r x = ⟨text[x]?.getD 32, reversed⟩

/-- The side window shows the chats from the offset on, a row for each, and nothing else. -/
def SideShown (c : Client) (w : Window) (g : Grid Cell) : Prop :=
  ∀ r < w.lines.toNat, match c.chatlist.elems[c.scrollOffset .side + r]? with
    | some p => ∃ chat, c.store.idToChat p.2 = some chat ∧
      RowShows w g r (sideName chat.title) (c.chosenChatId = chat.id)
    | none => RowShows w g r [] false

/-- What `draw_side` does not write was as it should be: the rows from the list's size on were
blank, and so were the cells beside "deleted account". -/
def SideLeft (c : Client) (w : Window) (g : Grid Cell) : Prop :=
  ∀ r < w.lines.toNat, (c.chatlist.size ≤ r → RowShows w g r [] false) ∧
    ∀ p ∈ c.chatlist.elems[c.scrollOffset .side + r]?, ∀ chat ∈ c.store.idToChat p.2,
      chat.title = [] → ∀ x, (ascii "deleted account").length ≤ x → x < w.cols.toNat →
        g r x = ⟨32, c.chosenChatId = chat.id⟩

/-- A row after a title was written on it. -/
theorem rowShows_title_iff {w : Window} {g g' : Grid Cell} {title : Bytes} {reversed : Bool}
    (h : ∀ b ∈ title, Printable b)
    (hcell : ∀ x < w.cols.toNat, g' r x =
      ((sideText title w.cols.toNat)[x]?.map (⟨·, reversed⟩)).getD (g r x)) :
    RowShows w g' r (sideName title) reversed ↔
      (title = [] → ∀ x, (ascii "deleted account").length ≤ x → x < w.cols.toNat →
        g r x = ⟨32, reversed⟩) := by
  by_cases ht : title = []
  · have hname : sideName title = ascii "deleted account" := if_pos ht
    have hcell' : ∀ x < w.cols.toNat, g' r x =
        ((ascii "deleted account")[x]?.map (⟨·, reversed⟩)).getD (g r x) := by
      intro x hx
      rw [hcell x hx, sideText_getElem? h hx, if_pos ht, hname]
    rw [hname]
    constructor
    · intro hs _ x hge hx
      have hnone : (ascii "deleted account")[x]? = none := List.getElem?_eq_none hge
      have hg := hs x hx
      rw [hcell' x hx, hnone] at hg
      exact hg
    · intro hs x hx
      rw [hcell' x hx]
      rcases Nat.lt_or_ge x (ascii "deleted account").length with hlt | hge
      · rw [List.getElem?_eq_getElem hlt]
        rfl
      · rw [List.getElem?_eq_none hge]
        exact hs ht x hge hx
  · refine iff_of_true (fun x hx => ?_) fun h => (ht h).elim
    rw [hcell x hx, sideText_getElem? h hx, if_neg ht]
    rfl

/-- **What `draw_side` shows.** It shows the chats from the offset on, and nothing else, exactly
when these chats are in the table and the window held nothing else in the cells not written. -/
theorem drawSide_shown_iff {c : Client} (hw : c.window .side = some w)
    (hoff : c.scrollOffset .side ≤ c.chatlist.size)
    (htitles : ∀ chatId, ∀ chat ∈ c.store.idToChat chatId, ∀ b ∈ chat.title, Printable b)
    (g : Grid Cell) :
    (∃ writes, c.drawSide = some writes ∧ c.SideShown w (paint w writes g)) ↔
      c.RowsListed w ∧ c.SideLeft w g := by
  suffices hiff : c.RowsListed w → ∃ writes, c.drawSide = some writes ∧
      (c.SideShown w (paint w writes g) ↔ c.SideLeft w g) by
    constructor
    · rintro ⟨writes, hwrites, hshown⟩
      have hlisted : c.RowsListed w := by
        intro r hr p hp
        have hrow := hshown r hr
        rw [Option.mem_def.mp hp] at hrow
        exact hrow.imp fun _ => And.left
      obtain ⟨writes', hwrites', hiff⟩ := hiff hlisted
      obtain rfl := Option.some.inj (hwrites.symm.trans hwrites')
      exact ⟨hlisted, hiff.mp hshown⟩
    · rintro ⟨hlisted, hleft⟩
      obtain ⟨writes, hwrites, hiff⟩ := hiff hlisted
      exact ⟨writes, hwrites, hiff.mpr hleft⟩
  intro hchats
  refine ⟨_, drawSide_eq hw hoff hchats, ?_⟩
  have hcell : ∀ r x, x < w.cols.toNat → paint w _ g r x = _ := fun r x hx =>
    paint_range (r := r) (n := min c.chatlist.size w.lines.toNat)
      (f := fun r => c.sideRow w.cols.toNat r c.chatlist.elems[c.scrollOffset .side + r]?)
      (fun i => ⟨sideRow_row .., sideRow_fits (fun q _ => htitles q.2) i⟩)
      (Nat.min_le_right _ _) g hx
  generalize paint w _ g = g' at hcell ⊢
  have hsize : c.chatlist.size = c.chatlist.elems.length := rfl
  refine forall_congr' fun r => imp_congr_right fun hr => ?_
  have hrow := hcell r
  cases hp : c.chatlist.elems[c.scrollOffset .side + r]? with
  | some p =>
    obtain ⟨hlt, -⟩ := List.getElem?_eq_some_iff.mp hp
    obtain ⟨chat, hchat⟩ := hchats r hr p hp
    have hdrawn : r < min c.chatlist.size w.lines.toNat := by omega
    simp only [hp, sideRow_some hchat, if_pos hdrawn] at hrow
    have hiff := rowShows_title_iff (htitles p.2 chat hchat) hrow
    simp only [Option.mem_def, Option.some.injEq, forall_eq', hchat, exists_eq_left']
    rw [hiff]
    refine ⟨fun h => ⟨fun hge => ?_, h⟩, fun h => h.2⟩
    exact absurd hge (by omega)
  | none =>
    refine ⟨fun h => ⟨fun hge x hx => ?_, nofun⟩, fun h x hx => ?_⟩
    · have hg := h x hx
      rwa [hrow x hx, if_neg (by omega)] at hg
    · rw [hrow x hx]
      split
      · simp [hp, sideRow, blanks, hx]
      next hge => exact h.1 (by omega) x hx

/-- Two chats of the main list. -/
def twoChats : Client :=
  let store := ChatStore.empty.processUpdateNewChat ⟨1, ascii "a", none, [], [.chatListMain]⟩
  { init System.screen5x4 with
    store := store.processUpdateNewChat ⟨2, ascii "b", none, [], [.chatListMain]⟩ }

/-- The second of them leaves the list. -/
def oneLeft : Client :=
  { twoChats with
    store := twoChats.store.processUpdateChatPosition 2 ⟨.chatListMain, 0⟩ }

theorem oneLeft_titles :
    ∀ chatId, ∀ chat ∈ oneLeft.store.idToChat chatId, ∀ b ∈ chat.title, Printable b := by
  have htitle : ∀ chatId, ∀ chat ∈ oneLeft.store.idToChat chatId,
      chat.title = ascii "a" ∨ chat.title = ascii "b" := by
    intro chatId chat hchat
    rw [oneLeft, ChatStore.processUpdateChatPosition, ChatStore.updatePosition_idToChat] at hchat
    change Function.update (Function.update (fun _ => none) 1 _) 2 _ chatId = some chat at hchat
    rcases eq_or_ne chatId 2 with rfl | h2
    · cases hchat
      exact .inr rfl
    rw [Function.update_of_ne h2] at hchat
    rcases eq_or_ne chatId 1 with rfl | h1
    · cases hchat
      exact .inl rfl
    rw [Function.update_of_ne h1] at hchat
    cases hchat
  intro chatId chat hchat
  rcases htitle chatId chat hchat with h | h <;> rw [h] <;>
    exact List.all_iff_forall_prop.mp (by decide)

/-- On a blank window the chat that is left is shown. -/
theorem drawSide_shown_iff_oneLeft : ∃ w, oneLeft.window .side = some w ∧
    ∃ writes, oneLeft.drawSide = some writes ∧
      oneLeft.SideShown w (paint w writes fun _ _ => .blank) := by
  have hchat : ∀ r, ∀ p ∈ oneLeft.chatlist.elems[oneLeft.scrollOffset .side + r]?, p = (0, 1) :=
    fun r p hp => List.mem_singleton.mp (List.mem_of_getElem? hp)
  refine ⟨_, rfl, (drawSide_shown_iff rfl (by decide) oneLeft_titles _).mpr ⟨?_, ?_⟩⟩
  · intro r _ p hp
    obtain rfl := hchat r p hp
    exact ⟨_, rfl⟩
  · refine fun r _ => ⟨fun _ x _ => rfl, fun p hp chat hmem htitle => ?_⟩
    obtain rfl := hchat r p hp
    cases hmem
    cases htitle

/-- Over the drawing with both chats it is not all that is shown. -/
theorem drawSide_leftover : ∃ w, twoChats.window .side = some w ∧ oneLeft.window .side = some w ∧
    oneLeft.scrollOffset .side ≤ oneLeft.chatlist.size ∧
    (∀ chatId, ∀ chat ∈ oneLeft.store.idToChat chatId, ∀ b ∈ chat.title, Printable b) ∧
    ∃ before after, twoChats.drawSide = some before ∧ oneLeft.drawSide = some after ∧
      ¬oneLeft.SideShown w (paint w after (paint w before fun _ _ => .blank)) := by
  refine ⟨_, rfl, rfl, by decide, oneLeft_titles, _, _, rfl, rfl, fun h => ?_⟩
  have hrow := h 1 (by decide)
  have hcell := hrow 0 (by decide)
  revert hcell
  decide

end Client
end Chatcurse

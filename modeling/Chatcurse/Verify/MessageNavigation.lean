import Chatcurse.Verify.Navigation

/-!
# Selecting messages

The main pane shows the messages from its last row up, so that its viewport counts rows from there:
`j` goes to the previous place, towards the newest message, and `k` to the next. `G` and `gg` are as
in the side pane, though, and so is `o`: `G` scrolls by the length of the chat list, `gg` goes to
the first row at offset 0, and `o` opens a chat. `Selects` says what a key should do in this pane;
the keys do it exactly when they are neither `G` nor `o`, and `gg` only in a pane that holds all
messages (`main_selects_iff`).
-/

namespace Chatcurse
namespace Client
open Viewport (Motion)

/-- The messages as the main pane shows them. -/
def mainViewport (w : Window) (c : Client) : Viewport :=
  ⟨c.offset, (w.lines - 1 - c.cursor.1).toNat⟩

/-- The rank of the message on the cursor's row, from the newest one on. -/
def mainIndex (w : Window) (c : Client) : Nat :=
  c.scrollOffset .main + (w.lines - 1 - (c.cursorPositions .main).1).toNat

/-- The motion that a key stands for. -/
def mainMotion (c : Client) : Char → Option Motion
  | 'j' => some .prev
  | 'k' => some .next
  | 'G' => some .toStart
  | 'g' => if c.inputState.state = .S_KEY_PREF then some .toEnd else none
  | _ => none

/-- What a key in the main pane should do: move to the message its motion leads to, leave no more
rows empty than it must, keep the chosen chat, and go by no chat list. -/
def Selects (w : Window) (c : Client) (key : Char) : Prop :=
  ∃ c' calls, c.processInput (.char key) = some (c', calls) ∧
    c'.mainIndex w = (match c.mainMotion key with
      | some m => m.target (max c.chosenMessages.size w.lines.toNat) (c.mainIndex w)
      | none => c.mainIndex w) ∧
    c'.scrollOffset .main ≤ max c.chosenMessages.size w.lines.toNat - w.lines.toNat ∧
    c'.chosenChatId = c.chosenChatId ∧
    ∀ store, { c with store := store }.processInput (.char key) =
      some ({ c' with store := store }, calls)

/-- The keys that do. -/
def Meets (w : Window) (c : Client) (key : Char) : Prop :=
  key ≠ 'G' ∧ key ≠ 'o' ∧
    (key = 'g' → c.inputState.state = .S_KEY_PREF → c.chosenMessages.size ≤ w.lines.toNat)

instance (w : Window) (c : Client) (key : Char) : Decidable (c.Meets w key) :=
  inferInstanceAs (Decidable (_ ∧ _ ∧ _))

/-- The cursor of the main pane is on a row, and no more rows than need be are empty. -/
structure MainInRange (w : Window) (c : Client) : Prop where
  focused : c.Focused .main w
  offset_le : c.scrollOffset .main ≤ max c.chosenMessages.size w.lines.toNat - w.lines.toNat

theorem MainInRange.valid {c : Client} (h : c.MainInRange w) :
    (c.mainViewport w).Valid w.lines.toNat c.chosenMessages.size := by
  obtain ⟨⟨hcur, -, hy, hlt, -⟩, hoff⟩ := h
  refine ⟨?_, ?_⟩
  · simp only [mainViewport]
    omega
  · rw [mainViewport, offset, hcur]
    exact hoff

theorem Focused.mainIndex_eq {c : Client} (h : c.Focused .main w) :
    c.mainIndex w = (c.mainViewport w).index := by
  rw [mainIndex, Viewport.index, mainViewport, offset, cursor, h.currentPan]

/-! ## The keys of the main pane -/

/-- `paneKey` in the main pane. -/
def mainKey (c : Client) : Char → Option (Client × List Call)
  | 'h' => some (c.keyLeft, [])
  | 'l' => c.keyRight.map (·, [])
  | 'j' => c.mainDown
  | 'k' => c.mainUp
  | 'G' => c.keyEnd
  | 'g' => some c.keyPrefix
  | 'o' => some c.keyOpen
  | _ => some (c, [])

theorem processInput_main {c : Client} (h : c.currentPan = .main) (key : Char) :
    c.processInput (.char key) = c.mainKey key := by
  simp only [processInput, paneKey, mainKey]
  rw [h]
  split
  next hpan => cases hpan
  next => rfl
  next => rfl
  next hpan => cases hpan
  next hpan => cases hpan
  next => rfl
  next => rfl
  next => rfl
  next => rfl
  next => rfl
  next key _ _ hh hl hG hg ho _ _ _ hj hk =>
    split
    · exact (hh rfl).elim
    · exact (hl rfl).elim
    · exact (hj rfl rfl).elim
    · exact (hk rfl rfl).elim
    · exact (hG rfl).elim
    · exact (hg rfl).elim
    · exact (ho rfl).elim
    · rfl

def mainMove (w : Window) (c : Client) : Option Motion → Viewport
  | some m => (c.mainViewport w).move w.lines.toNat c.chosenMessages.size m
  | none => c.mainViewport w

theorem mainDown_viewport {c : Client} (h : c.Focused .main w) :
    c.mainDown.map (·.1.mainViewport w) = some (c.mainMove w (some .prev)) := by
  obtain ⟨hcur, hw, hy, hlt, -⟩ := h
  simp only [mainDown, hcur, hw, Option.map_some, mainMove, Option.some.injEq]
  split
  next hlast =>
    have hrow : (c.mainViewport w).row = 0 := by
      simp only [mainViewport]
      omega
    rw [Viewport.move_prev_first hrow]
    simp [mainViewport]
  next hinner =>
    have hrow : (c.mainViewport w).row ≠ 0 := by
      simp only [mainViewport]
      omega
    rw [Viewport.move_prev_inner hrow]
    simp only [mainViewport, offset_setRow, cursor_setRow]
    ext
    · rfl
    · simp only
      omega

theorem mainUp_viewport {c : Client} (h : c.Focused .main w) :
    c.mainUp.map (·.1.mainViewport w) = some (c.mainMove w (some .next)) := by
  obtain ⟨hcur, hw, hy, hlt, -⟩ := h
  simp only [mainUp, hcur, hw, Option.map_some, mainMove]
  split
  next hfirst =>
    have hrow : w.lines.toNat - 1 ≤ (c.mainViewport w).row := by
      simp only [mainViewport]
      omega
    rw [Viewport.move_next_last hrow, Option.map_some]
    simp only [mainViewport, offset_setOffset, cursor_setOffset, cursor_setRow, maxOffset_eq]
    congr 2
    omega
  next hinner =>
    have hrow : (c.mainViewport w).row < w.lines.toNat - 1 := by
      simp only [mainViewport]
      omega
    rw [Viewport.move_next_inner hrow, Option.map_some]
    simp only [mainViewport, offset_setRow, cursor_setRow]
    congr 2
    omega

/-- The prefix key goes to the oldest message if all of them fit into the pane. -/
theorem mainPrefix_viewport {c : Client} (h : c.Focused .main w)
    (hsize : c.inputState.state = .S_KEY_PREF → c.chosenMessages.size ≤ w.lines.toNat) :
    c.keyPrefix.1.mainViewport w = c.mainMove w (c.mainMotion 'g') := by
  rcases keyPrefix_cases h.prefixed with ⟨hpref, -, hoff, hcur⟩ | ⟨hpref, -, hoff, hcur⟩
  · have hlines := w.lines_pos
    have hle := hsize hpref
    simp only [mainMotion, if_pos hpref, mainViewport, hoff, hcur, mainMove, Viewport.move]
    ext
    · simp only
      omega
    · simp only
      omega
  · simp only [mainMotion, if_neg hpref, mainViewport, hoff, hcur]
    rfl

theorem mainKey_viewport {c : Client} {key : Char} (h : c.Focused .main w) (hm : c.Meets w key) :
    (c.mainKey key).map (·.1.mainViewport w) = some (c.mainMove w (c.mainMotion key)) := by
  obtain ⟨hG, ho, hg⟩ := hm
  have hcur := h.currentPan
  have hw := h.window
  unfold mainKey
  split
  next => simp [keyLeft, mainMotion, mainMove, mainViewport]
  next => simp [keyRight, hcur, hw, mainMotion, mainMove, mainViewport]
  next => exact mainDown_viewport h
  next => exact mainUp_viewport h
  next => exact (hG rfl).elim
  next => exact congrArg some (mainPrefix_viewport h (hg rfl))
  next => exact (ho rfl).elim
  next _ _ _ hj hk hG hg _ =>
    have hnone : c.mainMotion key = none := by
      unfold mainMotion
      split
      · exact (hj rfl).elim
      · exact (hk rfl).elim
      · exact (hG rfl).elim
      · exact (hg rfl).elim
      · rfl
    rw [hnone]
    rfl

/-- The client with other chat lists. -/
def withStore (store : ChatStore) (c : Client) : Client := { c with store := store }

section
variable (store : ChatStore) (c : Client)

@[simp] theorem withStore_cursor : (c.withStore store).cursor = c.cursor := rfl

@[simp] theorem withStore_offset : (c.withStore store).offset = c.offset := rfl

@[simp] theorem withStore_window (pan : Pane) : (c.withStore store).window pan = c.window pan := rfl

@[simp] theorem withStore_currentPan : (c.withStore store).currentPan = c.currentPan := rfl

@[simp] theorem withStore_chosenMessages :
    (c.withStore store).chosenMessages = c.chosenMessages := rfl

@[simp] theorem withStore_setRow (y : Int) :
    (c.withStore store).setRow y = (c.setRow y).withStore store := rfl

@[simp] theorem withStore_setColumn (x : Int) :
    (c.withStore store).setColumn x = (c.setColumn x).withStore store := rfl

@[simp] theorem withStore_setOffset (n : Nat) :
    (c.withStore store).setOffset n = (c.setOffset n).withStore store := rfl

/-- The other keys than `G` and `o` do not look at the chat lists. -/
theorem mainKey_withStore {key : Char} (hg : c.inputState.PrefixIsG) (hG : key ≠ 'G')
    (ho : key ≠ 'o') :
    (c.withStore store).mainKey key =
      (c.mainKey key).map fun r => (r.1.withStore store, r.2) := by
  unfold mainKey
  split
  next => rfl
  next => simp [keyRight, Function.comp_def]
  next =>
    cases hw : c.window c.currentPan with
    | none => simp [mainDown, hw]
    | some w =>
      simp only [mainDown, withStore_window, withStore_currentPan, hw, Option.map_some]
      by_cases hlast : c.cursor.1 ≥ w.lines - 1
      · rw [if_pos hlast, if_pos (c := (c.withStore store).cursor.1 ≥ w.lines - 1) hlast]
        rfl
      · rw [if_neg hlast, if_neg (c := (c.withStore store).cursor.1 ≥ w.lines - 1) hlast]
        rfl
  next =>
    by_cases hfirst : c.cursor.1 ≤ 0
    · simp [mainUp, hfirst, Function.comp_def]
    · simp [mainUp, hfirst]
  next => exact (hG rfl).elim
  next =>
    by_cases hpref : c.inputState.state = .S_KEY_PREF
    · rw [keyPrefix_top (c := c.withStore store) hpref hg, keyPrefix_top hpref hg]
      rfl
    · rw [keyPrefix_first (c := c.withStore store) hpref, keyPrefix_first hpref]
      rfl
  next => exact (ho rfl).elim
  next => rfl

end

/-! ## What the keys select -/

theorem withStore_main {c : Client} (h : c.currentPan = .main) (store : ChatStore) (key : Char) :
    { c with store := store }.processInput (.char key) = (c.withStore store).mainKey key :=
  processInput_main (c := c.withStore store) h key

theorem processInput_chosenChatId {c c' : Client} {key : Char} (ho : key ≠ 'o')
    (h : c.processInput (.char key) = some (c', calls)) : c'.chosenChatId = c.chosenChatId := by
  cases (processInput_cases h).2 with
  | still hv => exact hv.chosenChatId
  | scrolls key n hk hn hchosen => exact hchosen
  | opens chatId hk => exact (ho (Key.char.inj hk)).elim

theorem selects_of_meets {c : Client} {key : Char} (h : c.MainInRange w) (hm : c.Meets w key) :
    c.Selects w key := by
  obtain ⟨c', hpress⟩ := exists_press h.focused key
  obtain ⟨⟨_, calls⟩, hkey, rfl⟩ := Option.map_eq_some_iff.mp hpress
  have hfocused := (h.focused.press hpress).1
  have hcur := h.focused.currentPan
  have hmain := (processInput_main hcur key).symm.trans hkey
  have hview := mainKey_viewport h.focused hm
  rw [hmain, Option.map_some, Option.some.injEq] at hview
  have hvalid : Viewport.Valid w.lines.toNat c.chosenMessages.size
      (c.mainMove w (c.mainMotion key)) := by
    cases c.mainMotion key with
    | none => exact h.valid
    | some m => exact Viewport.valid_move h.valid m
  refine ⟨_, calls, hkey, ?_, ?_, processInput_chosenChatId hm.2.1 hkey, fun store => ?_⟩
  · rw [hfocused.mainIndex_eq, hview, h.focused.mainIndex_eq]
    cases c.mainMotion key with
    | none => rfl
    | some m => exact Viewport.index_move h.valid m
  · have hoff := hvalid.offset_le
    rw [← hview, mainViewport, offset, hfocused.currentPan] at hoff
    exact hoff
  · rw [withStore_main hcur, mainKey_withStore store c h.focused.prefixed hm.1 hm.2.1, hmain]
    rfl

/-- Any number of entries, all of one chat. -/
def entries (n : Nat) (chatId : Int) : PositionSet where
  elems := (List.range n).map fun i : Nat => (-(i : Int), chatId)
  sorted := by
    refine List.pairwise_map.mpr (List.pairwise_lt_range.imp fun h => Or.inl ?_)
    simp only
    omega

def storeOf (n : Nat) (chatId : Int) : ChatStore :=
  ⟨fun _ => entries n chatId, fun _ _ => none, fun _ => none⟩

theorem size_entries (n : Nat) (chatId : Int) : (entries n chatId).size = n := by
  simp [entries, OrdSet.size]

/-- `G` goes by the length of the chat list. -/
theorem not_selects_G {c : Client} (h : c.Focused .main w) : ¬c.Selects w 'G' := by
  rintro ⟨c', calls, -, -, -, -, hstore⟩
  have hlines := w.lines_pos
  have hoff : ∀ n, maxOffset n w = c'.offset := by
    intro n
    have hkey := hstore (storeOf n 0)
    rw [withStore_main h.currentPan] at hkey
    have hcur : (c.withStore (storeOf n 0)).currentPan = .main := h.currentPan
    have hw : (c.withStore (storeOf n 0)).window .main = some w := h.window
    simp only [mainKey, keyEnd, hcur, hw, Option.map_some, Option.some.injEq, Prod.mk.injEq] at hkey
    have hoffset := congrArg offset hkey.1
    rw [offset_setOffset] at hoffset
    refine (congrArg (maxOffset · w) (size_entries n 0).symm).trans hoffset
  have hzero := (hoff 0).trans (hoff (w.lines.toNat + 1)).symm
  simp only [maxOffset] at hzero
  omega

/-- `o` opens a chat of the chat list. -/
theorem not_selects_o {c : Client} (h : c.Focused .main w) : ¬c.Selects w 'o' := by
  rintro ⟨c', calls, -, -, -, hchosen, hstore⟩
  obtain ⟨y, hy⟩ := Int.eq_ofNat_of_zero_le h.row_nonneg
  have hkey := hstore (storeOf (c.offset + y + 1) (c.chosenChatId + 1))
  rw [withStore_main h.currentPan] at hkey
  have hchat : (c.withStore (storeOf (c.offset + y + 1) (c.chosenChatId + 1))).cursorChat =
      some (c.chosenChatId + 1) := by
    have hrank : (c.offset : Int) + y = ((c.offset + y : Nat) : Int) := by omega
    have hlist : (c.withStore (storeOf (c.offset + y + 1) (c.chosenChatId + 1))).chatlist =
        entries (c.offset + y + 1) (c.chosenChatId + 1) := rfl
    simp only [cursorChat, withStore_offset, withStore_cursor, hy, hlist]
    rw [hrank, if_pos (Int.natCast_nonneg _), Int.toNat_natCast]
    simp [entries]
  simp only [mainKey, keyOpen, hchat, Option.some.injEq, Prod.mk.injEq] at hkey
  have hopened := congrArg chosenChatId hkey.1
  simp only at hopened
  omega

/-- `gg` goes to the first row at offset 0. -/
theorem size_le_of_selects {c : Client} (h : c.Focused .main w) (hs : c.Selects w 'g')
    (hpref : c.inputState.state = .S_KEY_PREF) : c.chosenMessages.size ≤ w.lines.toNat := by
  obtain ⟨c', calls, hkey, hindex, -⟩ := hs
  have hpress : c.press 'g' = some c' := congrArg (Option.map Prod.fst) hkey
  obtain rfl : c.keyPrefix.1 = c' :=
    Option.some.inj ((press_g h (by decide)).symm.trans hpress)
  have hlines := w.lines_pos
  have hplaces : ∀ n : Nat, (w.lines - 1).toNat = max n w.lines.toNat - 1 → n ≤ w.lines.toNat := by
    intro n hn
    omega
  rcases keyPrefix_cases h.prefixed with ⟨-, -, hoff, hcur⟩ | ⟨hne, -⟩
  · simp only [(h.press hpress).1.mainIndex_eq, mainMotion, if_pos hpref, Motion.target,
      Viewport.index, mainViewport, hoff, hcur] at hindex
    exact hplaces _ (by simpa using hindex)
  · exact (hne hpref).elim

theorem selects_iff_meets {c : Client} (h : c.MainInRange w) (key : Char) :
    c.Selects w key ↔ c.Meets w key := by
  refine ⟨fun hs => ⟨?_, ?_, ?_⟩, selects_of_meets h⟩
  · rintro rfl
    exact not_selects_G h.focused hs
  · rintro rfl
    exact not_selects_o h.focused hs
  · rintro rfl hpref
    exact size_le_of_selects h.focused hs hpref

theorem MainInRange.press {c c' : Client} (h : c.MainInRange w) (hs : c.Selects w key)
    (hp : c.press key = some c') : c'.MainInRange w := by
  obtain ⟨hfocused, hd⟩ := h.focused.press hp
  obtain ⟨c'', calls, hkey, -, hoff, hchosen, -⟩ := hs
  obtain rfl : c'' = c' := Option.some.inj ((congrArg (Option.map Prod.fst) hkey).symm.trans hp)
  refine ⟨hfocused, ?_⟩
  rw [chosenMessages, hd.messages, hchosen]
  exact hoff

/-- **The keys of the main pane** all do what they should, along a run of them, exactly when `G` and
`o` are not among them and `gg` is pressed only when all messages fit into the pane. -/
theorem main_selects_iff {c : Client} (hpan : c.currentPan = .main) (hw : c.window .main = some w)
    (hoff : c.scrollOffset .main ≤ max c.chosenMessages.size w.lines.toNat - w.lines.toNat)
    (hrow : 0 ≤ (c.cursorPositions .main).1 ∧ (c.cursorPositions .main).1 < w.lines)
    (hinput : InputReachable c.inputState) (keys : List Char) :
    (∃ c', Run.exec press c keys = some c') ∧
      (Run.Guarded press (Selects w) c keys ↔ Run.Guarded press (Meets w) c keys) := by
  have hin : c.MainInRange w :=
    ⟨⟨hpan, hw, by rw [cursor, hpan]; exact hrow.1, by rw [cursor, hpan]; exact hrow.2,
      hinput.prefixIsG⟩, hoff⟩
  refine ⟨exists_exec_press hin.focused keys, ?_⟩
  exact Run.guarded_congr (fun _ key h => selects_iff_meets h key)
    (fun _ _ _ h hs hp => h.press hs hp) hin

/-- Four chats are listed, the chosen one has no messages, and the main pane is focused. -/
def noMessages : Client :=
  { init System.screen5x4 with
    store := [4, 3, 2, 1].foldl (fun s chatId =>
      s.processUpdateNewChat ⟨chatId, ascii "a", none, [], [.chatListMain]⟩) ChatStore.empty
    chosenChatId := 1
    currentPan := .main }

/-- The chosen chat has five messages, more than the pane has rows. -/
def fiveMessages : Client :=
  { noMessages with
    messages := fun _ =>
      ⟨[5, 4, 3, 2, 1].map fun id => ⟨id, 0, id, .messageText (ascii "a")⟩, by decide⟩ }

/-- `k` scrolls to the oldest message, `j` goes down the pane, and at its last row scrolls back. -/
theorem main_selects_iff_fiveMessages : ∃ w, fiveMessages.window .main = some w ∧ w.lines = 3 ∧
    (∃ c', Run.exec press fiveMessages ['k', 'k', 'k', 'g', 'j', 'j', 'j', 'h'] = some c') ∧
    Run.Guarded press (Selects w) fiveMessages ['k', 'k', 'k', 'g', 'j', 'j', 'j', 'h'] := by
  have hinput : InputReachable fiveMessages.inputState := ⟨System.screen5x4, [], _, rfl, rfl⟩
  obtain ⟨hrun, hiff⟩ := main_selects_iff (c := fiveMessages) rfl rfl (by decide) (by decide) hinput
    ['k', 'k', 'k', 'g', 'j', 'j', 'j', 'h']
  exact ⟨_, rfl, by decide, hrun, hiff.mpr (by decide)⟩

example : (Run.exec press fiveMessages ['k', 'k', 'k']).map (·.scrollOffset .main) = some 2 ∧
    (Run.exec press fiveMessages ['k', 'k', 'k', 'g', 'j', 'j', 'j']).map (·.scrollOffset .main) =
      some 1 := by decide

/-- `G` scrolls past the end of the messages. -/
theorem noMessages_not_selects : ∃ w c', noMessages.window .main = some w ∧ w.lines = 3 ∧
    noMessages.chosenMessages.size = 0 ∧ noMessages.press 'G' = some c' ∧
    c'.scrollOffset .main = 1 ∧ c'.mainIndex w = 1 ∧ ¬noMessages.Selects w 'G' := by
  refine ⟨_, _, rfl, by decide, rfl, rfl, by decide, by decide, ?_⟩
  rintro ⟨c', calls, hkey, hindex, -⟩
  cases hkey
  revert hindex
  decide

end Client
end Chatcurse

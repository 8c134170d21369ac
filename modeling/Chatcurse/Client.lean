import Chatcurse.Store
import Chatcurse.EventQueue
import Chatcurse.History
import Chatcurse.Layout

/-!
# The client

The state the two threads share and the UI thread's functions over it: the keys of
`src/process_input.cc`, the drawing of `src/layout.cc` and the event dispatch of `src/chatcurse.cc`.
A function that draws or queries does not do so itself here: it returns the calls it makes, in
order, and `System` lets the other thread act between them. `none` is undefined behaviour, a read
of a deleted window, an iterator advanced past the end or a null chat.
-/

namespace Chatcurse

/-- The values of `current_pan`. -/
inductive Pane where
  | side
  | main
  | comp
  deriving DecidableEq

namespace Pane

def panel : Pane → PanelId
  | side => .side
  | main => .main
  | comp => .comp

/-- `current_pan <<= 1`, and back to the first pane from the last. -/
def cycle : Pane → Pane
  | side => main
  | main => comp
  | comp => side

end Pane

structure Client where
  store : ChatStore
  messages : MessageStore
  chosenChatId : Int
  scrollOffset : Pane → Nat
  currentChatlist : Int
  terminating : Bool
  layout : Layout
  currentPan : Pane
  /-- In pair (y, x). -/
  cursorPositions : Pane → Int × Int
  inputState : InputState
  /-- `cont` of the main loop. -/
  cont : Bool
  eventQueue : EventQueue Event

/-- What a UI function calls that takes a lock. -/
inductive Call where
  | drawSide
  | drawMain
  | getChatHistory (chatId : Int)
  | popAndGet
  deriving DecidableEq

namespace Client

/-- After `init_config` and the windows of `init_layout`. -/
def init (s : Screen) : Client where
  store := .empty
  messages := fun _ => ∅
  chosenChatId := -1
  scrollOffset := fun _ => 0
  currentChatlist := ChatList.chatListMain.getId
  terminating := false
  layout := .init s
  currentPan := .side
  cursorPositions := fun _ => (0, 0)
  inputState := {}
  cont := true
  eventQueue := .empty

/-- `panel_window(panels[pan])` -/
def window (c : Client) (pan : Pane) : Option Window := c.layout.panels pan.panel

/-- `position_sets[current_chatlist]` -/
def chatlist (c : Client) : PositionSet := c.store.positionSets c.currentChatlist

/-- `messages[chosen_chat_id]` -/
def chosenMessages (c : Client) : MessageSet := c.messages c.chosenChatId

/-- The cursor of the focused pane. -/
def cursor (c : Client) : Int × Int := c.cursorPositions c.currentPan

/-- The offset of the focused pane. -/
def offset (c : Client) : Nat := c.scrollOffset c.currentPan

def setCursor (c : Client) (pan : Pane) (pos : Int × Int) : Client :=
  { c with cursorPositions := Function.update c.cursorPositions pan pos }

/-- The row of the focused pane's cursor. -/
def setRow (c : Client) (y : Int) : Client := c.setCursor c.currentPan (y, c.cursor.2)

def setColumn (c : Client) (x : Int) : Client := c.setCursor c.currentPan (c.cursor.1, x)

/-- The offset of the focused pane. -/
def setOffset (c : Client) (n : Nat) : Client :=
  { c with scrollOffset := Function.update c.scrollOffset c.currentPan n }

/-! ## Drawing -/

/-- One `mvwaddstr` at column 0. -/
structure Write where
  row : Nat
  text : Bytes
  reversed : Bool
  /-- The chat or the message whose text it is. -/
  shows : Option Int
  deriving DecidableEq

def blanks (n : Nat) : Bytes := List.replicate n 32

/-- What a `char *` says: the bytes before the first null. -/
def cStr (s : Bytes) : Bytes := s.takeWhile (· ≠ 0)

/-- The title as `draw_side` writes it into `maxx` columns. -/
def sideText (title : Bytes) (maxx : Nat) : Bytes :=
  let name :=
    if title.length = 0 then ascii "deleted account"
    else if title.length < maxx then title ++ blanks (maxx - title.length)
    else title
  cStr (name.take maxx)

/-- The loop of `draw_side` from row `i` on, `n` rows to go, at the iterator `pos`. -/
def sideRows (c : Client) (maxx i : Nat) : Nat → List (Int × Int) → Option (List Write)
  | 0, _ => some []
  | n + 1, [] => (sideRows c maxx (i + 1) n []).map (⟨i, blanks maxx, false, none⟩ :: ·)
  | n + 1, p :: pos =>
    (c.store.idToChat p.2).bind fun chat =>
      (sideRows c maxx (i + 1) n pos).map
        (⟨i, sideText chat.title maxx, c.chosenChatId = chat.id, some chat.id⟩ :: ·)

/-- `draw_side` -/
def drawSide (c : Client) : Option (List Write) :=
  (c.window .side).bind fun w =>
    (c.chatlist.advance (c.scrollOffset .side)).bind fun pos =>
      c.sideRows w.cols.toNat 0 (min c.chatlist.size w.lines.toNat) pos

/-- The content of a message as `draw_main` writes it into `width` columns. -/
def mainText (content : MessageContent) (width : Nat) : Bytes :=
  match content with
  | .messageText text => cStr ((text ++ blanks (width - text.length)).take width)
  | .other _ => ascii "<empty>" ++ blanks (width - (ascii "<empty>").length)

/-- The loop of `draw_main` over the rows below `lines`, from the last one up. -/
def mainRows (width : Nat) : Nat → List Message → List Write
  | 0, _ => []
  | lines + 1, [] => ⟨lines, blanks width, false, none⟩ :: mainRows width lines []
  | lines + 1, m :: it =>
    ⟨lines, mainText m.content width, false, some m.id⟩ :: mainRows width lines it

/-- `draw_main` -/
def drawMain (c : Client) : Option (List Write) :=
  if c.chosenChatId = -1 then some []
  else (c.chosenMessages.advance (c.scrollOffset .main)).bind fun it =>
    (c.window .main).map fun w => mainRows w.cols.toNat w.lines.toNat it

/-! ## Resizing -/

/-- The end of `resize` for one pane. -/
def clampCursor (c : Client) (pan : Pane) : Option Client :=
  (c.window pan).map fun w =>
    c.setCursor pan (min (c.cursorPositions pan).1 (w.lines - 1),
      min (c.cursorPositions pan).2 (w.cols - 1))

/-- `resize`, which draws everything unless it rejects the sizes. -/
def resize (c : Client) (newSideW newComposerH : Int) : Option (Client × List Call) :=
  if newSideW ≥ c.layout.screen.COLS then some (c, [])
  else if newComposerH ≥ c.layout.screen.LINES then some (c, [])
  else
    let c := { c with layout := c.layout.resize newSideW newComposerH }
    (c.clampCursor .side).bind fun c => (c.clampCursor .main).bind fun c =>
      (c.clampCursor .comp).map fun c => (c, [.drawMain, .drawSide])

/-! ## Keys -/

/-- What `getch` returns, with what goes with it. -/
inductive Key where
  /-- `KEY_MOUSE`, with what `getmouse` stores if it succeeds -/
  | mouse (m : Option MEvent)
  /-- `KEY_RESIZE`, with the new screen and what ncurses did to the windows -/
  | resize (s : Screen) (adjust : Window → Window)
  | ctrlQ
  | tab
  /-- `ERR`: there was no input. -/
  | err
  | char (c : Char)

/-- The largest offset at which `size` rows still fill a pane. -/
def maxOffset (size : Nat) (w : Window) : Nat := max w.lines.toNat size - w.lines.toNat

/-- `h`, in both panes -/
def keyLeft (c : Client) : Client := c.setColumn (max (c.cursor.2 - 1) 0)

/-- `l`, in both panes -/
def keyRight (c : Client) : Option Client :=
  (c.window c.currentPan).map fun w => c.setColumn (min (c.cursor.2 + 1) (w.cols - 1))

/-- `j` in the side pane -/
def sideDown (c : Client) : Option (Client × List Call) :=
  (c.window c.currentPan).map fun w =>
    if c.cursor.1 ≥ w.lines - 1 then
      ((c.setRow (w.lines - 1)).setOffset (min (maxOffset c.chatlist.size w) (c.offset + 1)),
        [.drawSide])
    else (c.setRow (c.cursor.1 + 1), [])

/-- `k` in the side pane -/
def sideUp (c : Client) : Client × List Call :=
  if c.cursor.1 ≤ 0 then ((c.setRow 0).setOffset (max 1 c.offset - 1), [.drawSide])
  else (c.setRow (c.cursor.1 - 1), [])

/-- `j` in the main pane -/
def mainDown (c : Client) : Option (Client × List Call) :=
  (c.window c.currentPan).map fun w =>
    if c.cursor.1 ≥ w.lines - 1 then
      ((c.setRow (w.lines - 1)).setOffset (max 1 c.offset - 1), [.drawMain])
    else (c.setRow (c.cursor.1 + 1), [])

/-- `k` in the main pane -/
def mainUp (c : Client) : Option (Client × List Call) :=
  if c.cursor.1 ≤ 0 then
    (c.window c.currentPan).map fun w =>
      ((c.setRow 0).setOffset (min (maxOffset c.chosenMessages.size w) (c.offset + 1)),
        [.drawMain])
  else some (c.setRow (c.cursor.1 - 1), [])

/-- `G`, in both panes -/
def keyEnd (c : Client) : Option (Client × List Call) :=
  (c.window c.currentPan).map fun w =>
    ((c.setRow (w.lines - 1)).setOffset (maxOffset c.chatlist.size w), [.drawSide])

/-- `g`, in both panes -/
def keyPrefix (c : Client) : Client × List Call :=
  if c.inputState.state = .S_KEY_PREF then
    let c' := { c with inputState := c.inputState.reset }
    if c.inputState.prefKey = 'g'.toNat then ((c'.setOffset 0).setRow 0, [.drawSide])
    else (c', [])
  else
    ({ c with inputState := { c.inputState with state := .S_KEY_PREF, prefKey := 'g'.toNat } }, [])

/-- The chat of the list at the cursor's row of the focused pane. A negative sum is a large
`size_t`. -/
def cursorChat (c : Client) : Option Int :=
  let i : Int := c.offset + c.cursor.1
  if 0 ≤ i then (c.chatlist.elems[i.toNat]?).map (·.2) else none

/-- `o`, in both panes -/
def keyOpen (c : Client) : Client × List Call :=
  match c.cursorChat with
  | some chatId => ({ c with chosenChatId := chatId }, [.drawSide, .getChatHistory chatId])
  | none => (c, [])

/-- The keys of the focused pane. -/
def paneKey (c : Client) (key : Char) : Option (Client × List Call) :=
  match c.currentPan, key with
  | .comp, _ => some (c, [])
  | _, 'h' => some (c.keyLeft, [])
  | _, 'l' => c.keyRight.map (·, [])
  | .side, 'j' => c.sideDown
  | .side, 'k' => some c.sideUp
  | .main, 'j' => c.mainDown
  | .main, 'k' => c.mainUp
  | _, 'G' => c.keyEnd
  | _, 'g' => some c.keyPrefix
  | _, 'o' => some c.keyOpen
  | _, _ => some (c, [])

/-- `process_input` -/
def processInput (c : Client) : Key → Option (Client × List Call)
  | .mouse none => some (c, [])
  | .mouse (some m) =>
    let (inputState, sizes) := c.inputState.processMouse c.layout m
    let c := { c with inputState := inputState }
    match sizes with
    | some (newSideW, newComposerH) => c.resize newSideW newComposerH
    | none => some (c, [])
  | .resize s adjust =>
    { c with layout := c.layout.resizeTerm s adjust }.resize c.layout.sideW c.layout.composerH
  | .ctrlQ => some ({ c with cont := false, terminating := true }, [])
  | .tab => some ({ c with currentPan := c.currentPan.cycle }, [])
  | .err => some (c, [])
  | .char key => c.paneKey key

/-- The main loop's switch over the popped event. -/
def processEvent (c : Client) : Event → Option (Client × List Call)
  | .eventQuit => some ({ c with cont := false, terminating := true }, [])
  | .eventResize sideW compH => c.resize sideW compH
  | .eventChatlist => some (c, [.drawSide])
  | .eventCyclePanel => some ({ c with currentPan := c.currentPan.cycle }, [])
  | .eventMessages _ => some (c, [.drawMain])

end Client
end Chatcurse

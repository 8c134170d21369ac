import Mathlib.Logic.Function.Basic

/-!
# Windows, panels and the edges between them

The geometry of `src/layout.cc` and the mouse half of `src/process_input.cc`. A window is the
rectangle of screen cells it was made for; a panel whose window was deleted has none.
-/

namespace Chatcurse

structure Screen where
  LINES : Int
  COLS : Int
  lines_pos : 0 < LINES
  cols_pos : 0 < COLS

structure Window where
  lines : Int
  cols : Int
  begY : Int
  begX : Int
  lines_pos : 0 < lines
  cols_pos : 0 < cols

def Window.Covers (w : Window) (y x : Int) : Prop :=
  w.begY ≤ y ∧ y < w.begY + w.lines ∧ w.begX ≤ x ∧ x < w.begX + w.cols

instance (w : Window) (y x : Int) : Decidable (w.Covers y x) :=
  inferInstanceAs (Decidable (_ ∧ _))

/-- ncurses: a count of 0 extends the window to the edge of the screen; there is no window with a
negative argument or with a count that is not positive then. -/
def Screen.newwin (s : Screen) (nlines ncols begY begX : Int) : Option Window :=
  if nlines < 0 ∨ ncols < 0 ∨ begY < 0 ∨ begX < 0 then none else
  let lines := if nlines = 0 then s.LINES - begY else nlines
  let cols := if ncols = 0 then s.COLS - begX else ncols
  if h : 0 < lines ∧ 0 < cols then some ⟨lines, cols, begY, begX, h.1, h.2⟩ else none

/-- `ID_SIDE`, `ID_MAIN`, `ID_COMP`, `ID_E_SIDE_MAIN` and `ID_C_SIDE_MAIN_COMP` as the keys of
`panels`. -/
inductive PanelId where
  | side
  | main
  | comp
  | eSideMain
  | cSideMainComp
  deriving DecidableEq

/-- The values of `input_state.mbuf.where`. -/
def ID_SIDE : Nat := 1
def ID_MAIN : Nat := 2
def ID_COMP : Nat := 4
def ID_E_SIDE_MAIN : Nat := 16
def ID_E_COMP_TOP : Nat := 32
def ID_C_SIDE_MAIN_COMP : Nat := ID_E_SIDE_MAIN ||| ID_E_COMP_TOP

structure Layout where
  screen : Screen
  sideW : Int
  composerH : Int
  panels : PanelId → Option Window

namespace Layout

/-- The five `newwin` calls of `init_layout` and `resize`. -/
def newWindows (s : Screen) (sideW composerH : Int) : PanelId → Option Window
  | .side => s.newwin (s.LINES - composerH - 1) sideW 0 0
  | .main => s.newwin (s.LINES - composerH - 1) (s.COLS - sideW - 1) 0 (sideW + 1)
  | .comp => s.newwin composerH s.COLS (s.LINES - composerH) 0
  | .eSideMain => s.newwin (s.LINES - composerH - 1) 1 0 sideW
  | .cSideMainComp => s.newwin 1 s.COLS (s.LINES - composerH - 1) 0

/-- `init_config` and `init_layout` -/
def init (s : Screen) : Layout where
  screen := s
  sideW := min 32 (s.COLS / 4)
  composerH := min 3 (s.LINES / 5)
  panels := newWindows s (min 32 (s.COLS / 4)) (min 3 (s.LINES / 5))

/-- `resize`. `replace_panel` with a null window leaves the panel on the window that is then
deleted. -/
def resize (l : Layout) (newSideW newComposerH : Int) : Layout :=
  if newSideW ≥ l.screen.COLS then l
  else if newComposerH ≥ l.screen.LINES then l
  else { l with
    sideW := newSideW
    composerH := newComposerH
    panels := newWindows l.screen newSideW newComposerH }

/-- What ncurses does before it reports `KEY_RESIZE`: it takes the new size, and may shrink or
stretch the windows there are. -/
def resizeTerm (l : Layout) (s : Screen) (adjust : Window → Window) : Layout :=
  { l with screen := s, panels := fun id => (l.panels id).map adjust }

end Layout

/-! ## The mouse -/

/-- `BUTTON1_PRESSED`, `BUTTON1_RELEASED` and `REPORT_MOUSE_POSITION` of `bstate`, and the cell. -/
structure MEvent where
  button1Pressed : Bool
  button1Released : Bool
  reportMousePosition : Bool
  y : Int
  x : Int

inductive InputMode where
  | S_NONE
  | S_MOUSE_DRAG
  | S_KEY_PREF
  deriving DecidableEq

/-- `input_state_str` -/
structure InputState where
  state : InputMode := .S_NONE
  mbufEdge : Bool := false
  mbufWhere : Nat := 0
  prefKey : Nat := 0

namespace InputState

def reset (i : InputState) : InputState := { i with state := .S_NONE }

/-- `process_B1_pressed` -/
def processB1Pressed (i : InputState) (l : Layout) (m : MEvent) : InputState :=
  let place : Bool × Nat :=
    if m.y < l.screen.LINES - l.composerH - 1 then
      if m.x < l.sideW then (false, ID_SIDE)
      else if m.x > l.sideW then (false, ID_MAIN)
      else (true, ID_E_SIDE_MAIN)
    else if m.y > l.screen.LINES - l.composerH - 1 then (false, ID_COMP)
    else if m.x = l.sideW then (true, ID_C_SIDE_MAIN_COMP)
    else (true, ID_E_COMP_TOP)
  let i := { i with mbufEdge := place.1, mbufWhere := place.2 }
  if place.1 then { i with state := .S_MOUSE_DRAG } else i.reset

/-- A drag report asks for these sizes. -/
def dragSizes (i : InputState) (l : Layout) (m : MEvent) : Int × Int :=
  (if i.mbufWhere &&& ID_E_SIDE_MAIN ≠ 0 then m.x else l.sideW,
    if i.mbufWhere &&& ID_E_COMP_TOP ≠ 0 then l.screen.LINES - m.y - 1 else l.composerH)

/-- `process_mouse`, with the sizes it calls `resize` with if it does. -/
def processMouse (i : InputState) (l : Layout) (m : MEvent) : InputState × Option (Int × Int) :=
  if m.button1Pressed then (i.processB1Pressed l m, none)
  else if m.button1Released then (i.reset, none)
  else if m.reportMousePosition then
    (i, if i.state = .S_MOUSE_DRAG then some (i.dragSizes l m) else none)
  else (i, none)

end InputState

/-! ## Drags and terminal sizes -/

/-- The part of the UI that decides where the windows are. -/
structure Frame where
  layout : Layout
  input : InputState

inductive FrameEvent where
  /-- `KEY_MOUSE` -/
  | mouse (m : MEvent)
  /-- `KEY_RESIZE` -/
  | resize (s : Screen) (adjust : Window → Window)

namespace Frame

def init (s : Screen) : Frame := ⟨.init s, {}⟩

/-- The terminals considered, five rows and four columns at least. -/
def Roomy (s : Screen) : Prop := 5 ≤ s.LINES ∧ 4 ≤ s.COLS

instance (s : Screen) : Decidable (Roomy s) := inferInstanceAs (Decidable (_ ∧ _))

/-- The mouse is on the screen, the terminal is roomy. -/
def Occurs (f : Frame) : FrameEvent → Prop
  | .mouse m => 0 ≤ m.y ∧ m.y < f.layout.screen.LINES ∧ 0 ≤ m.x ∧ m.x < f.layout.screen.COLS
  | .resize s _ => Roomy s

instance (f : Frame) : ∀ e, Decidable (f.Occurs e)
  | .mouse _ => inferInstanceAs (Decidable (_ ∧ _))
  | .resize .. => inferInstanceAs (Decidable (Roomy _))

/-- What `process_input` does with a mouse report or a `KEY_RESIZE`. -/
def handle (f : Frame) : FrameEvent → Frame
  | .mouse m =>
    let (input, sizes) := f.input.processMouse f.layout m
    ⟨match sizes with
      | some (newSideW, newComposerH) => f.layout.resize newSideW newComposerH
      | none => f.layout, input⟩
  | .resize s adjust =>
    { f with layout := (f.layout.resizeTerm s adjust).resize f.layout.sideW f.layout.composerH }

/-- A step with an event that can occur. -/
def step (f : Frame) (e : FrameEvent) : Option Frame :=
  if f.Occurs e then some (f.handle e) else none

end Frame
end Chatcurse

import Chatcurse.Layout
import Chatcurse.Theory.Run

/-!
# The five windows tile the screen

`resize` bounds the sizes it accepts from above only, by the screen. The windows it then makes tile
the screen exactly when both borders stay off the edges (`newWindows_tiled_iff`): a size of 0 is an
extension to the edge for `newwin`, and so is what is left beside a size that is one less than the
screen's. Over whole runs this is a condition on the drag reports and on the terminal sizes
(`tiled_of_fits`); where no `KEY_RESIZE` is rejected it is exact (`tiled_iff_fits`).
-/

namespace Chatcurse

theorem Screen.newwin_of_pos (s : Screen) (hl : 0 < lines) (hc : 0 < cols) (hy : 0 ≤ begY)
    (hx : 0 ≤ begX) : s.newwin lines cols begY begX = some ⟨lines, cols, begY, begX, hl, hc⟩ := by
  rw [Screen.newwin, if_neg (by omega)]
  simp only [if_neg (show ¬lines = 0 by omega), if_neg (show ¬cols = 0 by omega)]
  exact dif_pos ⟨hl, hc⟩

namespace Layout

/-- Every panel has a window, and every cell of the screen is covered by exactly one of them. -/
structure Tiled (l : Layout) : Prop where
  live : ∀ id, ∃ w, l.panels id = some w
  covered : ∀ y x, 0 ≤ y → y < l.screen.LINES → 0 ≤ x → x < l.screen.COLS →
    ∃! id, ∃ w ∈ l.panels id, w.Covers y x

/-- Both borders leave a row or a column on each side. -/
def InRange (s : Screen) (sideW composerH : Int) : Prop :=
  1 ≤ sideW ∧ sideW + 2 ≤ s.COLS ∧ 1 ≤ composerH ∧ composerH + 2 ≤ s.LINES

/-- The windows are those made for the sizes and the screen of now. -/
structure Laid (l : Layout) : Prop where
  panels : l.panels = newWindows l.screen l.sideW l.composerH
  sideW_nonneg : 0 ≤ l.sideW
  sideW_lt : l.sideW < l.screen.COLS
  composerH_nonneg : 0 ≤ l.composerH
  composerH_lt : l.composerH < l.screen.LINES

/-- The panel a cell belongs to. -/
def owner (s : Screen) (sideW composerH y x : Int) : PanelId :=
  if y < s.LINES - composerH - 1 then
    if x < sideW then .side else if x = sideW then .eSideMain else .main
  else if y = s.LINES - composerH - 1 then .cSideMainComp else .comp

section
variable {s : Screen} {w h : Int}

theorem InRange.live (hr : InRange s w h) (id : PanelId) :
    ∃ win, newWindows s w h id = some win := by
  obtain ⟨hw, hw', hh, hh'⟩ := hr
  cases id <;> exact ⟨_, s.newwin_of_pos (by omega) (by omega) (by omega) (by omega)⟩

theorem InRange.covers_iff (hr : InRange s w h) (hy : 0 ≤ y) (hy' : y < s.LINES) (hx : 0 ≤ x)
    (hx' : x < s.COLS) (id : PanelId) :
    (∃ win ∈ newWindows s w h id, win.Covers y x) ↔ id = owner s w h y x := by
  obtain ⟨hw, hw', hh, hh'⟩ := hr
  have hown : ∀ win, newWindows s w h id = some win →
      ((∃ win ∈ newWindows s w h id, win.Covers y x) ↔ win.Covers y x) := by
    intro win hwin
    simp [hwin]
  unfold owner
  cases id with
  | side | main | comp | eSideMain | cSideMainComp =>
    rw [hown _ (s.newwin_of_pos (by omega) (by omega) (by omega) (by omega)), Window.Covers]
    grind

theorem InRange.tiled (hr : InRange s w h) : Tiled ⟨s, w, h, newWindows s w h⟩ where
  live := hr.live
  covered y x hy hy' hx hx' :=
    ⟨owner s w h y x, (hr.covers_iff hy hy' hx hx' _).mpr rfl,
      fun id hid => (hr.covers_iff hy hy' hx hx' id).mp hid⟩

/-- Two panels whose windows cover one cell of the screen. -/
theorem Tiled.eq_of_covers {l : Layout} (ht : l.Tiled) (hy : 0 ≤ y) (hy' : y < l.screen.LINES)
    (hx : 0 ≤ x) (hx' : x < l.screen.COLS) (hi : l.panels i = some win)
    (hj : l.panels j = some win') (hc : win.Covers y x) (hc' : win'.Covers y x) : i = j :=
  (ht.covered y x hy hy' hx hx').unique ⟨win, hi, hc⟩ ⟨win', hj, hc'⟩

/-- A window at the origin covers its cell, whatever its counts. -/
theorem covers_origin (hl : 0 ≤ lines) (hc : 0 ≤ cols) :
    ∃ win, s.newwin lines cols 0 0 = some win ∧ win.Covers 0 0 := by
  have hlines := s.lines_pos
  have hcols := s.cols_pos
  have hpos : 0 < (if lines = 0 then s.LINES - 0 else lines) ∧
      0 < (if cols = 0 then s.COLS - 0 else cols) := by
    constructor <;> split <;> omega
  refine ⟨⟨_, _, 0, 0, hpos.1, hpos.2⟩, ?_, ?_⟩
  · rw [Screen.newwin, if_neg (by omega)]
    exact dif_pos hpos
  · exact ⟨Int.le_refl 0, by rw [Int.zero_add]; exact hpos.1, Int.le_refl 0,
      by rw [Int.zero_add]; exact hpos.2⟩

theorem Tiled.inRange (ht : Tiled ⟨s, w, h, newWindows s w h⟩) (hw : 0 ≤ w) (hw' : w < s.COLS)
    (hh : 0 ≤ h) (hh' : h < s.LINES) : InRange s w h := by
  have hlines := s.lines_pos
  have hcols := s.cols_pos
  obtain ⟨side, hside, hcside⟩ := covers_origin (s := s) (show 0 ≤ s.LINES - h - 1 by omega) hw
  have hw0 : w ≠ 0 := by
    intro h0
    subst h0
    obtain ⟨border, hborder, hcborder⟩ :=
      covers_origin (s := s) (show 0 ≤ s.LINES - h - 1 by omega) (show (0 : Int) ≤ 1 by omega)
    have heq : PanelId.side = .eSideMain :=
      ht.eq_of_covers (Int.le_refl 0) hlines (Int.le_refl 0) hcols hside hborder hcside hcborder
    contradiction
  have hh1 : h ≠ s.LINES - 1 := by
    intro h1
    obtain ⟨top, htop, hctop⟩ :=
      covers_origin (s := s) (show (0 : Int) ≤ 1 by omega) (show 0 ≤ s.COLS by omega)
    have htop' : newWindows s w h .cSideMainComp = some top := by
      rw [← htop, newWindows, h1]
      congr 1
      omega
    have heq : PanelId.side = .cSideMainComp :=
      ht.eq_of_covers (Int.le_refl 0) hlines (Int.le_refl 0) hcols hside htop' hcside hctop
    contradiction
  have hw1 : w ≠ s.COLS - 1 := by
    intro h1
    have hrest : s.COLS - w - 1 = 0 := by omega
    have hedge : w + 1 = s.COLS := by omega
    obtain ⟨win, hmain⟩ := ht.live .main
    simp [newWindows, Screen.newwin, hrest, hedge] at hmain
  have hh0 : h ≠ 0 := by
    intro h0
    obtain ⟨win, hcomp⟩ := ht.live .comp
    simp [newWindows, Screen.newwin, h0] at hcomp
  exact ⟨by omega, by omega, by omega, by omega⟩

/-- **One layout**: the windows made for accepted sizes tile the screen exactly when both borders
leave a row or a column on each side. -/
theorem newWindows_tiled_iff (hw : 0 ≤ w) (hw' : w < s.COLS) (hh : 0 ≤ h) (hh' : h < s.LINES) :
    Tiled ⟨s, w, h, newWindows s w h⟩ ↔ InRange s w h :=
  ⟨fun ht => ht.inRange hw hw' hh hh', fun hr => hr.tiled⟩

theorem resize_eq {l : Layout} (hw : w < l.screen.COLS) (hh : h < l.screen.LINES) :
    l.resize w h = ⟨l.screen, w, h, newWindows l.screen w h⟩ := by
  rw [resize, if_neg (by omega), if_neg (by omega)]

/-- Rejected sizes leave everything as it is. -/
theorem resize_eq_or (l : Layout) (w h : Int) :
    l.resize w h = l ∨ l.resize w h = ⟨l.screen, w, h, newWindows l.screen w h⟩ := by
  rcases Int.lt_or_le w l.screen.COLS with hw | hw
  · rcases Int.lt_or_le h l.screen.LINES with hh | hh
    · exact .inr (resize_eq hw hh)
    · exact .inl (by rw [resize, if_neg (Int.not_le.mpr hw), if_pos hh])
  · exact .inl (if_pos hw)

theorem resize_screen (l : Layout) (w h : Int) : (l.resize w h).screen = l.screen := by
  rcases l.resize_eq_or w h with heq | heq <;> rw [heq]

theorem resize_sideW (l : Layout) (h : Int) : (l.resize l.sideW h).sideW = l.sideW := by
  rcases l.resize_eq_or l.sideW h with heq | heq <;> rw [heq]

theorem resize_composerH (l : Layout) (w : Int) :
    (l.resize w l.composerH).composerH = l.composerH := by
  rcases l.resize_eq_or w l.composerH with heq | heq <;> rw [heq]

/-- Accepted sizes lay the windows out anew; what there was before does not matter. -/
theorem resize_laid {l : Layout} (hw : 0 ≤ w) (hw' : w < l.screen.COLS) (hh : 0 ≤ h)
    (hh' : h < l.screen.LINES) : (l.resize w h).Laid := by
  rw [resize_eq hw' hh']
  exact ⟨rfl, hw, hw', hh, hh'⟩

theorem resize_tiled_iff {l : Layout} (hw : 0 ≤ w) (hw' : w < l.screen.COLS) (hh : 0 ≤ h)
    (hh' : h < l.screen.LINES) : (l.resize w h).Tiled ↔ InRange l.screen w h := by
  rw [resize_eq hw' hh', newWindows_tiled_iff hw hw' hh hh']

theorem Laid.of_inRange {l : Layout} (hp : l.panels = newWindows l.screen l.sideW l.composerH)
    (hr : InRange l.screen l.sideW l.composerH) : l.Laid := by
  obtain ⟨hw, hw', hh, hh'⟩ := hr
  exact ⟨hp, by omega, by omega, by omega, by omega⟩

theorem Laid.tiled_iff {l : Layout} (hl : l.Laid) :
    l.Tiled ↔ InRange l.screen l.sideW l.composerH := by
  rw [← newWindows_tiled_iff hl.sideW_nonneg hl.sideW_lt hl.composerH_nonneg hl.composerH_lt,
    ← hl.panels]

end

end Layout

namespace Frame
open Layout

/-- A mouse report that moves a border. -/
def Drags (f : Frame) (m : MEvent) : Prop :=
  f.input.state = .S_MOUSE_DRAG ∧ m.button1Pressed = false ∧ m.button1Released = false ∧
    m.reportMousePosition = true

instance (f : Frame) (m : MEvent) : Decidable (f.Drags m) := inferInstanceAs (Decidable (_ ∧ _))

/-- A border is dragged to a cell off the edges of the screen, and a new screen leaves room beside
the sizes of now. -/
def Fits (f : Frame) : FrameEvent → Prop
  | .mouse m => f.Drags m →
    (f.input.mbufWhere &&& ID_E_SIDE_MAIN ≠ 0 → 1 ≤ m.x ∧ m.x + 2 ≤ f.layout.screen.COLS) ∧
    (f.input.mbufWhere &&& ID_E_COMP_TOP ≠ 0 → 1 ≤ m.y ∧ m.y + 2 ≤ f.layout.screen.LINES)
  | .resize s _ => f.layout.sideW + 2 ≤ s.COLS ∧ f.layout.composerH + 2 ≤ s.LINES

instance (f : Frame) : ∀ e, Decidable (f.Fits e)
  | .mouse _ => inferInstanceAs (Decidable (_ → _))
  | .resize .. => inferInstanceAs (Decidable (_ ∧ _))

/-- `resize` does not reject the sizes of now on a new screen. -/
def Accepts (f : Frame) : FrameEvent → Prop
  | .mouse _ => True
  | .resize s _ => f.layout.sideW < s.COLS ∧ f.layout.composerH < s.LINES

theorem Fits.accepts {f : Frame} (h : f.Fits e) : f.Accepts e := by
  cases e with
  | mouse m => trivial
  | resize s adjust =>
    obtain ⟨hw, hh⟩ := h
    exact ⟨by omega, by omega⟩

theorem handle_mouse_layout (f : Frame) (m : MEvent) :
    (f.handle (.mouse m)).layout = if f.Drags m then
      f.layout.resize (f.input.dragSizes f.layout m).1 (f.input.dragSizes f.layout m).2
    else f.layout := by
  have hsizes : (f.input.processMouse f.layout m).2 =
      if f.Drags m then some (f.input.dragSizes f.layout m) else none := by
    unfold InputState.processMouse
    cases hp : m.button1Pressed with
    | true => simp [Drags, hp]
    | false =>
      cases hr : m.button1Released with
      | true => simp [Drags, hr]
      | false => cases hm : m.reportMousePosition <;> simp [Drags, hp, hr, hm]
  simp only [handle, hsizes]
  split <;> simp_all

/-- A drag asks for sizes that are not negative and stay below those of the screen. -/
theorem dragSizes_lt {f : Frame} (hl : f.layout.Laid) (ho : f.Occurs (.mouse m)) :
    let sizes := f.input.dragSizes f.layout m
    (0 ≤ sizes.1 ∧ sizes.1 < f.layout.screen.COLS) ∧
      0 ≤ sizes.2 ∧ sizes.2 < f.layout.screen.LINES := by
  obtain ⟨hy, hy', hx, hx'⟩ := ho
  obtain ⟨-, hw, hw', hh, hh'⟩ := hl
  simp only [InputState.dragSizes]
  constructor <;> split <;> omega

theorem step_laid {f f' : Frame} (hl : f.layout.Laid) (ha : f.Accepts e)
    (hs : f.step e = some f') : f'.layout.Laid := by
  obtain ⟨hocc, heq⟩ := Option.ite_none_right_eq_some.mp hs
  cases heq
  cases e with
  | mouse m =>
    obtain ⟨⟨hw, hw'⟩, hh, hh'⟩ := dragSizes_lt hl hocc
    rw [handle_mouse_layout]
    split
    · exact resize_laid hw hw' hh hh'
    · exact hl
  | resize s adjust => exact resize_laid hl.sideW_nonneg ha.1 hl.composerH_nonneg ha.2

/-- One step from a laid out, tiled screen keeps it tiled exactly when it fits. -/
theorem step_tiled_iff {f f' : Frame} (hl : f.layout.Laid) (ht : f.layout.Tiled) (ha : f.Accepts e)
    (hs : f.step e = some f') : f'.layout.Tiled ↔ f.Fits e := by
  obtain ⟨hw, hw', hh, hh'⟩ := hl.tiled_iff.mp ht
  obtain ⟨hocc, heq⟩ := Option.ite_none_right_eq_some.mp hs
  cases heq
  cases e with
  | mouse m =>
    obtain ⟨⟨hdw, hdw'⟩, hdh, hdh'⟩ := dragSizes_lt hl hocc
    rw [handle_mouse_layout]
    split
    next hd =>
      rw [resize_tiled_iff hdw hdw' hdh hdh']
      simp only [Fits, hd, true_imp_iff, InRange, InputState.dragSizes]
      split <;> split <;> simp_all <;> omega
    next hd => exact iff_of_true ht fun h => (hd h).elim
  | resize s adjust =>
    have hiff := resize_tiled_iff (l := f.layout.resizeTerm s adjust) hl.sideW_nonneg ha.1
      hl.composerH_nonneg ha.2
    exact hiff.trans ⟨fun h => ⟨h.2.1, h.2.2.2⟩, fun h => ⟨hw, h.1, hh, h.2⟩⟩

theorem init_inRange (h : Roomy s) : InRange s (init s).layout.sideW (init s).layout.composerH := by
  obtain ⟨hl, hc⟩ := h
  simp only [init, Layout.init, InRange]
  omega

/-- Where no `KEY_RESIZE` is rejected, the screen is tiled all along a run exactly when every step
of it fits. -/
theorem tiled_iff_fits (h : Roomy s) (ha : Run.Guarded step Accepts (init s) es) :
    Run.Always step (·.layout.Tiled) (init s) es ↔ Run.Guarded step Fits (init s) es := by
  have hr := init_inRange h
  have hlaid : (init s).layout.Laid := .of_inRange rfl hr
  have hlaids : Run.Always step (·.layout.Laid) (init s) es :=
    .of_guarded (fun _ _ _ hl ha hs => step_laid hl ha hs) hlaid ha
  rw [← Run.always_iff_guarded_of (P := fun f => f.layout.Laid ∧ f.layout.Tiled)
    (fun _ _ _ h ha hs => ?_) ⟨hlaid, hlaid.tiled_iff.mpr hr⟩ ha]
  · exact ⟨hlaids.and, .mono fun _ h => h.2⟩
  · exact (and_iff_right (step_laid h.1 ha hs)).trans (step_tiled_iff h.1 h.2 ha hs)

/-- **The five windows tile the screen** in every state of a run that keeps the borders off the
edges of the screen. -/
theorem tiled_of_fits (h : Roomy s) (hf : Run.Guarded step Fits (init s) es) :
    Run.Always step (·.layout.Tiled) (init s) es :=
  (tiled_iff_fits h (hf.mono fun _ _ => Fits.accepts)).mpr hf

def screen24x80 : Screen := ⟨24, 80, by decide, by decide⟩

def screen5x30 : Screen := ⟨5, 30, by decide, by decide⟩

def button1 (y x : Int) : FrameEvent := .mouse ⟨true, false, false, y, x⟩

def motion (y x : Int) : FrameEvent := .mouse ⟨false, false, true, y, x⟩

/-- Both borders are dragged by their common corner, and the terminal shrinks and grows. -/
def cornerDrag : List FrameEvent :=
  [button1 20 20, motion 22 1, motion 1 78, motion 22 20, .resize screen5x30 id,
    .resize screen24x80 fun w => w]

theorem tiled_of_fits_cornerDrag :
    (∃ f, Run.exec step (init screen24x80) cornerDrag = some f ∧ f.layout.sideW = 20 ∧
      f.layout.composerH = 1) ∧
    Run.Always step (·.layout.Tiled) (init screen24x80) cornerDrag :=
  ⟨⟨_, rfl, rfl, rfl⟩, tiled_of_fits (by decide) (by decide)⟩

/-- The side border is dragged to the first column: the side window has no column left, so
`newwin` extends it over the whole width. -/
theorem dragged_to_edge_not_tiled :
    ∃ f, Run.exec step (init screen24x80) [button1 0 20, motion 0 0] = some f ∧
      ¬f.layout.Tiled := by
  refine ⟨_, rfl, fun ht => ?_⟩
  have heq : PanelId.side = .eSideMain :=
    ht.eq_of_covers (y := 0) (x := 0) (by decide) (by decide) (by decide) (by decide) rfl rfl
      (by decide) (by decide)
  contradiction

end Frame
end Chatcurse

import Chatcurse.Verify.System

/-!
# The message pane shows the state of now

`draw_main` shows the chosen chat, the offset of the main pane and the chat's messages. A history
variable says whether one of them changed after `draw_main` ran last. The keys `j` and `k` draw
after they scroll, `o` asks for the history, whose handler announces what it adds; but `G` and `gg`
in the main pane draw the other pane, and an answer without messages announces nothing. Where a
redraw is `Due` whenever one of these happens, the pane is up to date whenever both threads rest
(`picture_upToDate`).
-/

namespace Chatcurse

/-- The call is `draw_main`, or a request whose answer leads to it. -/
def Call.redraws : Call → Bool
  | drawMain | getChatHistory _ => true
  | drawSide | popAndGet => false

/-- The step pushes `ET_MESSAGES`. -/
def TgAction.announces : TgAction → Bool
  | push (.eventMessages _) => true
  | _ => false

/-- After the last message that is put into the store, `ET_MESSAGES` is pushed. -/
def Announced : List TgAction → Prop
  | [] => True
  | .emplace .. :: rest => (∃ a ∈ rest, a.announces) ∧ Announced rest
  | _ :: rest => Announced rest

theorem announced_of_not_emplace {as : List TgAction} (h : ∀ a ∈ as, ∀ c m, a ≠ .emplace c m) :
    Announced as := by
  induction as with
  | nil => trivial
  | cons a as ih =>
    have has := ih fun b hb => h b (List.mem_cons_of_mem _ hb)
    cases a with
    | emplace c m => exact (h _ List.mem_cons_self c m rfl).elim
    | lock | unlock | addToList | updatePosition | setChat | setLastMessage | push => exact has

theorem Announced.tail (h : Announced (a :: rest)) : Announced rest := by
  cases a with
  | emplace => exact h.2
  | lock | unlock | addToList | updatePosition | setChat | setLastMessage | push => exact h

theorem announced_updateProgram (u : Update) : Announced u.program := by
  apply announced_of_not_emplace
  intro a ha c m heq
  subst heq
  cases u <;> simp [Update.program] at ha

/-- Messages are put into the store before something is announced. -/
theorem announced_emplaces (chatId : Int) (ms : List (Option Message)) (hb : b ∈ bs)
    (hann : b.announces) (hbs : Announced bs) : Announced (ms.map (.emplace chatId) ++ bs) := by
  induction ms with
  | nil => exact hbs
  | cons m ms ih => exact ⟨⟨b, List.mem_append_right _ hb, hann⟩, ih⟩

theorem announced_answerProgram {a : Answer} (h : a.program = some p) :
    Announced p ∧ (p = [] ∨ ∃ b ∈ p, b.announces) := by
  rcases Answer.program_cases h with rfl | ⟨chatId, ms, rfl⟩
  · exact ⟨trivial, .inl rfl⟩
  · refine ⟨announced_emplaces chatId ms List.mem_cons_self rfl trivial, .inr ?_⟩
    exact ⟨.push (.eventMessages chatId), by simp, rfl⟩

namespace System
open Client

/-- What `draw_main` shows. -/
def mainView (c : Client) : Int × Nat × List Message :=
  (c.chosenChatId, c.scrollOffset .main, c.chosenMessages.elems)

/-- Whether what `draw_main` shows has changed since it ran last. -/
def noteMain (s : System) (l : Label) (s' : System) (stale : Bool) : Bool :=
  match l, s.ui with
  | .ui, .drawMain :: _ => false
  | _, _ => stale || mainView s'.client ≠ mainView s.client

/-- Nothing is queued or requested, and both threads are between two rounds. -/
def AtRest (s : System) : Prop :=
  s.client.eventQueue.queue = [] ∧ s.outstanding = [] ∧ s.tg = [] ∧ s.ui = []

/-- A call of `draw_main` is to come, or something that leads to one. -/
def Due (s : System) : Prop :=
  (∃ c ∈ s.ui, c.redraws) ∨ Event.ET_MESSAGES ∈ s.client.eventQueue.queue ∨
    (∃ a ∈ s.tg, a.announces) ∨ s.outstanding ≠ []

instance (s : System) : Decidable s.Due := inferInstanceAs (Decidable (_ ∨ _ ∨ _ ∨ _))

/-- `G` and `gg` move the main pane, and an answer without messages arrives for a pane that is not
up to date, only while a redraw is due otherwise. -/
def KeepsPicture (x : System × Bool) : Label → Prop
  | .input (.char key) =>
    (key = 'G' → x.1.client.currentPan = .main → ∀ w ∈ x.1.client.window .main,
      maxOffset x.1.client.chatlist.size w ≠ x.1.client.scrollOffset .main → x.1.Due) ∧
    (key = 'g' → x.1.client.currentPan = .main → x.1.client.inputState.state = .S_KEY_PREF →
      x.1.client.scrollOffset .main ≠ 0 → x.1.Due)
  | .answer i a =>
    a.program = some [] → x.2 → Due { x.1 with outstanding := x.1.outstanding.eraseIdx i }
  | _ => True

instance (x : System × Bool) : ∀ l, Decidable (KeepsPicture x l)
  | .input (.char _) => inferInstanceAs (Decidable (_ ∧ _))
  | .answer .. => inferInstanceAs (Decidable (_ → _ → _))
  | .input (.mouse _) | .input (.resize ..) | .input .ctrlQ | .input .tab | .input .err
  | .ui | .update _ | .tg => .isTrue trivial

/-- A pane that is not up to date will be drawn. -/
structure Redrawn (s : System) (stale : Bool) : Prop where
  queue : ∃ p, EventQueue.Refines s.client.eventQueue p
  announced : Announced s.tg
  due : stale → s.Due

theorem init_redrawn (screen : Screen) : Redrawn (init screen) true where
  queue := ⟨[], EventQueue.empty_refines⟩
  announced := trivial
  due _ := .inl ⟨.drawMain, by simp [init], rfl⟩

theorem stale_of_noteMain {s s' : System} (h : s.noteMain l s' stale) :
    stale ∨ mainView s'.client ≠ mainView s.client := by
  unfold noteMain at h
  split at h
  · cases h
  · simpa using h

theorem mainView_eq {c c' : Client} (hm : c'.messages = c.messages) (hv : SameView c c') :
    mainView c' = mainView c := by
  simp only [mainView, chosenMessages, hm, hv.chosenChatId, hv.scrollOffset]

theorem Redrawn.input {s : System} (h : s.Redrawn stale) (hk : KeepsPicture (s, stale) (.input k))
    (hui : s.ui = []) (hc : s.client.processInput k = some (c, calls)) :
    let s' : System := { s with client := c, ui := calls ++ [.popAndGet] }
    s'.Redrawn (s.noteMain (.input k) s' stale) := by
  intro s'
  obtain ⟨hd, he⟩ := processInput_cases hc
  -- what is due without a call of the UI thread is due afterwards
  have hkeep : s.Due → s'.Due := by
    rintro (⟨call, hcall, -⟩ | hq | htg | hout)
    · simp [hui] at hcall
    · exact .inr (.inl (hd.eventQueue ▸ hq))
    · exact .inr (.inr (.inl htg))
    · exact .inr (.inr (.inr hout))
  have hcall : ∀ call ∈ calls, call.redraws → s'.Due :=
    fun call hmem hred => .inl ⟨call, List.mem_append_left _ hmem, hred⟩
  have hsame : mainView c = mainView s.client → s.noteMain (.input k) s' stale → s'.Due := by
    intro heq hst
    rcases stale_of_noteMain hst with hst | hne
    · exact hkeep (h.due hst)
    · exact (hne heq).elim
  refine ⟨hd.eventQueue ▸ h.queue, h.announced, fun hst => ?_⟩
  cases he with
  | still hv => exact hsame (mainView_eq hd.messages hv) hst
  | opens chatId hkey hpan hchat hchosen hoffset hcalls =>
    exact hcall (.getChatHistory chatId) (by simp [hcalls]) rfl
  | scrolls key n hkey hn hchosen hoffset =>
    subst hkey
    have hview : c.scrollOffset .main = s.client.scrollOffset .main →
        mainView c = mainView s.client := by
      intro hoff
      simp only [mainView, chosenMessages, hd.messages, hchosen, hoff]
    rcases scrolled_offset hoffset .main with ⟨hpan, heq⟩ | ⟨-, heq⟩
    · have hmoved : (n ≠ s.client.scrollOffset .main → s.Due) → s'.Due := by
        intro hdue
        rcases eq_or_ne n (s.client.scrollOffset .main) with hn | hn
        · exact hsame (hview (heq.trans hn)) hst
        · exact hkeep (hdue hn)
      cases hn with
      | sideDown hside | sideUp hside =>
        rw [hside] at hpan
        contradiction
      | mainDown | mainUp => exact hcall .drawMain (by simp) rfl
      | toEnd _ hw => exact hmoved (hk.1 rfl hpan _ (hpan ▸ hw))
      | toTop _ hstate => exact hmoved fun hne => hk.2 rfl hpan hstate (Ne.symm hne)
    · exact hsame (hview heq) hst

theorem Redrawn.write {s : System} (h : s.Redrawn stale) (htg : s.tg = a :: rest)
    (ha : a.run s.client = some c) :
    let s' : System := { s with client := c, tg := rest }
    s'.Redrawn (s.noteMain .tg s' stale) := by
  intro s'
  have hann : Announced (a :: rest) := htg ▸ h.announced
  have hrefines := TgAction.run_refines ha h.queue
  -- only a push writes to the queue, and it makes due what it announces
  have hkeep : c.eventQueue = s.client.eventQueue → a.announces = false → s.Due → s'.Due := by
    rintro hqueue hna (hui | hq | ⟨b, hb, hbp⟩ | hout)
    · exact .inl hui
    · exact .inr (.inl (hqueue ▸ hq))
    · rw [htg] at hb
      rcases List.mem_cons.mp hb with rfl | hb
      · simp [hna] at hbp
      · exact .inr (.inr (.inl ⟨b, hb, hbp⟩))
    · exact .inr (.inr (.inr hout))
  have hsame : mainView c = mainView s.client → (s.Due → s'.Due) →
      s.noteMain .tg s' stale → s'.Due := by
    intro heq hdue hst
    rcases stale_of_noteMain hst with hst | hne
    · exact hdue (h.due hst)
    · exact (hne heq).elim
  cases a with
  | push e =>
    cases ha
    obtain ⟨p, hp⟩ := h.queue
    refine ⟨hrefines, hann.tail, hsame rfl ?_⟩
    rintro (hui | hq | ⟨b, hb, hbp⟩ | hout)
    · exact .inl hui
    · exact .inr (.inl (EventQueue.mem_push_queue _ hq e))
    · rw [htg] at hb
      rcases List.mem_cons.mp hb with rfl | hb
      · cases e with
        | eventMessages chatId =>
          have hmem := hp.type_mem_push (.eventMessages chatId)
          exact .inr (.inl hmem)
        | eventQuit | eventResize | eventChatlist | eventCyclePanel => cases hbp
      · exact .inr (.inr (.inl ⟨b, hb, hbp⟩))
    · exact .inr (.inr (.inr hout))
  | emplace chatId m =>
    obtain ⟨_, -, rfl⟩ := Option.map_eq_some_iff.mp ha
    exact ⟨h.queue, hann.tail, fun _ => .inr (.inr (.inl hann.1))⟩
  | setLastMessage chatId m =>
    obtain ⟨_, -, rfl⟩ := Option.map_eq_some_iff.mp ha
    exact ⟨h.queue, hann.tail, hsame rfl (hkeep rfl rfl)⟩
  | lock | unlock | addToList | updatePosition | setChat =>
    cases ha
    exact ⟨h.queue, hann.tail, hsame rfl (hkeep rfl rfl)⟩

theorem Redrawn.step {s s' : System} (h : s.Redrawn stale) (hk : KeepsPicture (s, stale) l)
    (hs : s.step l = some s') : s'.Redrawn (s.noteMain l s' stale) := by
  have hstale : mainView s'.client = mainView s.client → s.noteMain l s' stale → stale := by
    intro heq hst
    exact (stale_of_noteMain hst).resolve_right fun hne => hne heq
  have hrefines := refines_step h.queue hs
  cases Steps.of_step hs with
  | input hui hc => exact h.input hk hui hc
  | write htg ha => exact h.write htg ha
  | drawMain hui => exact ⟨h.queue, h.announced, fun hst => by simp [noteMain, hui] at hst⟩
  | getChatHistory hui =>
    exact ⟨h.queue, h.announced, fun _ => .inr (.inr (.inr (by simp)))⟩
  | drawSide hui =>
    refine ⟨h.queue, h.announced, fun hst => (h.due (hstale rfl hst)).imp_left ?_⟩
    simp [hui, Call.redraws]
  | popNone hui hq =>
    obtain ⟨-, rfl⟩ := EventQueue.popAndGet_none hq
    refine ⟨hrefines, h.announced, fun hst => (h.due (hstale rfl hst)).imp_left ?_⟩
    simp [hui, Call.redraws]
  | @popSome rest q e c calls hui hq he =>
    obtain ⟨hd, hv⟩ := processEvent_frame he
    have hce : c.eventQueue = q := hd.eventQueue
    obtain ⟨p, hp⟩ := h.queue
    refine ⟨hrefines, h.announced, fun hst => ?_⟩
    have hview := mainView_eq hd.messages ⟨hv.chosenChatId, hv.scrollOffset⟩
    rcases h.due (hstale hview hst) with ⟨call, hcall, hred⟩ | hqueue | htg | hout
    · rw [hui] at hcall
      rcases List.mem_cons.mp hcall with rfl | hcall
      · cases hred
      · exact .inl ⟨call, List.mem_append_right _ hcall, hred⟩
    · rcases hp.type_or_mem hq hqueue with htype | hqueue
      · refine .inl ⟨.drawMain, List.mem_append_left _ ?_, rfl⟩
        simp [(processEvent_calls he).2 htype]
      · exact .inr (.inl (hce ▸ hqueue))
    · exact .inr (.inr (.inl htg))
    · exact .inr (.inr (.inr hout))
  | update htg =>
    refine ⟨h.queue, announced_updateProgram _, fun hst => (h.due (hstale rfl hst)).imp_right ?_⟩
    refine Or.imp_right (Or.imp_left ?_)
    simp [htg]
  | answer htg hi hp =>
    obtain ⟨hann, hp'⟩ := announced_answerProgram hp
    refine ⟨h.queue, hann, fun hst => ?_⟩
    rcases hp' with rfl | hpush
    · have hdue := hk hp (hstale rfl hst)
      simpa [Due, htg] using hdue
    · exact .inr (.inr (.inl hpush))
  | lock htg | unlock htg =>
    have hann := h.announced
    rw [htg] at hann
    refine ⟨h.queue, hann.tail, fun hst => (h.due (hstale rfl hst)).imp_right ?_⟩
    refine Or.imp_right (Or.imp_left ?_)
    simp [htg, hold, TgAction.announces]

/-- **The message pane is up to date** whenever both threads rest, in every run in which a redraw is
due whenever a key or an answer changes it, or fails to announce a change, without drawing it. -/
theorem picture_upToDate
    (hg : Run.Guarded (Run.observed step noteMain) KeepsPicture (init screen, true) ls) :
    Run.Always (Run.observed step noteMain) (fun x => x.1.AtRest → x.2 = false)
      (init screen, true) ls := by
  have ha : Run.Always (Run.observed step noteMain) (fun x => x.1.Redrawn x.2)
      (init screen, true) ls := by
    refine .of_guarded (fun x l x' hx hk hs => ?_) (init_redrawn screen) hg
    obtain ⟨s', hs', rfl⟩ := Option.map_eq_some_iff.mp hs
    exact hx.step hk hs'
  refine ha.mono fun x hx hrest => ?_
  obtain ⟨hqueue, hout, htg, hui⟩ := hrest
  by_contra hst
  have hdue := hx.due (by simpa using hst)
  simp [Due, hqueue, hout, htg, hui] at hdue

/-- A chat is opened, and everything but its history is drawn. -/
def openFirst : List Label := newChat 1 ++ [.ui, .ui, key 'o', .ui, .ui, .ui, .ui]

/-- The history arrives and is drawn, and then scrolled. -/
def openAndScroll : List Label :=
  let m (id : Int) : Option Message := some ⟨id, 1, 10 * id, .messageText (ascii "b")⟩
  openFirst ++ [.answer 0 (.messages ⟨4, [m 4, m 3, m 2, m 1]⟩)] ++ List.replicate 7 .tg ++
    [.input .tab, .ui, .ui, key 'k', .ui, .ui]

theorem picture_upToDate_openAndScroll :
    (∃ s, Run.exec (Run.observed step noteMain) (init screen5x4, true) openAndScroll =
      some (s, false) ∧ s.AtRest ∧ s.client.scrollOffset .main = 1) ∧
    Run.Always (Run.observed step noteMain) (fun x => x.1.AtRest → x.2 = false)
      (init screen5x4, true) openAndScroll :=
  ⟨⟨_, rfl, ⟨rfl, rfl, rfl, rfl⟩, rfl⟩, picture_upToDate (by decide)⟩

/-- The history has no messages. -/
def openEmpty : List Label := openFirst ++ [.answer 0 (.messages ⟨0, []⟩)]

theorem openEmpty_not_upToDate :
    ∃ s stale, Run.exec (Run.observed step noteMain) (init screen5x4, true) openEmpty =
      some (s, stale) ∧ ¬(s.AtRest → stale = false) :=
  ⟨_, true, rfl, fun h => by cases h ⟨rfl, rfl, rfl, rfl⟩⟩

end System
end Chatcurse

import Chatcurse.History
import Chatcurse.Theory.Run
import Mathlib.Data.List.ReduceOption

/-!
# What the history store keeps

The set of a chat compares its messages by date alone, so it holds one message for each date that
was received for the chat (`Received`), whichever came first. Under what TDLib guarantees for the
answers it holds every message exactly once, in an order and a content that do not depend on the
order of the answers, exactly when no two messages of one chat share a date (`exact_iff`).
-/

namespace Chatcurse

/-- The messages of an answer. -/
def Answer.received : Answer → List Message
  | .messages r => r.messages.reduceOption
  | .other => []

def HistoryEvent.received : HistoryEvent → List Message
  | .request _ => []
  | .answer _ a => a.received

/-- What TDLib guarantees for an answer to `getChatHistory`: its messages are not null and belong to
one chat, and `total_count_` is 0 exactly when there is none. -/
def Answer.WellFormed : Answer → Prop
  | .messages r => (∀ m ∈ r.messages, m.isSome) ∧
    (∀ m ∈ r.messages.reduceOption, ∀ n ∈ r.messages.reduceOption, m.chatId = n.chatId) ∧
    (r.totalCount = 0 ↔ r.messages = [])
  | .other => True

def HistoryEvent.WellFormed : HistoryEvent → Prop
  | .request _ => True
  | .answer _ a => a.WellFormed

instance : DecidablePred Answer.WellFormed
  | .messages _ => inferInstanceAs (Decidable (_ ∧ _ ∧ _))
  | .other => .isTrue trivial

instance : DecidablePred HistoryEvent.WellFormed
  | .request _ => .isTrue trivial
  | .answer _ a => inferInstanceAs (Decidable a.WellFormed)

namespace History

/-- All messages received in a run, in order. -/
def received (es : List HistoryEvent) : List Message := es.flatMap (·.received)

/-- Message ids are unique within a chat: messages of one chat with one id are one message, which
has one date. -/
def UniqueIds (ms : List Message) : Prop :=
  ∀ m ∈ ms, ∀ n ∈ ms, m.chatId = n.chatId → m.id = n.id → m.date = n.date

/-- Different messages of one chat have different dates. -/
def DistinctDates (ms : List Message) : Prop :=
  ∀ m ∈ ms, ∀ n ∈ ms, m.chatId = n.chatId → m.date = n.date → m.id = n.id

instance : DecidablePred UniqueIds := fun ms =>
  inferInstanceAs (Decidable (∀ m ∈ ms, ∀ n ∈ ms, _ → _ → _))

instance : DecidablePred DistinctDates := fun ms =>
  inferInstanceAs (Decidable (∀ m ∈ ms, ∀ n ∈ ms, _ → _ → _))

/-- The store after the run `es` has lost nothing, duplicated nothing and mixed nothing up. -/
structure Exact (es : List HistoryEvent) (h : History) : Prop where
  /-- Exactly one entry for each message id received for a chat. -/
  entry : ∀ m ∈ received es, ∃ n ∈ h.messages m.chatId, n.id = m.id ∧
    ∀ n' ∈ h.messages m.chatId, n'.id = m.id → n' = n
  /-- No entry of another chat, and none that was not received. -/
  mem_received : ∀ c, ∀ m ∈ h.messages c, m ∈ received es ∧ m.chatId = c
  newest_first : ∀ c, (h.messages c).elems.Pairwise fun m n => m.date ≥ n.date
  /-- Any other run that receives the same messages ends with the same ids in the same order, and
  with the same messages if a message is received with one content only. -/
  order_free : ∀ es' h', (∀ e ∈ es', e.WellFormed) → Run.exec step empty es' = some h' →
    (received es').Perm (received es) →
      (∀ c, (h'.messages c).elems.map (·.id) = (h.messages c).elems.map (·.id)) ∧
      ((∀ m ∈ received es, ∀ n ∈ received es, m.chatId = n.chatId → m.id = n.id → m = n) →
        h'.messages = h.messages)

/-- What every run keeps: each set holds received messages of its chat, and one for every date at
which a message was received for the chat. -/
structure Received (ms : List Message) (s : MessageStore) : Prop where
  sound : ∀ c, ∀ m ∈ s c, m ∈ ms ∧ m.chatId = c
  dated : ∀ m ∈ ms, ∃ n ∈ s m.chatId, n.date = m.date

theorem empty_received : Received [] empty.messages where
  sound _ _ h := (OrdSet.not_mem_empty _ h).elim
  dated _ h := by cases h

theorem Received.emplace {s : MessageStore} (h : Received ms s) (m : Message) :
    Received (ms ++ [m]) (Function.update s m.chatId ((s m.chatId).insert m)) where
  sound c n hn := by
    by_cases hc : c = m.chatId
    · subst hc
      rw [Function.update_self] at hn
      rcases OrdSet.mem_of_mem_insert hn with rfl | hn
      · exact ⟨by simp, rfl⟩
      · exact ⟨List.mem_append_left _ (h.sound _ n hn).1, (h.sound _ n hn).2⟩
    · rw [Function.update_of_ne hc] at hn
      exact ⟨List.mem_append_left _ (h.sound c n hn).1, (h.sound c n hn).2⟩
  dated n hn := by
    rcases List.mem_append.mp hn with hn | hn
    · obtain ⟨n', hn', hd⟩ := h.dated n hn
      refine ⟨n', ?_, hd⟩
      by_cases hc : n.chatId = m.chatId
      · rw [hc] at hn' ⊢
        rw [Function.update_self]
        exact OrdSet.mem_insert_of_mem hn'
      · rwa [Function.update_of_ne hc]
    · cases List.mem_singleton.mp hn
      obtain ⟨b, hb, h₁, h₂⟩ := OrdSet.exists_equiv_insert (s m.chatId) m
      refine ⟨b, by rwa [Function.update_self], ?_⟩
      unfold Newer at h₁ h₂
      omega

theorem Received.emplaceMessages {s : MessageStore} {l : List (Option Message)}
    (h : Received ms s) (hl : ∀ m ∈ l, m.isSome) (hc : ∀ m ∈ l.reduceOption, m.chatId = c) :
    ∃ s', Chatcurse.emplaceMessages s c l = some s' ∧ Received (ms ++ l.reduceOption) s' := by
  induction l generalizing s ms with
  | nil => exact ⟨s, rfl, by simpa using h⟩
  | cons m l ih =>
    obtain ⟨m, rfl⟩ := Option.isSome_iff_exists.mp (hl m List.mem_cons_self)
    rw [List.reduceOption_cons_of_some] at hc ⊢
    cases hc m List.mem_cons_self
    obtain ⟨s', hs', hr⟩ := ih (h.emplace m) (fun n hn => hl n (List.mem_cons_of_mem _ hn))
      fun n hn => hc n (List.mem_cons_of_mem _ hn)
    refine ⟨s', ?_, by simpa using hr⟩
    rw [Chatcurse.emplaceMessages, emplaceMessage, Option.map_some, Option.bind_some]
    exact hs'

/-- The answer handler is defined on what TDLib answers, and records all of it. -/
theorem Received.process {s : MessageStore} (h : Received ms s)
    (hw : (Answer.messages r).WellFormed) :
    ∃ s' e, processGetChatHistory s r = some (s', e) ∧
      Received (ms ++ (Answer.messages r).received) s' := by
  obtain ⟨hsome, hchat, htotal⟩ := hw
  rw [Answer.received]
  cases hm : r.messages with
  | nil =>
    refine ⟨s, none, ?_, by simpa using h⟩
    rw [processGetChatHistory, if_pos (htotal.mpr hm)]
  | cons m l =>
    have ht : r.totalCount ≠ 0 := fun h0 => by simp [htotal.mp h0] at hm
    obtain ⟨m, rfl⟩ := Option.isSome_iff_exists.mp (hsome m (by simp [hm]))
    have hc : ∀ n ∈ (some m :: l).reduceOption, n.chatId = m.chatId := by
      rw [← hm]
      exact fun n hn => hchat n hn m (by simp [hm])
    obtain ⟨s', hs', hr⟩ := h.emplaceMessages (hm ▸ hsome) hc
    refine ⟨s', some (.eventMessages m.chatId), ?_, hr⟩
    rw [processGetChatHistory, if_neg ht, hm]
    simp only [hs', Option.map_some]

theorem received_concat (es : List HistoryEvent) (e : HistoryEvent) :
    received (es ++ [e]) = received es ++ e.received := by
  simp [received]

/-- What one event does to what is kept. -/
theorem Received.step {h h' : History} (hr : Received ms h.messages) (he : e.WellFormed)
    (hs : History.step h e = some h') : Received (ms ++ e.received) h'.messages := by
  cases e with
  | request c =>
    cases hs
    rwa [HistoryEvent.received, List.append_nil]
  | answer i a =>
    cases a with
    | other =>
      obtain ⟨-, hs⟩ := Option.ite_none_right_eq_some.mp hs
      cases hs
      rwa [HistoryEvent.received, Answer.received, List.append_nil]
    | messages r =>
      obtain ⟨-, hs⟩ := Option.ite_none_right_eq_some.mp hs
      obtain ⟨p, hp, rfl⟩ := Option.map_eq_some_iff.mp hs
      obtain ⟨s₁, e, hs₁, hr₁⟩ := hr.process he
      cases hp.symm.trans hs₁
      exact hr₁

/-- An answer TDLib may give to an outstanding request is processed without undefined behaviour. -/
theorem step_answer_isSome {h : History} (hr : Received ms h.messages)
    (hi : i < h.outstanding.length) (he : a.WellFormed) : (h.step (.answer i a)).isSome := by
  cases a with
  | other => simp [History.step, hi]
  | messages r =>
    obtain ⟨s, e, hs, -⟩ := hr.process he
    simp [History.step, hi, hs]

theorem exec_received (hw : ∀ e ∈ es, e.WellFormed) (h : Run.exec step empty es = some t) :
    Received (received es) t.messages := by
  have hlog : (∀ e ∈ es, e.WellFormed) → Received (received es) t.messages :=
    Run.exec_log (I := fun es h => (∀ e ∈ es, e.WellFormed) → Received (received es) h.messages)
      (fun es s e s' ih hs hw => by
        rw [received_concat]
        exact (ih fun e he => hw e (List.mem_append_left _ he)).step (hw e (by simp)) hs)
      (s := empty) (fun _ => empty_received) h
  exact hlog hw

/-- In one set, messages of one date are one message. -/
theorem eq_of_date {s : MessageSet} (hm : m ∈ s) (hn : n ∈ s) (hd : m.date = n.date) : m = n :=
  OrdSet.eq_of_equiv hm hn (fun h => by unfold Newer at h; omega)
    fun h => by unfold Newer at h; omega

/-- The dates and ids a set holds, in its order. -/
def dateIds (s : MessageSet) : OrdSet fun p q : Int × Int => p.1 > q.1 where
  elems := s.elems.map fun m => (m.date, m.id)
  sorted := by rw [List.pairwise_map]; exact s.sorted

instance : IsTrans (Int × Int) fun p q => p.1 > q.1 := ⟨fun _ _ _ h₁ h₂ => Int.lt_trans h₂ h₁⟩

instance : Std.Irrefl fun p q : Int × Int => p.1 > q.1 := ⟨fun _ h => Int.lt_irrefl _ h⟩

section
variable {ms : List Message} {s : MessageStore} (hr : Received ms s)
include hr

/-- Where dates tell the messages apart, the set of a chat holds the dates and ids received. -/
theorem Received.mem_dateIds (hd : DistinctDates ms) :
    p ∈ dateIds (s c) ↔ ∃ m ∈ ms, m.chatId = c ∧ (m.date, m.id) = p := by
  refine ⟨fun hp => ?_, ?_⟩
  · obtain ⟨m, hm, rfl⟩ := List.mem_map.mp hp
    obtain ⟨hms, hc⟩ := hr.sound c m hm
    exact ⟨m, hms, hc, rfl⟩
  · rintro ⟨m, hm, rfl, rfl⟩
    obtain ⟨n, hn, hdate⟩ := hr.dated m hm
    obtain ⟨hnms, hc⟩ := hr.sound _ n hn
    have hid : n.id = m.id := hd n hnms m hm hc hdate
    exact List.mem_map.mpr ⟨n, hn, by rw [hdate, hid]⟩

/-- Where a message is received with one content, the set of a chat holds what was received. -/
theorem Received.mem_iff (hd : DistinctDates ms)
    (hu : ∀ m ∈ ms, ∀ n ∈ ms, m.chatId = n.chatId → m.id = n.id → m = n) :
    m ∈ s c ↔ m ∈ ms ∧ m.chatId = c := by
  refine ⟨hr.sound c m, ?_⟩
  rintro ⟨hm, rfl⟩
  obtain ⟨n, hn, hdate⟩ := hr.dated m hm
  obtain ⟨hnms, hc⟩ := hr.sound _ n hn
  exact hu n hnms m hm hc (hd n hnms m hm hc hdate) ▸ hn

end

theorem Exact.of_distinctDates (hw : ∀ e ∈ es, e.WellFormed) (hu : UniqueIds (received es))
    (hrun : Run.exec step empty es = some h) (hd : DistinctDates (received es)) : Exact es h where
  entry m hm := by
    have hr := exec_received hw hrun
    obtain ⟨n, hn, hdate⟩ := hr.dated m hm
    obtain ⟨hnms, hc⟩ := hr.sound _ n hn
    refine ⟨n, hn, hd n hnms m hm hc hdate, fun n' hn' hid => ?_⟩
    obtain ⟨hnms', hc'⟩ := hr.sound _ n' hn'
    exact eq_of_date hn' hn ((hu n' hnms' m hm hc' hid).trans hdate.symm)
  mem_received := (exec_received hw hrun).sound
  newest_first c := (h.messages c).sorted.imp Int.le_of_lt
  order_free es' h' hw' hrun' hperm := by
    have hr := exec_received hw hrun
    have hr' := exec_received hw' hrun'
    have hd' : DistinctDates (received es') := fun m hm n hn =>
      hd m (hperm.mem_iff.mp hm) n (hperm.mem_iff.mp hn)
    refine ⟨fun c => ?_, fun hone => funext fun c => OrdSet.ext_mem fun m => ?_⟩
    · have heq : dateIds (h'.messages c) = dateIds (h.messages c) := OrdSet.ext_mem fun p => by
        rw [hr'.mem_dateIds hd', hr.mem_dateIds hd]
        simp only [hperm.mem_iff]
      have hmap := congrArg (fun s => s.elems.map Prod.snd) heq
      simpa [dateIds, Function.comp_def] using hmap
    · have hone' : ∀ m ∈ received es', ∀ n ∈ received es', m.chatId = n.chatId → m.id = n.id →
          m = n := fun m hm n hn => hone m (hperm.mem_iff.mp hm) n (hperm.mem_iff.mp hn)
      rw [hr'.mem_iff hd' hone', hr.mem_iff hd hone, hperm.mem_iff]

theorem Exact.distinctDates (hu : UniqueIds (received es)) (h : Exact es t) :
    DistinctDates (received es) := by
  intro m hm n hn hc hdate
  obtain ⟨m', hm', hmid, -⟩ := h.entry m hm
  obtain ⟨n', hn', hnid, -⟩ := h.entry n hn
  obtain ⟨hmr, hmc⟩ := h.mem_received _ m' hm'
  obtain ⟨hnr, hnc⟩ := h.mem_received _ n' hn'
  have hd : m'.date = n'.date :=
    (hu m' hmr m hm hmc hmid).trans (hdate.trans (hu n' hnr n hn hnc hnid).symm)
  rw [← hmid, eq_of_date hm' (hc ▸ hn') hd, hnid]

/-- **The history store is exact when dates tell messages apart, and only then.** -/
theorem exact_iff (hw : ∀ e ∈ es, e.WellFormed) (hu : UniqueIds (received es))
    (hrun : Run.exec step empty es = some h) : Exact es h ↔ DistinctDates (received es) :=
  ⟨fun he => he.distinctDates hu, fun hd => .of_distinctDates hw hu hrun hd⟩

/-- Two overlapping answers for chat 1 and one for chat 2, not in the order of the requests. -/
def overlapping : List HistoryEvent :=
  let m (id chatId date : Int) : Option Message := some ⟨id, chatId, date, .other 0⟩
  [.request 1, .request 2, .request 1,
    .answer 2 (.messages ⟨2, [m 3 1 30, m 2 1 20]⟩), .answer 1 (.messages ⟨1, [m 1 2 30]⟩),
    .answer 0 (.messages ⟨2, [m 2 1 20, m 1 1 10]⟩)]

theorem exact_iff_overlapping :
    ∃ h, Run.exec step empty overlapping = some h ∧
      (Exact overlapping h ↔ DistinctDates (received overlapping)) :=
  ⟨_, rfl, exact_iff (by decide) (by decide) rfl⟩

/-- Two messages of chat 1 sent in the same second. -/
def sameSecond : List HistoryEvent :=
  [.request 1, .answer 0 (.messages ⟨2, [some ⟨2, 1, 100, .messageText (ascii "b")⟩,
    some ⟨1, 1, 100, .messageText (ascii "a")⟩]⟩)]

/-- The second of them is lost. -/
theorem sameSecond_not_exact :
    (∀ e ∈ sameSecond, e.WellFormed) ∧ UniqueIds (received sameSecond) ∧
      ∃ h, Run.exec step empty sameSecond = some h ∧ ¬ Exact sameSecond h := by
  have hu : UniqueIds (received sameSecond) := by decide
  refine ⟨by decide, hu, _, rfl, fun h => ?_⟩
  have hd : DistinctDates (received sameSecond) := h.distinctDates hu
  revert hd
  decide

end History
end Chatcurse

import Mathlib.Data.List.Induction

/-!
# Runs of a partial step function

A system is a function `step : σ → ε → Option σ`: an event either leads to one next state or has no
outcome, when executing it there is undefined. A nondeterministic system is one whose events carry
the choices, so that "for every run" is "for every list of events".

`Guarded ok` says that each step of a run is taken where `ok` allows it; `Always P` says that `P`
holds in each state on the way. The rules relate them to one-step facts: `Always.of_guarded` turns a
step lemma under a guard into a fact about whole runs, `always_iff_guarded` does the same for an
exact guard.
-/

universe u v

namespace Run

variable {σ : Type u} {ε : Type v} (step : σ → ε → Option σ)

def exec : σ → List ε → Option σ
  | s, [] => some s
  | s, e :: es => (step s e).bind fun s' => exec s' es

/-- Every step of the run that has an outcome is taken where `ok` allows it. -/
def Guarded (ok : σ → ε → Prop) : σ → List ε → Prop
  | _, [] => True
  | s, e :: es => ∀ s', step s e = some s' → ok s e ∧ Guarded ok s' es

/-- `P` holds in every state of the run, the first and the last included. -/
def Always (P : σ → Prop) : σ → List ε → Prop
  | s, [] => P s
  | s, e :: es => P s ∧ ∀ s', step s e = some s' → Always P s' es

variable {step} {P Q : σ → Prop} {ok ok' : σ → ε → Prop}

@[simp] theorem exec_nil : exec step s [] = some s := rfl

@[simp] theorem exec_cons : exec step s (e :: es) = (step s e).bind fun s' => exec step s' es := rfl

theorem exec_cons_eq_some :
    exec step s (e :: es) = some t ↔ ∃ s', step s e = some s' ∧ exec step s' es = some t :=
  Option.bind_eq_some_iff

theorem exec_append :
    exec step s (es ++ fs) = (exec step s es).bind fun s' => exec step s' fs := by
  induction es generalizing s with
  | nil => rfl
  | cons e es ih =>
    cases h : step s e with
    | none => simp [h]
    | some s' => simp [h, ih]

theorem exec_concat : exec step s (es ++ [e]) = (exec step s es).bind fun s' => step s' e := by
  rw [exec_append]
  congr 1; funext s'
  cases h : step s' e <;> simp [h]

theorem exec_concat_eq_some :
    exec step s (es ++ [e]) = some t ↔ ∃ s', exec step s es = some s' ∧ step s' e = some t := by
  rw [exec_concat]; exact Option.bind_eq_some_iff

/-- An invariant of the steps holds at the end of a run. -/
theorem exec_inv (hstep : ∀ s e s', P s → step s e = some s' → P s') (hs : P s)
    (h : exec step s es = some t) : P t := by
  induction es generalizing s with
  | nil => cases h; exact hs
  | cons e es ih =>
    obtain ⟨s', hs', h⟩ := exec_cons_eq_some.mp h
    exact ih (hstep s e s' hs hs') h

/-- A relation between the events so far and the state, kept by each step, holds of the run. -/
theorem exec_log {I : List ε → σ → Prop}
    (hstep : ∀ es s e s', I es s → step s e = some s' → I (es ++ [e]) s') (hs : I [] s)
    (h : exec step s es = some t) : I es t := by
  induction es using List.reverseRecOn generalizing t with
  | nil => cases h; exact hs
  | append_singleton es e ih =>
    obtain ⟨s', hs', ht⟩ := exec_concat_eq_some.mp h
    exact hstep es s' e t (ih hs') ht

/-- **Two runs in step.** A run and the same run with some events replaced and the others deleted
end alike if each event does what its replacement does, up to `R`, and a deleted one keeps `R`. -/
theorem exec_filterMap {τ : Type u} {φ : Type v} {step' : τ → φ → Option τ} {R : σ → τ → Prop}
    {f : ε → Option φ} {s : σ} {t : τ}
    (hsome : ∀ s t e e', R s t → f e = some e' → Option.Rel R (step s e) (step' t e'))
    (hnone : ∀ s t e, R s t → f e = none → ∃ s', step s e = some s' ∧ R s' t) (h : R s t) :
    Option.Rel R (exec step s es) (exec step' t (es.filterMap f)) := by
  induction es generalizing s t with
  | nil => exact .some h
  | cons e es ih =>
    cases hf : f e with
    | none =>
      obtain ⟨s', hs', hr⟩ := hnone s t e h hf
      rw [List.filterMap_cons_none hf, exec_cons, hs']
      exact ih hr
    | some e' =>
      rw [List.filterMap_cons_some hf, exec_cons, exec_cons]
      have hrel := hsome s t e e' h hf
      cases hs : step s e <;> cases ht : step' t e' <;> rw [hs, ht] at hrel <;> cases hrel
      · exact .none
      next hr => exact ih hr

/-- A guard that can be evaluated can be evaluated along a run. -/
instance Guarded.decidable [∀ s e, Decidable (ok s e)] :
    ∀ (s : σ) (es : List ε), Decidable (Guarded step ok s es)
  | _, [] => .isTrue trivial
  | s, e :: es =>
    match h : step s e with
    | none => .isTrue fun s' hs' => by rw [h] at hs'; cases hs'
    | some s' =>
      have : Decidable (Guarded step ok s' es) := Guarded.decidable s' es
      decidable_of_iff (ok s e ∧ Guarded step ok s' es)
        ⟨fun hg t ht => by rw [h] at ht; cases ht; exact hg, fun hg => hg s' h⟩

theorem Guarded.mono (h : ∀ s e, ok s e → ok' s e) (hg : Guarded step ok s es) :
    Guarded step ok' s es := by
  induction es generalizing s with
  | nil => trivial
  | cons e es ih => exact fun s' hs' => ⟨h _ _ (hg s' hs').1, ih (hg s' hs').2⟩

theorem Always.head (h : Always step P s es) : P s := by
  cases es with
  | nil => exact h
  | cons => exact h.1

theorem Always.mono (h : ∀ s, P s → Q s) (ha : Always step P s es) : Always step Q s es := by
  induction es generalizing s with
  | nil => exact h _ ha
  | cons e es ih => exact ⟨h _ ha.1, fun s' hs' => ih (ha.2 s' hs')⟩

/-- `Always` is about the states the prefixes of the run lead to. -/
theorem always_iff :
    Always step P s es ↔ ∀ pre t, pre <+: es → exec step s pre = some t → P t := by
  induction es generalizing s with
  | nil =>
    refine ⟨fun h pre t hp ht => ?_, fun h => h [] s (List.prefix_refl _) rfl⟩
    cases List.prefix_nil.mp hp; cases ht; exact h
  | cons e es ih =>
    constructor
    · rintro ⟨hs, h⟩ pre t hp ht
      cases pre with
      | nil => cases ht; exact hs
      | cons f pre =>
        obtain ⟨rfl, hpre⟩ := List.cons_prefix_cons.mp hp
        obtain ⟨s', hs', ht⟩ := exec_cons_eq_some.mp ht
        exact ih.mp (h s' hs') pre t hpre ht
    · refine fun h => ⟨h [] s List.nil_prefix rfl, fun s' hs' => ih.mpr fun pre t hp ht => ?_⟩
      exact h (e :: pre) t (List.cons_prefix_cons.mpr ⟨rfl, hp⟩)
        (exec_cons_eq_some.mpr ⟨s', hs', ht⟩)

/-- **The run rule.** What each allowed step preserves holds along every guarded run. -/
theorem Always.of_guarded (hstep : ∀ s e s', P s → ok s e → step s e = some s' → P s')
    (hs : P s) (hg : Guarded step ok s es) : Always step P s es := by
  induction es generalizing s with
  | nil => exact hs
  | cons e es ih =>
    exact ⟨hs, fun s' hs' => ih (hstep s e s' hs (hg s' hs').1 hs') (hg s' hs').2⟩

theorem Always.and (hp : Always step P s es) (hq : Always step Q s es) :
    Always step (fun s => P s ∧ Q s) s es := by
  induction es generalizing s with
  | nil => exact ⟨hp, hq⟩
  | cons e es ih => exact ⟨⟨hp.1, hq.1⟩, fun s' hs' => ih (hp.2 s' hs') (hq.2 s' hs')⟩

/-- The run rule for an exact guard: among the steps `ok'` allows, a guard that says precisely when
a step keeps `P` says precisely when a run stays in `P`. -/
theorem always_iff_guarded_of
    (hstep : ∀ s e s', P s → ok' s e → step s e = some s' → (P s' ↔ ok s e)) (hs : P s)
    (ha : Guarded step ok' s es) : Always step P s es ↔ Guarded step ok s es := by
  induction es generalizing s with
  | nil => exact iff_of_true hs trivial
  | cons e es ih =>
    have hiff : ∀ s', step s e = some s' → (P s' ↔ ok s e) :=
      fun s' hs' => hstep s e s' hs (ha s' hs').1 hs'
    constructor
    · intro h s' hs'
      have hp : P s' := (h.2 s' hs').head
      exact ⟨(hiff s' hs').mp hp, (ih hp (ha s' hs').2).mp (h.2 s' hs')⟩
    · intro h
      refine ⟨hs, fun s' hs' => ?_⟩
      have hp : P s' := (hiff s' hs').mpr (h s' hs').1
      exact (ih hp (ha s' hs').2).mpr (h s' hs').2

/-- A guard that looks at the events only. -/
theorem guarded_of_forall (h : ∀ e ∈ es, ∀ s, ok s e) (s : σ) : Guarded step ok s es := by
  induction es generalizing s with
  | nil => trivial
  | cons e es ih =>
    intro s' _
    exact ⟨h e List.mem_cons_self s, ih (fun e he => h e (List.mem_cons_of_mem _ he)) s'⟩

/-- What every step preserves holds along every run. -/
theorem Always.of_inv (hstep : ∀ s e s', P s → step s e = some s' → P s') (hs : P s) :
    Always step P s es :=
  .of_guarded (fun s e s' h (_ : True) => hstep s e s' h) hs
    (guarded_of_forall (fun _ _ _ => trivial) s)

/-- What holds in the states of a run guards its steps. -/
theorem Always.guarded (h : ∀ s e, P s → ok s e) (ha : Always step P s es) :
    Guarded step ok s es := by
  induction es generalizing s with
  | nil => trivial
  | cons e es ih => exact fun s' hs' => ⟨h s e ha.1, ih (ha.2 s' hs')⟩

theorem always_iff_guarded (hstep : ∀ s e s', P s → step s e = some s' → (P s' ↔ ok s e))
    (hs : P s) : Always step P s es ↔ Guarded step ok s es :=
  always_iff_guarded_of (fun s e s' h (_ : True) => hstep s e s' h) hs
    (guarded_of_forall (fun _ _ _ => trivial) s)

/-- The run rule for an exact guard and an invariant stronger than the property: the guard is what a
step needs for the property, and is enough for the invariant. -/
theorem always_iff_guarded_of_inv {I : σ → Prop} (himp : ∀ s, I s → P s)
    (hstep : ∀ s e s', I s → step s e = some s' → (P s' → ok s e) ∧ (ok s e → I s')) (hi : I s) :
    Always step P s es ↔ Guarded step ok s es := by
  induction es generalizing s with
  | nil => exact iff_of_true (himp s hi) trivial
  | cons e es ih =>
    constructor
    · intro h s' hs'
      obtain ⟨hok, hinv⟩ := hstep s e s' hi hs'
      have he : ok s e := hok (h.2 s' hs').head
      exact ⟨he, (ih (hinv he)).mp (h.2 s' hs')⟩
    · intro h
      refine ⟨himp s hi, fun s' hs' => ?_⟩
      obtain ⟨he, hrest⟩ := h s' hs'
      obtain ⟨-, hinv⟩ := hstep s e s' hi hs'
      exact (ih (hinv he)).mpr hrest

/-- Two guards that agree in the states of an invariant that the steps allowed keep. -/
theorem guarded_congr (hok : ∀ s e, P s → (ok s e ↔ ok' s e))
    (hstep : ∀ s e s', P s → ok s e → step s e = some s' → P s') (hs : P s) :
    Guarded step ok s es ↔ Guarded step ok' s es := by
  induction es generalizing s with
  | nil => exact Iff.rfl
  | cons e es ih =>
    refine forall_congr' fun s' => imp_congr_right fun hs' => ?_
    rw [← hok s e hs]
    exact and_congr_right fun he => ih (hstep s e s' hs he hs')

/-! ## History variables -/

/-- The system with a variable beside its state that `note` updates after each step. -/
def observed {γ : Type v} (step : σ → ε → Option σ) (note : σ → ε → σ → γ → γ) :
    σ × γ → ε → Option (σ × γ) :=
  fun x e => (step x.1 e).map fun s' => (s', note x.1 e s' x.2)

/-- A history variable neither blocks a run nor changes where it goes. -/
theorem exec_observed {γ : Type v} {note : σ → ε → σ → γ → γ} (g : γ) :
    exec step s es = some t ↔ ∃ g', exec (observed step note) (s, g) es = some (t, g') := by
  induction es generalizing s g with
  | nil => simp
  | cons e es ih =>
    cases h : step s e with
    | none => simp [observed, h]
    | some s' => simp [observed, h, ih (note s e s' g)]

/-- A guard that does not look at the history variable. -/
theorem guarded_observed {γ : Type v} {note : σ → ε → σ → γ → γ} (g : γ) :
    Guarded (observed step note) (fun x e => ok x.1 e) (s, g) es ↔ Guarded step ok s es := by
  induction es generalizing s g with
  | nil => exact Iff.rfl
  | cons e es ih =>
    constructor
    · intro h s' hs'
      have hx : observed step note (s, g) e = some (s', note s e s' g) :=
        Option.map_eq_some_iff.mpr ⟨s', hs', rfl⟩
      exact ⟨(h _ hx).1, (ih _).mp (h _ hx).2⟩
    · intro h x hx
      obtain ⟨s', hs', rfl⟩ := Option.map_eq_some_iff.mp hx
      exact ⟨(h s' hs').1, (ih _).mpr (h s' hs').2⟩

/-- The end of a guarded run is one of its states. -/
theorem Always.last (h : Always step P s es) (ht : exec step s es = some t) : P t :=
  always_iff.mp h es t (List.prefix_refl _) ht

end Run

import Mathlib.Data.List.Induction
import Mathlib.Tactic.Common

/-!
# Runs of a partial transition function

A system is given by `step : σ → α → Option σ`: event `a` is possible in state `s` when
`step s a` is defined. `runSteps` follows a list of events, and the two rules below package the
induction every safety argument needs: an invariant of states (`runSteps_invariant`), and an
invariant that relates the state to the events so far (`runSteps_traceInvariant`). An event may be
observed in the state in which it happens; `observations` lists what a run shows.
-/

universe u

variable {σ α ω : Type*}

/-- The state reached from `s` by the events `as`, if they are all possible. -/
def runSteps (step : σ → α → Option σ) : σ → List α → Option σ
  | s, [] => some s
  | s, a :: as => (step s a).bind fun t ↦ runSteps step t as

variable {step : σ → α → Option σ}

@[simp] theorem runSteps_nil (s : σ) : runSteps step s [] = some s := rfl

theorem runSteps_append (s : σ) (as bs : List α) :
    runSteps step s (as ++ bs) = (runSteps step s as).bind fun t ↦ runSteps step t bs := by
  induction as generalizing s with
  | nil => rfl
  | cons a as ih =>
    rw [List.cons_append, runSteps, runSteps, Option.bind_assoc]
    exact congrArg _ (funext fun t ↦ ih t)

theorem runSteps_concat_eq_some {s t : σ} {as : List α} {a : α}
    (h : runSteps step s (as ++ [a]) = some t) :
    ∃ r, runSteps step s as = some r ∧ step r a = some t := by
  rw [runSteps_append] at h
  obtain ⟨r, hr, hstep⟩ := Option.bind_eq_some_iff.1 h
  refine ⟨r, hr, ?_⟩
  rw [runSteps] at hstep
  obtain ⟨u, hu, hut⟩ := Option.bind_eq_some_iff.1 hstep
  rw [runSteps_nil] at hut
  rw [hu, hut]

/-- What holds of the state and of the events so far, and is kept by every step, holds of every
run. -/
theorem runSteps_traceInvariant {I : List α → σ → Prop} {s : σ} (h₀ : I [] s)
    (hstep : ∀ as r a t, runSteps step s as = some r → I as r → step r a = some t →
      I (as ++ [a]) t) {as : List α} {t : σ} (h : runSteps step s as = some t) : I as t := by
  induction as using List.reverseRecOn generalizing t with
  | nil =>
    rw [runSteps_nil, Option.some_inj] at h
    exact h ▸ h₀
  | append_singleton as a ih =>
    obtain ⟨r, hr, hrt⟩ := runSteps_concat_eq_some h
    exact hstep as r a t hr (ih hr) hrt

/-- What holds of the first state and is kept by every step holds of every state reached. -/
theorem runSteps_invariant {I : σ → Prop} {s : σ} (h₀ : I s)
    (hstep : ∀ r a t, I r → step r a = some t → I t) {as : List α} {t : σ}
    (h : runSteps step s as = some t) : I t :=
  runSteps_traceInvariant (I := fun _ s ↦ I s) h₀ (fun _ r a t _ ↦ hstep r a t) h

/-- If every step from a state with `I` is a step of another machine under `abs`, every run is one
of that machine's. -/
theorem runSteps_simulate {σ' : Type*} {step' : σ' → α → Option σ'} {abs : σ → σ'} {I : σ → Prop}
    {s : σ} (h₀ : I s) (hstep : ∀ r a t, I r → step r a = some t → I t)
    (hsim : ∀ r a t, I r → step r a = some t → step' (abs r) a = some (abs t)) {as : List α} {t : σ}
    (h : runSteps step s as = some t) : runSteps step' (abs s) as = some (abs t) := by
  induction as generalizing s with
  | nil =>
    rw [runSteps_nil, Option.some_inj] at h
    rw [runSteps_nil, h]
  | cons a as ih =>
    rw [runSteps] at h ⊢
    obtain ⟨r, hr, hrt⟩ := Option.bind_eq_some_iff.1 h
    rw [hsim s a r h₀ hr, Option.bind_some]
    exact ih (hstep s a r h₀ hr) hrt

/-- What a run from `s` shows, when event `a` in state `r` shows `obs r a`. -/
def observations (step : σ → α → Option σ) (obs : σ → α → Option ω) : σ → List α → List ω
  | _, [] => []
  | s, a :: as => (obs s a).toList ++ ((step s a).map fun t ↦ observations step obs t as).getD []

variable {obs : σ → α → Option ω}

theorem observations_concat {s t : σ} {as : List α} (h : runSteps step s as = some t) (a : α) :
    observations step obs s (as ++ [a]) = observations step obs s as ++ (obs t a).toList := by
  induction as generalizing s with
  | nil =>
    rw [runSteps_nil, Option.some_inj] at h
    subst h
    cases hs : step s a <;> simp [observations, hs]
  | cons b as ih =>
    rw [runSteps] at h
    obtain ⟨r, hr, hrt⟩ := Option.bind_eq_some_iff.1 h
    rw [List.cons_append, observations, observations, hr, Option.map_some, Option.map_some,
      Option.getD_some, Option.getD_some, ih hrt, List.append_assoc]

/-! ### Runs whose events keep to a rule -/

/-- `step`, for the events that satisfy `P` in the state they happen in. -/
def restrictSteps (step : σ → α → Option σ) (P : σ → α → Prop) [∀ s a, Decidable (P s a)] (s : σ)
    (a : α) : Option σ :=
  if P s a then step s a else none

variable {P : σ → α → Prop} [∀ s a, Decidable (P s a)]

theorem restrictSteps_eq_some {s t : σ} {a : α} (h : restrictSteps step P s a = some t) :
    P s a ∧ step s a = some t := by
  rwa [restrictSteps, Option.ite_none_right_eq_some] at h

theorem runSteps_of_restrictSteps {s t : σ} {as : List α}
    (h : runSteps (restrictSteps step P) s as = some t) : runSteps step s as = some t := by
  induction as generalizing s with
  | nil => exact h
  | cons a as ih =>
    rw [runSteps] at h ⊢
    obtain ⟨r, hr, hrt⟩ := Option.bind_eq_some_iff.1 h
    exact Option.bind_eq_some_iff.2 ⟨r, (restrictSteps_eq_some hr).2, ih hrt⟩

/-! ### Steps that fail with a reason -/

theorem except_ok_bind {ε : Type*} {β γ : Type u} (a : β) (f : β → Except ε γ) :
    (.ok a >>= f) = f a := rfl

theorem except_bind_eq_ok {ε : Type*} {β γ : Type u} {x : Except ε β} {f : β → Except ε γ} {b : γ} :
    (x >>= f) = .ok b ↔ ∃ a, x = .ok a ∧ f a = .ok b := by
  cases x with
  | error e => exact ⟨nofun, fun ⟨_, ha, _⟩ ↦ nomatch ha⟩
  | ok a => exact ⟨fun h ↦ ⟨a, rfl, h⟩, fun ⟨_, ha, h⟩ ↦ Except.ok.inj ha ▸ h⟩

theorem except_bind_ne_error {ε : Type*} {β γ : Type u} {x : Except ε β} {f : β → Except ε γ}
    {e : ε} (hx : x ≠ .error e) (hf : ∀ a, x = .ok a → f a ≠ .error e) :
    (x >>= f) ≠ .error e := by
  cases x with
  | error e' => exact fun h ↦ hx (congrArg _ (Except.error.inj h))
  | ok a => exact hf a rfl

theorem except_toOption_eq_some {ε β : Type*} {x : Except ε β} {b : β} :
    x.toOption = some b ↔ x = .ok b := by
  cases x with
  | error e => exact ⟨nofun, nofun⟩
  | ok a => exact ⟨fun h ↦ congrArg _ (Option.some.inj h), fun h ↦ congrArg _ (Except.ok.inj h)⟩

section Fold

variable {ε : Type*} {f : σ → α → Except ε σ} {s t : σ}

/-- A fold that stops at the first failure is a run of the steps that succeed. -/
theorem foldlM_eq_ok_iff {as : List α} :
    as.foldlM f s = .ok t ↔ runSteps (fun s a ↦ (f s a).toOption) s as = some t := by
  induction as generalizing s with
  | nil =>
    rw [List.foldlM_nil, runSteps_nil, Option.some_inj]
    exact Except.ok.injEq s t ▸ Iff.rfl
  | cons a as ih =>
    rw [List.foldlM_cons, runSteps]
    cases f s a with
    | error e => exact ⟨nofun, nofun⟩
    | ok r => exact ih

theorem foldlM_append_eq_ok {as bs : List α} (h : (as ++ bs).foldlM f s = .ok t) :
    ∃ r, as.foldlM f s = .ok r ∧ bs.foldlM f r = .ok t := by
  rw [List.foldlM_append] at h
  exact except_bind_eq_ok.1 h

/-- The state in which an event in the middle of a fold comes, and the one after it. -/
theorem foldlM_split_eq_ok {as bs : List α} {a : α} (h : (as ++ a :: bs).foldlM f s = .ok t) :
    ∃ r r', as.foldlM f s = .ok r ∧ f r a = .ok r' ∧ bs.foldlM f r' = .ok t := by
  obtain ⟨r, hr, hbs⟩ := foldlM_append_eq_ok h
  rw [List.foldlM_cons] at hbs
  obtain ⟨r', hr', hbs⟩ := except_bind_eq_ok.1 hbs
  exact ⟨r, r', hr, hr', hbs⟩

/-- `runSteps_traceInvariant`, for a fold. -/
theorem foldlM_traceInvariant {I : List α → σ → Prop} (h₀ : I [] s)
    (hstep : ∀ as r a t, as.foldlM f s = .ok r → I as r → f r a = .ok t → I (as ++ [a]) t)
    {as : List α} (h : as.foldlM f s = .ok t) : I as t :=
  runSteps_traceInvariant h₀
    (fun as r a t has hr ha ↦
      hstep as r a t (foldlM_eq_ok_iff.2 has) hr (except_toOption_eq_some.1 ha))
    (foldlM_eq_ok_iff.1 h)

end Fold

import Mathlib.Tactic.Common

/-!
# Weakest preconditions for state-passing code that can stop

C code that reads and writes one state and may stop the machine is a `StateT σ (Except ε)`
computation. `wp m Q s` says that `m`, started in `s`, does not stop and that its result and final
state satisfy `Q`: it is total correctness, so a specification proved with it excludes every stop,
be it a failed assertion or a loop that has used up its bound.

The rules for `pure`, `bind`, `get`, `set`, `modify`, `throw` and `if` are equivalences and simp
lemmas: with them the text of a function turns into the assertions between its calls, each call
being discharged by its own specification through `wp.mono`. A loop over a list has the usual
invariant rule, the invariant being indexed by what is left of the list.

`wpe E m Q s` allows the stops in `E`, and has the same rules.
-/

variable {σ ε α β : Type}

/-- `m` started in `s` does not stop, and `Q` holds of what it returns and of the final state. -/
def wp (m : StateT σ (Except ε) α) (Q : α → σ → Prop) (s : σ) : Prop :=
  ∃ a t, m s = .ok (a, t) ∧ Q a t

/-- A run can be evaluated. -/
instance wp.decidable (m : StateT σ (Except ε) α) (Q : α → σ → Prop) (s : σ)
    [∀ a t, Decidable (Q a t)] : Decidable (wp m Q s) :=
  match h : m s with
  | .ok (a, t) => decidable_of_iff (Q a t) (by simp [wp, h])
  | .error _ => .isFalse (by simp [wp, h])

/-- The rule of consequence, which is how a caller uses the specification of a callee. -/
theorem wp.mono {m : StateT σ (Except ε) α} {Q R : α → σ → Prop} {s : σ} (h : wp m Q s)
    (hQR : ∀ a t, Q a t → R a t) : wp m R s := by
  obtain ⟨a, t, hm, hQ⟩ := h
  exact ⟨a, t, hm, hQR a t hQ⟩

theorem wp.and {m : StateT σ (Except ε) α} {Q R : α → σ → Prop} {s : σ} (hQ : wp m Q s)
    (hR : wp m R s) : wp m (fun a t ↦ Q a t ∧ R a t) s := by
  obtain ⟨a, t, hm, hQ⟩ := hQ
  obtain ⟨b, u, hm', hR⟩ := hR
  rw [hm, Except.ok.injEq, Prod.mk.injEq] at hm'
  exact ⟨a, t, hm, hQ, by rw [hm'.1, hm'.2]; exact hR⟩

@[simp]
theorem wp_pure {a : α} {Q : α → σ → Prop} {s : σ} :
    wp (pure a : StateT σ (Except ε) α) Q s ↔ Q a s := by
  refine ⟨fun ⟨b, t, h, hQ⟩ ↦ ?_, fun h ↦ ⟨a, s, rfl, h⟩⟩
  have hp : (Except.ok (a, s) : Except ε (α × σ)) = .ok (b, t) := h
  rw [Except.ok.injEq, Prod.mk.injEq] at hp
  rw [hp.1, hp.2]
  exact hQ

@[simp]
theorem wp_bind {m : StateT σ (Except ε) α} {f : α → StateT σ (Except ε) β}
    {Q : β → σ → Prop} {s : σ} :
    wp (m >>= f) Q s ↔ wp m (fun a t ↦ wp (f a) Q t) s := by
  constructor
  · rintro ⟨b, t, h, hQ⟩
    have hb : (m s >>= fun p ↦ f p.1 p.2) = .ok (b, t) := h
    cases hm : m s with
    | error e =>
      rw [hm] at hb
      exact absurd hb (by simp [bind, Except.bind])
    | ok p =>
      rw [hm] at hb
      exact ⟨p.1, p.2, hm, b, t, hb, hQ⟩
  · rintro ⟨a, t, hm, b, u, hf, hQ⟩
    refine ⟨b, u, ?_, hQ⟩
    show (m s >>= fun p ↦ f p.1 p.2) = .ok (b, u)
    rw [hm]
    exact hf

@[simp]
theorem wp_get {Q : σ → σ → Prop} {s : σ} :
    wp (get : StateT σ (Except ε) σ) Q s ↔ Q s s :=
  wp_pure (α := σ) (a := s)

@[simp]
theorem wp_set {u : σ} {Q : PUnit → σ → Prop} {s : σ} :
    wp (set u : StateT σ (Except ε) PUnit) Q s ↔ Q ⟨⟩ u :=
  ⟨fun ⟨_, _, h, hQ⟩ ↦ by cases h; exact hQ, fun h ↦ ⟨⟨⟩, u, rfl, h⟩⟩

@[simp]
theorem wp_modify {f : σ → σ} {Q : PUnit → σ → Prop} {s : σ} :
    wp (modify f : StateT σ (Except ε) PUnit) Q s ↔ Q ⟨⟩ (f s) :=
  ⟨fun ⟨_, _, h, hQ⟩ ↦ by cases h; exact hQ, fun h ↦ ⟨⟨⟩, f s, rfl, h⟩⟩

@[simp]
theorem wp_throw {e : ε} {Q : α → σ → Prop} {s : σ} :
    wp (throw e : StateT σ (Except ε) α) Q s ↔ False :=
  ⟨fun ⟨_, _, h, _⟩ ↦ (nomatch h), False.elim⟩

@[simp]
theorem wp_ite {c : Prop} [Decidable c] {m n : StateT σ (Except ε) α} {Q : α → σ → Prop} {s : σ} :
    wp (if c then m else n) Q s ↔ (c → wp m Q s) ∧ (¬c → wp n Q s) := by
  by_cases h : c <;> simp [h]

/-- The invariant rule for a loop over a list: `I` is kept by one turn, its index being what is
left to be done. -/
theorem wp_forM {f : α → StateT σ (Except ε) PUnit} {I : List α → σ → Prop}
    (step : ∀ a l s, I (a :: l) s → wp (f a) (fun _ t ↦ I l t) s) :
    ∀ {l : List α} {s : σ}, I l s → wp (forM l f) (fun _ t ↦ I [] t) s
  | [], s, h => by rw [List.forM_nil, wp_pure]; exact h
  | a :: l, s, h => by
    rw [List.forM_cons, wp_bind]
    exact (step a l s h).mono fun _ _ h' ↦ wp_forM step h'

/-! ### Stops that are allowed -/

/-- `m` started in `s` returns, and `Q` holds of what it returns and of the final state, or it stops
for one of the reasons in `E`. -/
def wpe (E : ε → Prop) (m : StateT σ (Except ε) α) (Q : α → σ → Prop) (s : σ) : Prop :=
  match m s with
  | .ok (a, t) => Q a t
  | .error e => E e

variable {E : ε → Prop}

/-- What does not stop does not stop for a reason that is not allowed. -/
theorem wp.to_wpe {m : StateT σ (Except ε) α} {Q : α → σ → Prop} {s : σ} (h : wp m Q s) :
    wpe E m Q s := by
  obtain ⟨a, t, hm, hQ⟩ := h
  rw [wpe, hm]
  exact hQ

/-- Where no stop is allowed there is none. -/
theorem wp_iff_wpe {m : StateT σ (Except ε) α} {Q : α → σ → Prop} {s : σ} :
    wp m Q s ↔ wpe (fun _ ↦ False) m Q s := by
  refine ⟨wp.to_wpe, fun h ↦ ?_⟩
  rw [wpe] at h
  cases hm : m s with
  | error e =>
    rw [hm] at h
    exact h.elim
  | ok p =>
    rw [hm] at h
    exact ⟨p.1, p.2, hm, h⟩

/-- What holds of a run that returns. -/
theorem wpe.of_ok {m : StateT σ (Except ε) α} {Q : α → σ → Prop} {s t : σ} {a : α}
    (h : wpe E m Q s) (hm : m s = .ok (a, t)) : Q a t := by
  rw [wpe, hm] at h
  exact h

theorem wpe.mono {m : StateT σ (Except ε) α} {Q R : α → σ → Prop} {s : σ} (h : wpe E m Q s)
    (hQR : ∀ a t, Q a t → R a t) : wpe E m R s := by
  rw [wpe] at h ⊢
  cases hm : m s with
  | error e =>
    rw [hm] at h
    exact h
  | ok p =>
    rw [hm] at h
    exact hQR p.1 p.2 h

theorem wpe.and {m : StateT σ (Except ε) α} {Q R : α → σ → Prop} {s : σ} (hQ : wpe E m Q s)
    (hR : wpe E m R s) : wpe E m (fun a t ↦ Q a t ∧ R a t) s := by
  rw [wpe] at hQ hR ⊢
  cases hm : m s with
  | error e =>
    rw [hm] at hQ
    exact hQ
  | ok p =>
    rw [hm] at hQ hR
    exact ⟨hQ, hR⟩

@[simp]
theorem wpe_pure {a : α} {Q : α → σ → Prop} {s : σ} :
    wpe E (pure a : StateT σ (Except ε) α) Q s ↔ Q a s :=
  Iff.rfl

@[simp]
theorem wpe_bind {m : StateT σ (Except ε) α} {f : α → StateT σ (Except ε) β}
    {Q : β → σ → Prop} {s : σ} :
    wpe E (m >>= f) Q s ↔ wpe E m (fun a t ↦ wpe E (f a) Q t) s := by
  have hbind : (m >>= f) s = (m s >>= fun p ↦ f p.1 p.2) := rfl
  rw [wpe, wpe, hbind]
  cases m s with
  | error e => exact Iff.rfl
  | ok p => exact Iff.rfl

@[simp]
theorem wpe_get {Q : σ → σ → Prop} {s : σ} :
    wpe E (get : StateT σ (Except ε) σ) Q s ↔ Q s s :=
  Iff.rfl

@[simp]
theorem wpe_set {u : σ} {Q : PUnit → σ → Prop} {s : σ} :
    wpe E (set u : StateT σ (Except ε) PUnit) Q s ↔ Q ⟨⟩ u :=
  Iff.rfl

@[simp]
theorem wpe_modify {f : σ → σ} {Q : PUnit → σ → Prop} {s : σ} :
    wpe E (modify f : StateT σ (Except ε) PUnit) Q s ↔ Q ⟨⟩ (f s) :=
  Iff.rfl

@[simp]
theorem wpe_throw {e : ε} {Q : α → σ → Prop} {s : σ} :
    wpe E (throw e : StateT σ (Except ε) α) Q s ↔ E e :=
  Iff.rfl

@[simp]
theorem wpe_ite {c : Prop} [Decidable c] {m n : StateT σ (Except ε) α} {Q : α → σ → Prop} {s : σ} :
    wpe E (if c then m else n) Q s ↔ (c → wpe E m Q s) ∧ (¬c → wpe E n Q s) := by
  by_cases h : c <;> simp [h]

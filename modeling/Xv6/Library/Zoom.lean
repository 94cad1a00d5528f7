import Xv6.Library.Wp

/-!
# Running code on a part of a state

Two parts of a system that are written over states and reasons to stop of their own are used
together in code over a state that has both. `zoom look put stop m` runs `m` on the part of the
state that `look` finds and `put` replaces, and passes its reasons to stop on through `stop`. What
is proved about `m` carries over by `wpe_zoom`; the rest of the state is not touched.
-/

variable {σ τ ε δ α : Type}

/-- Run code on a part of the state. -/
def zoom (look : σ → τ) (put : τ → σ → σ) (stop : ε → δ) (m : StateT τ (Except ε) α) :
    StateT σ (Except δ) α := fun s ↦
  match m (look s) with
  | .ok (a, t) => .ok (a, put t s)
  | .error e => .error (stop e)

variable {E : δ → Prop} {look : σ → τ} {put : τ → σ → σ} {stop : ε → δ}
  {m : StateT τ (Except ε) α} {Q : α → σ → Prop} {s : σ}

theorem wpe_zoom : wpe E (zoom look put stop m) Q s ↔
    wpe (fun e ↦ E (stop e)) m (fun a t ↦ Q a (put t s)) (look s) := by
  rw [wpe, wpe, zoom]
  cases m (look s) with
  | error e => exact Iff.rfl
  | ok p => exact Iff.rfl

/-- Code that does not stop does not stop in the larger state. -/
theorem wpe_zoom_of_wp (h : wp m (fun a t ↦ Q a (put t s)) (look s)) :
    wpe E (zoom look put stop m) Q s :=
  wpe_zoom.2 h.to_wpe

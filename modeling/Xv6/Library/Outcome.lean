import Mathlib.Data.List.Induction
import Mathlib.Tactic.Common
import Xv6.Library.Run

/-!
# Computations that fail for a known reason

`Outcome r bad good` describes both ends of a computation in `Except`: if it fails then `bad` holds,
and if it returns then what it returns satisfies `good`. One such statement about a function serves
a caller that knows the call has succeeded (`Outcome.of_ok`) as well as one that has to show that it
does (`Outcome.exists_ok`).
-/

variable {ε α β : Type}

/-- If `r` fails then `bad`, and if it returns `a` then `good a`. -/
structure Outcome (r : Except ε α) (bad : Prop) (good : α → Prop) : Prop where
  of_error : ∀ e, r = .error e → bad
  of_ok : ∀ a, r = .ok a → good a

namespace Outcome

variable {r : Except ε α} {bad bad' : Prop} {good : α → Prop}

theorem of_eq_ok {a : α} (hr : r = .ok a) (h : good a) : Outcome r bad good where
  of_error _ he := nomatch hr.symm.trans he
  of_ok _ hb := Except.ok.inj (hr.symm.trans hb) ▸ h

theorem of_eq_error {e : ε} (hr : r = .error e) (h : bad) : Outcome r bad good where
  of_error _ _ := h
  of_ok _ ha := nomatch hr.symm.trans ha

theorem exists_ok (h : Outcome r bad good) (hbad : ¬bad) : ∃ a, r = .ok a ∧ good a := by
  cases hr : r with
  | error e => exact absurd (h.of_error e hr) hbad
  | ok a => exact ⟨a, rfl, h.of_ok a hr⟩

theorem mono {good' : α → Prop} (h : Outcome r bad good) (hbad : bad → bad')
    (hgood : ∀ a, good a → good' a) : Outcome r bad' good' where
  of_error e he := hbad (h.of_error e he)
  of_ok a ha := hgood a (h.of_ok a ha)

theorem bind {f : α → Except ε β} {good' : β → Prop} (h : Outcome r bad good)
    (hf : ∀ a, good a → Outcome (f a) bad good') : Outcome (r >>= f) bad good' := by
  cases hr : r with
  | error e => exact .of_eq_error rfl (h.of_error e hr)
  | ok a => exact hf a (h.of_ok a hr)

/-- The rule for a loop that stops at the first failure: the invariant is indexed by what has been
done. -/
theorem foldlM {σ : Type} {f : σ → α → Except ε σ} {I : List α → σ → Prop} {s : σ} (l : List α)
    (h₀ : I [] s)
    (step : ∀ as a t, as ++ [a] <+: l → I as t → Outcome (f t a) bad (I (as ++ [a]))) :
    Outcome (l.foldlM f s) bad (I l) := by
  induction l using List.reverseRecOn with
  | nil => exact .of_eq_ok rfl h₀
  | append_singleton l a ih =>
    rw [List.foldlM_append]
    refine (ih fun as b t hpre ↦ step as b t (hpre.trans (l.prefix_append [a]))).bind fun t ht ↦ ?_
    rw [List.foldlM_cons]
    refine (step l a t (List.prefix_refl _) ht).bind fun u hu ↦ ?_
    exact .of_eq_ok rfl hu

end Outcome

/-- A loop none of whose turns fails. -/
theorem List.mapM_eq_ok {f : α → Except ε β} {g : α → β} {l : List α}
    (h : ∀ a ∈ l, f a = .ok (g a)) : l.mapM f = .ok (l.map g) := by
  induction l with
  | nil => rfl
  | cons a l ih =>
    rw [List.mapM_cons, h a List.mem_cons_self, ih fun b hb ↦ h b (List.mem_cons_of_mem _ hb)]
    rfl

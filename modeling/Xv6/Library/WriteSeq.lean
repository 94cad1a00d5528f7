import Mathlib.Data.List.Basic
import Mathlib.Data.List.Nodup
import Mathlib.Logic.Function.Basic
import Mathlib.Tactic.Common

/-!
# Sequences of writes

A store maps addresses to values, a write is an address with a value, and a list of writes is
issued in order. What a crash leaves behind is the effect of a *prefix* of the list, so the facts
below are about `applyWrites` of prefixes and suffixes:

* an address no write mentions keeps its value (`applyWrites_of_notMem`);
* with distinct addresses every write survives (`applyWrites_of_mem`).
-/

variable {ι β : Type*} [DecidableEq ι]

/-- The store after the writes `ws`, issued from left to right. -/
def applyWrites (ws : List (ι × β)) (d : ι → β) : ι → β :=
  ws.foldl (fun d w ↦ Function.update d w.1 w.2) d

@[simp] theorem applyWrites_nil (d : ι → β) : applyWrites [] d = d := rfl

@[simp] theorem applyWrites_cons (w : ι × β) (ws : List (ι × β)) (d : ι → β) :
    applyWrites (w :: ws) d = applyWrites ws (Function.update d w.1 w.2) := rfl

theorem applyWrites_append (ws vs : List (ι × β)) (d : ι → β) :
    applyWrites (ws ++ vs) d = applyWrites vs (applyWrites ws d) :=
  List.foldl_append

/-- An address that no write mentions keeps its value. -/
theorem applyWrites_of_notMem {ws : List (ι × β)} {a : ι} (h : ∀ w ∈ ws, w.1 ≠ a)
    (d : ι → β) : applyWrites ws d a = d a := by
  induction ws generalizing d with
  | nil => rfl
  | cons w ws ih =>
    rw [applyWrites_cons, ih fun v hv ↦ h v (List.mem_cons_of_mem _ hv)]
    exact Function.update_of_ne (Ne.symm (h w List.mem_cons_self)) _ _

/-- With distinct addresses, every write of the list is in force at the end. -/
theorem applyWrites_of_mem {ws : List (ι × β)} (hnd : (ws.map Prod.fst).Nodup) {w : ι × β}
    (hw : w ∈ ws) (d : ι → β) : applyWrites ws d w.1 = w.2 := by
  induction ws generalizing d with
  | nil => exact absurd hw List.not_mem_nil
  | cons v ws ih =>
    rw [List.map_cons, List.nodup_cons] at hnd
    rcases List.mem_cons.1 hw with rfl | hw
    · rw [applyWrites_cons, applyWrites_of_notMem, Function.update_self]
      intro u hu hua
      exact hnd.1 (hua ▸ List.mem_map_of_mem hu)
    · exact ih hnd.2 hw _

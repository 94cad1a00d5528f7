import Mathlib.Algebra.BigOperators.Fin
import Mathlib.Algebra.Ring.Nat
import Mathlib.Algebra.Order.BigOperators.Group.Finset
import Mathlib.Data.Fintype.BigOperators
import Mathlib.Data.List.Count

/-!
# Sums and counts that change in one place

Accounting over a family of parties, of which one acts: the sum changes by what that one
contributes (`sum_add_of_eq_elsewhere`). Accounting over a list of claims, to which one is added or
from which one is taken: the count of those with the same key changes by one.
-/

variable {ι α κ M : Type*} [DecidableEq ι] [AddCommMonoid M]

/-- Two families that agree but at `p`, over a set. -/
theorem sum_add_of_eq_elsewhere_of_mem {S : Finset ι} {f f' : ι → α} {p : ι} (hp : p ∈ S)
    (h : ∀ q, q ≠ p → f' q = f q) (g : α → M) :
    ∑ q ∈ S, g (f' q) + g (f p) = ∑ q ∈ S, g (f q) + g (f' p) := by
  rw [← Finset.add_sum_erase _ _ hp, ← Finset.add_sum_erase (a := p) S (fun q ↦ g (f q)) hp]
  have hrest : ∑ q ∈ S.erase p, g (f' q) = ∑ q ∈ S.erase p, g (f q) :=
    Finset.sum_congr rfl fun q hq ↦ by rw [h q (Finset.ne_of_mem_erase hq)]
  rw [hrest, add_right_comm, add_comm (g (f' p)), add_right_comm]

/-- Two families that agree but at `p`. -/
theorem sum_add_of_eq_elsewhere [Fintype ι] {f f' : ι → α} {p : ι} (h : ∀ q, q ≠ p → f' q = f q)
    (g : α → M) : ∑ q, g (f' q) + g (f p) = ∑ q, g (f q) + g (f' p) :=
  sum_add_of_eq_elsewhere_of_mem (Finset.mem_univ p) h g

/-- One member of the family is replaced. -/
theorem sum_update_add [Fintype ι] (f : ι → α) (p : ι) (x : α) (g : α → M) :
    ∑ q, g (Function.update f p x q) + g (f p) = ∑ q, g (f q) + g x := by
  rw [sum_add_of_eq_elsewhere (fun q hq ↦ Function.update_of_ne hq x f), Function.update_self]

section count

variable [DecidableEq κ] (f : α → κ) {a : α} {l : List α}

theorem countP_cons_key (a : α) (l : List α) (k : κ) :
    (a :: l).countP (f · = k) = l.countP (f · = k) + if f a = k then 1 else 0 := by
  rw [List.countP_cons]
  simp

theorem countP_erase_key [BEq α] [LawfulBEq α] (h : a ∈ l) (k : κ) :
    (l.erase a).countP (f · = k) + (if f a = k then 1 else 0) = l.countP (f · = k) := by
  rw [← countP_cons_key]
  exact ((List.perm_cons_erase h).countP_eq _).symm

end count

import Mathlib.Data.List.Cycle
import Mathlib.Logic.Function.Basic

/-!
# Circular lists with one pointer

A circular list threaded through its members by one pointer each, as in C code: `Circular next l`
says that following `next` goes through the members of `l` and from the last one back to the first.
Where it begins does not matter (`Circular.rotate`), so what is done at a member is said with that
member in front, and then for any place: `Circular.insertAfter` and `Circular.removeAfter`. A walk
that starts at a member is a path through all others and back to it (`Circular.path`).
-/

variable {α : Type*}

/-- Following `next` goes through `l` and back to its beginning. -/
def Circular (next : α → α) (l : List α) : Prop := (l : Cycle α).Chain fun x y ↦ next x = y

namespace Circular

open Function List

variable {next next' : α → α} {l l₁ l₂ : List α} {a b p : α}

theorem cons_iff : Circular next (a :: l) ↔ (a :: (l ++ [a])).IsChain fun x y ↦ next x = y :=
  Cycle.chain_coe_cons _ a l

theorem rotate (h : Circular next (l₁ ++ l₂)) : Circular next (l₂ ++ l₁) := by
  have heq : ((l₂ ++ l₁ : List α) : Cycle α) = (l₁ ++ l₂ : List α) :=
    Cycle.coe_eq_coe.2 isRotated_append
  rw [Circular, heq]
  exact h

/-- The walk from a member through all others, and back to it. -/
theorem path (h : Circular next (l₁ ++ a :: l₂)) :
    (a :: (l₂ ++ l₁ ++ [a])).IsChain fun x y ↦ next x = y :=
  cons_iff.1 h.rotate

/-- On a path only the pointers of the nodes before the last one matter. -/
theorem path_congr (h : (l ++ [a]).IsChain fun x y ↦ next x = y) (heq : ∀ x ∈ l, next' x = next x) :
    (l ++ [a]).IsChain fun x y ↦ next' x = y := by
  induction l with
  | nil => exact isChain_singleton a
  | cons x l ih =>
    obtain ⟨hx, hl⟩ := forall_mem_cons.1 heq
    rw [cons_append, isChain_cons] at h ⊢
    exact ⟨fun y hy ↦ hx.trans (h.1 y hy), ih h.2 hl⟩

/-- In a circular list only the pointers of the members matter. -/
theorem congr (h : Circular next l) (heq : ∀ x ∈ l, next' x = next x) : Circular next' l := by
  cases l with
  | nil => exact h
  | cons a l => exact cons_iff.2 (path_congr (cons_iff.1 h) heq)

theorem not_mem_of_nodup (hnodup : (l₁ ++ p :: l₂).Nodup) : p ∉ l₂ ++ l₁ := by
  have hp := (nodup_cons.1 (nodup_middle.1 hnodup)).1
  rwa [mem_append, or_comm, ← mem_append]

variable [DecidableEq α]

theorem insertAfter_cons (h : Circular next (p :: l)) (hb : b ∉ p :: l) (hp : p ∉ l) :
    Circular (update (update next b (next p)) p b) (p :: b :: l) := by
  have hbp : b ≠ p := ne_of_not_mem_cons hb
  have hbl : b ∉ l := not_mem_of_not_mem_cons hb
  obtain ⟨hnext, hl⟩ := isChain_cons.1 (cons_iff.1 h)
  refine cons_iff.2 (isChain_cons_cons.2 ⟨update_self .., isChain_cons.2
    ⟨fun y hy ↦ ?_, path_congr hl fun x hx ↦ ?_⟩⟩)
  · rw [update_of_ne hbp, update_self]
    exact hnext y hy
  · rw [update_of_ne (ne_of_mem_of_not_mem hx hp),
      update_of_ne (ne_of_mem_of_not_mem hx hbl)]

theorem removeAfter_cons (h : Circular next (p :: b :: l)) (hp : p ∉ l) :
    Circular (update next p (next b)) (p :: l) := by
  obtain ⟨-, hbl⟩ := isChain_cons_cons.1 (cons_iff.1 h)
  obtain ⟨hnext, hl⟩ := isChain_cons.1 hbl
  refine cons_iff.2 (isChain_cons.2 ⟨fun y hy ↦ ?_, path_congr hl fun x hx ↦ ?_⟩)
  · rw [update_self]
    exact hnext y hy
  · rw [update_of_ne (ne_of_mem_of_not_mem hx hp)]

/-- `b->next = p->next; p->next = b;` -/
theorem insertAfter (h : Circular next (l₁ ++ p :: l₂)) (hnodup : (l₁ ++ p :: l₂).Nodup)
    (hb : b ∉ l₁ ++ p :: l₂) :
    Circular (update (update next b (next p)) p b) (l₁ ++ p :: b :: l₂) := by
  have hfront : Circular next (p :: (l₂ ++ l₁)) := h.rotate
  refine Circular.rotate (hfront.insertAfter_cons (fun hmem ↦ hb ?_)
    (not_mem_of_nodup hnodup))
  simp only [mem_append, mem_cons] at hmem ⊢
  tauto

/-- `p->next = p->next->next;` -/
theorem removeAfter (h : Circular next (l₁ ++ p :: b :: l₂))
    (hnodup : (l₁ ++ p :: b :: l₂).Nodup) :
    Circular (update next p (next b)) (l₁ ++ p :: l₂) := by
  have hfront : Circular next (p :: b :: (l₂ ++ l₁)) := h.rotate
  refine Circular.rotate (hfront.removeAfter_cons fun hmem ↦ ?_)
  exact not_mem_of_nodup hnodup (mem_cons_of_mem b hmem)

end Circular

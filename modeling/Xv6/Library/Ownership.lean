import Mathlib.Data.Finset.Insert
import Mathlib.Data.Finset.Image
import Mathlib.Tactic.Common

/-!
# Cells that own resources

Resources are numbers, `0` being none. A cell holds a resource or none, and some resources are in
hand: taken, but not yet in a cell. `Owns hold hand used` says that a resource
is in use exactly if it is in hand or in a cell, and that it is in one place only.

The moves are: take a resource that is not in use, and put one that is in hand into an empty cell. A
structure that allocates and links is kept in order if each of its steps is one of them.
-/

variable {ι : Type*}

/-- Every resource in use is in hand or in a cell, and in one place only. -/
structure Owns (hold : ι → ℕ) (hand : Finset ℕ) (used : ℕ → Prop) : Prop where
  unique : ∀ i j, hold i ≠ 0 → hold i = hold j → i = j
  apart : ∀ i, hold i ∉ hand
  used_iff : ∀ b, used b ↔ b ∈ hand ∨ b ≠ 0 ∧ ∃ i, hold i = b
  zero : 0 ∉ hand

namespace Owns

open Function Finset

variable {hold : ι → ℕ} {hand : Finset ℕ} {used used' : ℕ → Prop} {i : ι} {b : ℕ}

theorem used_of_hold (h : Owns hold hand used) (hi : hold i ≠ 0) : used (hold i) :=
  (h.used_iff _).2 (.inr ⟨hi, i, rfl⟩)

/-- What is not in use is in no cell. -/
theorem hold_ne (h : Owns hold hand used) (hb : ¬used b) (hb0 : b ≠ 0) (i : ι) : hold i ≠ b := by
  rintro rfl
  exact hb (h.used_of_hold hb0)

theorem congr (h : Owns hold hand used) (hused : ∀ b, used' b ↔ used b) : Owns hold hand used' :=
  { h with used_iff := fun b ↦ (hused b).trans (h.used_iff b) }

/-- Take a resource that is not in use. -/
theorem take (h : Owns hold hand used) (hb : ¬used b) (hb0 : b ≠ 0) :
    Owns hold (insert b hand) fun c ↦ c = b ∨ used c where
  unique := h.unique
  apart i := by
    rw [mem_insert, not_or]
    exact ⟨h.hold_ne hb hb0 i, h.apart i⟩
  used_iff c := by rw [h.used_iff c, mem_insert, or_assoc]
  zero := by
    rw [mem_insert, not_or]
    exact ⟨hb0.symm, h.zero⟩

variable [DecidableEq ι]

/-- Put a resource that is in hand into an empty cell. -/
theorem put (h : Owns hold hand used) (hb : b ∈ hand) (hi : hold i = 0) :
    Owns (update hold i b) (hand.erase b) used where
  unique j k hj hjk := by
    by_cases hji : j = i
    · by_cases hki : k = i
      · rw [hji, hki]
      · rw [hji, update_self, update_of_ne hki] at hjk
        rw [hjk] at hb
        exact absurd hb (h.apart k)
    · rw [update_of_ne hji] at hj hjk
      by_cases hki : k = i
      · rw [hki, update_self] at hjk
        rw [← hjk] at hb
        exact absurd hb (h.apart j)
      · rw [update_of_ne hki] at hjk
        exact h.unique j k hj hjk
  apart j hj := by
    rw [mem_erase] at hj
    by_cases hji : j = i
    · rw [hji, update_self] at hj
      exact hj.1 rfl
    · rw [update_of_ne hji] at hj
      exact h.apart j hj.2
  used_iff c := by
    rw [h.used_iff c, mem_erase]
    constructor
    · rintro (hc | ⟨hc0, j, rfl⟩)
      · by_cases hcb : c = b
        · refine .inr ⟨?_, i, by rw [update_self, hcb]⟩
          rintro rfl
          exact h.zero hc
        · exact .inl ⟨hcb, hc⟩
      · refine .inr ⟨hc0, j, update_of_ne ?_ _ _⟩
        rintro rfl
        exact hc0 hi
    · rintro (⟨-, hc⟩ | ⟨hc0, j, hj⟩)
      · exact .inl hc
      · by_cases hji : j = i
        · rw [hji, update_self] at hj
          rw [← hj]
          exact .inl hb
        · rw [update_of_ne hji] at hj
          exact .inr ⟨hc0, j, hj⟩
  zero h0 := h.zero (mem_of_mem_erase h0)

end Owns

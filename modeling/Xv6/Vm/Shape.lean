import Xv6.Vm.Fault

/-!
# The shape of an address space

What every process's page table looks like between system calls: user pages below `PGROUNDUP(sz)`,
not all of them present; the trampoline and the trapframe at the top, out of the user's reach; and
nothing else.
-/

namespace Xv6

/-- The shape of the page table `pt` of a process of size `sz`. -/
structure WellShaped (m : Memory) (pt sz : ℕ) : Prop where
  size : sz ≤ trapframeVa
  leaves : ∀ v < 2 ^ 27, hasFlag (leaf m pt v) pteV = true →
    v * pgsize = trampolineVa ∨ v * pgsize = trapframeVa ∨ v * pgsize < pgRoundUp sz
  trampoline : hasFlag (leaf m pt (trampolineVa / pgsize)) pteV = true ∧
    hasFlag (leaf m pt (trampolineVa / pgsize)) pteU = false
  trapframe : hasFlag (leaf m pt (trapframeVa / pgsize)) pteV = true ∧
    hasFlag (leaf m pt (trapframeVa / pgsize)) pteU = false
  readable : ∀ v, v * pgsize < pgRoundUp sz → hasFlag (leaf m pt v) pteV = true →
    hasFlag (leaf m pt v) pteR = true

variable {s t : Phys} {m m' : Memory} {pt sz v : ℕ}

theorem lt_pgRoundUp : v * pgsize < pgRoundUp sz ↔ v < pagesOf sz := by
  show v * 4096 < u64 (sz + 4095) / 4096 * 4096 ↔ v < u64 (sz + 4095) / 4096 * 4096 / 4096
  omega

namespace WellShaped

/-- Above the user's pages there are the trampoline and the trapframe. -/
theorem eq_top (h : WellShaped m pt sz) (hv : userPages ≤ v) (hlt : v < 2 ^ 27)
    (hV : hasFlag (leaf m pt v) pteV = true) :
    v = trampolineVa / pgsize ∨ v = trapframeVa / pgsize := by
  have hle := pagesOf_le h.size
  rcases h.leaves v hlt hV with heq | heq | hlow
  · left
    rw [← heq, Nat.mul_div_cancel _ (by decide)]
  · right
    rw [← heq, Nat.mul_div_cancel _ (by decide)]
  · rw [lt_pgRoundUp] at hlow
    omega

theorem guarded (h : WellShaped m pt sz) (hv : userPages ≤ v) (hlt : v < 2 ^ 27)
    (hV : hasFlag (leaf m pt v) pteV = true) : hasFlag (leaf m pt v) pteU = false := by
  rcases h.eq_top hv hlt hV with rfl | rfl
  · exact h.trampoline.2
  · exact h.trapframe.2

/-- A page that a process has not got is not below its size. -/
theorem lt_pagesOf_of_valid (h : WellShaped m pt sz) (hv : v < userPages)
    (hV : hasFlag (leaf m pt v) pteV = true) : v < pagesOf sz := by
  rw [userPages_eq] at hv
  rcases h.leaves v (by omega) hV with heq | heq | hlow
  · have heq' : v * 4096 = 274877902848 := heq
    omega
  · have heq' : v * 4096 = 274877898752 := heq
    omega
  · exact lt_pgRoundUp.1 hlow

theorem user (h : WellShaped m pt sz) (hv : v < userPages)
    (hV : hasFlag (leaf m pt v) pteV = true) :
    v < pagesOf sz ∧ hasFlag (leaf m pt v) pteR = true :=
  have hlt := h.lt_pagesOf_of_valid hv hV
  ⟨hlt, h.readable v (lt_pgRoundUp.2 hlt) hV⟩

/-- Lazy growth changes the size only. -/
theorem grow {n : ℕ} (h : WellShaped m pt sz) (hle : sz ≤ n) (hn : n ≤ trapframeVa) :
    WellShaped m pt n := by
  have hpages : pagesOf sz ≤ pagesOf n := by
    rw [pagesOf_eq h.size, pagesOf_eq hn]
    omega
  refine ⟨hn, fun v hv hV ↦ ?_, h.trampoline, h.trapframe, fun v hv hV ↦ ?_⟩
  · rcases h.leaves v hv hV with heq | heq | hlow
    · exact .inl heq
    · exact .inr (.inl heq)
    · rw [lt_pgRoundUp] at hlow
      exact .inr (.inr (lt_pgRoundUp.2 (by omega)))
  · rw [lt_pgRoundUp] at hv
    have hvu : v < userPages := lt_of_lt_of_le hv (pagesOf_le hn)
    exact h.readable v (lt_pgRoundUp.2 (h.lt_pagesOf_of_valid hvu hV)) hV

end WellShaped

end Xv6

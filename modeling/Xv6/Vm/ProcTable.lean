import Xv6.Vm.Free

/-!
# A process's page table

`proc_pagetable` and `proc_freepagetable` of `kernel/proc.c`: the page table a process starts with,
empty but for the trampoline and the trapframe at the top, and its end.
-/

namespace Xv6

variable [Image]

/-- `proc_pagetable`: a page table with no user memory, for the process with the trapframe page
`trapframe`; `0` when memory runs out. -/
def procPagetable (trapframe : ℕ) : KM ℕ := do
  let pagetable ← uvmcreate
  if pagetable = 0 then
    return 0
  else if (← mappages pagetable trampolineVa pgsize Image.trampoline (pteR ||| pteX)) < 0 then
    uvmfree pagetable 0
    return 0
  else if (← mappages pagetable trapframeVa pgsize trapframe (pteR ||| pteW)) < 0 then
    uvmunmap pagetable trampolineVa 1 false
    uvmfree pagetable 0
    return 0
  else
    return pagetable

/-- `proc_freepagetable`. -/
def procFreepagetable (pagetable sz : ℕ) : KM Unit := do
  uvmunmap pagetable trampolineVa 1 false
  uvmunmap pagetable trapframeVa 1 false
  uvmfree pagetable sz

variable {S : Estate} {M : Memory} {s t : Phys} {pt sz trapframe v : ℕ} {hand : List ℕ}

omit [Image] in
theorem trapframeVa_div : trapframeVa / pgsize = userPages := by
  rw [userPages_eq]
  rfl

omit [Image] in
theorem trampolineVa_div : trampolineVa / pgsize = userPages + 1 := by
  rw [userPages_eq]
  rfl

omit [Image] in
/-- What is mapped without `PTE_U` is valid and not the user's. -/
theorem hasFlag_top {pa : ℕ} {perm : Pte} (hp : hasFlag perm pteU = false) :
    hasFlag (pa2pte pa ||| perm ||| pteV) pteV = true ∧
      hasFlag (pa2pte pa ||| perm ||| pteV) pteU = false := by
  have haddr := hasFlag_pa2pte pa (f := pteU) (by decide)
  refine ⟨?_, ?_⟩ <;> rw [hasFlag_or]
  · exact Bool.or_true _
  · rw [hasFlag_or, haddr, hp]
    decide

omit [Image] in
theorem trampolineVa_mul : trampolineVa = (userPages + 1) * pgsize := by
  rw [userPages_eq]
  rfl

omit [Image] in
theorem trapframeVa_mul : trapframeVa = userPages * pgsize := by
  rw [userPages_eq]
  rfl

/-- The trampoline and the trapframe are unmapped without being freed. -/
theorem Space.uvmunmap_trampoline (h : Space S M s pt hand) :
    wp (Xv6.uvmunmap pt trampolineVa 1 false)
      (fun _ t ↦ Space S M t pt hand ∧ Clears s t pt (userPages + 1) (userPages + 2)) s := by
  rw [trampolineVa_mul]
  exact h.uvmunmap_top (Nat.le_succ _) (by rw [userPages_eq]; decide)

theorem Space.uvmunmap_trapframe (h : Space S M s pt hand) :
    wp (Xv6.uvmunmap pt trapframeVa 1 false)
      (fun _ t ↦ Space S M t pt hand ∧ Clears s t pt userPages (userPages + 1)) s := by
  rw [trapframeVa_mul]
  exact h.uvmunmap_top le_rfl (by rw [userPages_eq]; decide)

/-- **`proc_pagetable`** makes a page table of the shape of an empty process, or leaves nothing
behind. -/
theorem Pool.procPagetable (h : Pool S M s hand) :
    wp (Xv6.procPagetable trapframe)
      (fun r t ↦ (r = 0 ∧ Pool S M t hand ∨
          IsPage r ∧ Space S M t r hand ∧ WellShaped t.mem r 0) ∧
        ∀ n, Ample s (n + 5) → r ≠ 0 ∧ Ample t n) s := by
  rw [Xv6.procPagetable, wp_bind]
  refine h.uvmcreate (fun t ht hno ↦ ?_) fun pt t hpt ht hleaf hample ↦ ?_
  · rw [if_pos rfl, wp_pure]
    exact ⟨.inl ⟨rfl, ht⟩, fun n hn ↦ absurd hn (hno (n + 4))⟩
  rw [if_neg hpt.pos.ne', wp_bind]
  refine (ht.mappages_top (by decide) (by decide) (by decide)
    (by rw [hleaf, hasFlag_zero])).mono fun r u hr ↦ ?_
  rw [trampolineVa_div] at hr
  have hlast : ∀ n, Ample s (n + 5) → r = 0 ∧ Ample u (n + 2) := fun n hn ↦ hr.2 _ (hample _ hn)
  rcases hr.1 with ⟨hr, hu, hgains⟩ | ⟨hr, hu, hview⟩
  · have hother : ∀ v < 2 ^ 27, v ≠ userPages + 1 → leaf u.mem pt v = 0 := fun v hv hne ↦ by
      rw [hgains.other v hv hne, hleaf]
    rw [if_neg (by omega), wp_bind]
    refine (hu.mappages_top (by decide) le_rfl (by decide) ?_).mono fun q w hq ↦ ?_
    · rw [trapframeVa_div, hother userPages (by rw [userPages_eq]; decide) (by omega), hasFlag_zero]
    rw [trapframeVa_div] at hq
    have hlast' : ∀ n, Ample s (n + 5) → q = 0 ∧ Ample w n := fun n hn ↦ hq.2 _ (hlast n hn).2
    rcases hq.1 with ⟨hq, hw, hgains'⟩ | ⟨hq, hw, hview⟩
    · rw [if_neg (by omega), wp_pure]
      refine ⟨.inr ⟨hpt, hw, ?_⟩, fun n hn ↦ ⟨hpt.pos.ne', (hlast' n hn).2⟩⟩
      have hframe := hgains'.self
      have htramp : leaf w.mem pt (userPages + 1) = _ :=
        (hgains'.other _ (by rw [userPages_eq]; decide) (by omega)).trans hgains.self
      refine ⟨Nat.zero_le _, fun v hv hV ↦ ?_, ?_, ?_, fun v hv ↦ absurd hv (Nat.not_lt_zero _)⟩
      · by_cases hv1 : v = userPages + 1
        · exact .inl (by rw [hv1, trampolineVa_mul])
        by_cases hv2 : v = userPages
        · exact .inr (.inl (by rw [hv2, trapframeVa_mul]))
        rw [hgains'.other v hv hv2, hother v hv hv1, hasFlag_zero] at hV
        exact absurd hV Bool.false_ne_true
      · rw [trampolineVa_div, htramp]
        exact hasFlag_top (by decide)
      · rw [trapframeVa_div, hframe]
        exact hasFlag_top (by decide)
    · rw [if_pos (by omega), wp_bind]
      refine hw.uvmunmap_trampoline.mono fun _ x hx ↦ ?_
      rw [wp_bind]
      refine (hx.1.uvmfree (Nat.zero_le _) fun v hv hV ↦ ?_).mono fun _ y hy ↦ ?_
      · by_cases hv1 : v = userPages + 1
        · rw [hx.2.inside v (by omega) (by omega)] at hV
          exact absurd hV Bool.false_ne_true
        · rw [hx.2.outside v hv (by omega), hview.leaf_eq, hother v hv hv1, hasFlag_zero] at hV
          exact absurd hV Bool.false_ne_true
      · rw [wp_pure]
        exact ⟨.inl ⟨rfl, hy⟩, fun n hn ↦ absurd (hlast' n hn).1 (by omega)⟩
  · rw [if_pos (by omega), wp_bind]
    refine (hu.uvmfree (Nat.zero_le _) fun v hv hV ↦ ?_).mono fun _ w hw ↦ ?_
    · rw [hview.leaf_eq, hleaf, hasFlag_zero] at hV
      exact absurd hV Bool.false_ne_true
    · rw [wp_pure]
      exact ⟨.inl ⟨rfl, hw⟩, fun n hn ↦ absurd (hlast n hn).1 (by omega)⟩

/-- **`proc_freepagetable`** gives all pages of an address space back. -/
theorem Space.procFreepagetable (h : Space S M s pt hand) (hshape : WellShaped s.mem pt sz) :
    wp (Xv6.procFreepagetable pt sz) (fun _ t ↦ Pool S M t hand) s := by
  rw [Xv6.procFreepagetable, wp_bind]
  refine h.uvmunmap_trampoline.mono fun _ t ht ↦ ?_
  rw [wp_bind]
  refine ht.1.uvmunmap_trapframe.mono fun _ u hu ↦ ?_
  refine hu.1.uvmfree hshape.size fun v hv hV ↦ ?_
  have hold : hasFlag (leaf s.mem pt v) pteV = true ∧ v ≠ userPages ∧ v ≠ userPages + 1 := by
    by_cases hv1 : v = userPages
    · rw [hu.2.inside v (by omega) (by omega)] at hV
      exact absurd hV Bool.false_ne_true
    rw [hu.2.outside v hv (by omega)] at hV
    by_cases hv2 : v = userPages + 1
    · rw [ht.2.inside v (by omega) (by omega)] at hV
      exact absurd hV Bool.false_ne_true
    rw [ht.2.outside v hv (by omega)] at hV
    exact ⟨hV, hv1, hv2⟩
  rcases lt_or_ge v userPages with hlt | hge
  · exact hshape.lt_pagesOf_of_valid hlt hold.1
  · rcases hshape.eq_top hge hv hold.1 with heq | heq
    · exact absurd (heq.trans trampolineVa_div) hold.2.2
    · exact absurd (heq.trans trapframeVa_div) hold.2.1

end Xv6

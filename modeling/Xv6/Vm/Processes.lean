import Xv6.Library.SumElsewhere
import Xv6.Vm.Layout

/-!
# The memory of all processes

Processes get memory by `allocproc`, `kfork`, `sys_sbrk`, by page faults and by the copies between
kernel and user, and lose it by `sys_sbrk` and, when they are waited for, by `freeproc`. A call is
specified on the pages of one process and the free ones (`Holds`); `Procs.Owned` counts the pages of
all processes, and `Procs.Owned.close` adds the frame. The calls come one after the other: what
those of two processes share is the free list, which has a lock.
-/

namespace Xv6

open Function Option Finset

/-- The memory of a process: `p->trapframe`, `p->pagetable` and `p->sz`. -/
structure UserMem where
  trapframe : ℕ
  pagetable : ℕ
  sz : ℕ

variable [Image]

/-- `growproc`: its result, and `p->sz`. -/
def growproc (pagetable sz : ℕ) (n : BitVec 32) : KM (ℤ × ℕ) := do
  if n.toInt > 0 then
    if ofInt64 (sz + n.toInt) > trapframeVa then
      return (-1, sz)
    else
      let q ← uvmalloc pagetable sz (ofInt64 (sz + n.toInt)) pteW
      return if q = 0 then (-1, sz) else (0, q)
  else if n.toInt < 0 then
    return (0, ← uvmdealloc pagetable sz (ofInt64 (sz + n.toInt)))
  else
    return (0, sz)

/-- `sys_sbrk`: its result, and `p->sz`. Memory is given at once or (`SBRK_LAZY`) by page faults. -/
def sysSbrk (pagetable sz : ℕ) (n t : BitVec 32) : KM (ℤ × ℕ) := do
  if t = 1 ∨ n.toInt < 0 then
    let (r, sz') ← growproc pagetable sz n
    return (if r < 0 then -1 else sz, sz')
  else if ofInt64 (sz + n.toInt) < sz ∨ ofInt64 (sz + n.toInt) > trapframeVa then
    return (-1, sz)
  else
    return (sz, ofInt64 (sz + n.toInt))

/-- `freeproc`. -/
def freeproc (p : UserMem) : KM Unit := do
  if p.trapframe ≠ 0 then
    kfree p.trapframe
  if p.pagetable ≠ 0 then
    procFreepagetable p.pagetable p.sz

/-- `allocproc`, in a slot that is `UNUSED`. -/
def allocproc : KM (Option UserMem) := do
  let trapframe ← kalloc
  if trapframe = 0 then
    freeproc ⟨0, 0, 0⟩
    return none
  else
    let pagetable ← procPagetable trapframe
    if pagetable = 0 then
      freeproc ⟨trapframe, 0, 0⟩
      return none
    else
      return some ⟨trapframe, pagetable, 0⟩

/-- `sizeof(struct trapframe)`. -/
abbrev trapframeSize : ℕ := 288

/-- `kfork` of the process with the memory `p`. -/
def kfork (p : UserMem) : KM (Option UserMem) := do
  match ← allocproc with
  | none => return none
  | some np =>
    if (← uvmcopy p.pagetable np.pagetable p.sz) < 0 then
      freeproc np
      return none
    else
      let registers ← loadPage p.trapframe
      let page := putBytes (← loadPage np.trapframe) 0 trapframeSize (byteAt registers)
      -- `a0`, the result of `fork`, is zero in the child
      storePage np.trapframe (putBytes page 112 8 fun _ ↦ 0)
      return some { np with sz := p.sz }

/-- The process table and the memory. -/
structure Procs (N : ℕ) where
  phys : Phys
  proc : Fin N → Option UserMem

/-- A call that changes the memory of the process in the slot `i`. -/
inductive MemCall (N : ℕ)
  | alloc (i : Fin N)
  | fork (parent i : Fin N)
  | sbrk (i : Fin N) (n t : BitVec 32)
  | fault (i : Fin N) (va : ℕ)
  | copyout (i : Fin N) (va : ℕ) (src : ℕ → BitVec 8) (len : ℕ)
  | copyin (i : Fin N) (va len : ℕ)
  | free (i : Fin N)

namespace MemCall

variable {N : ℕ}

/-- The slot of the call. -/
def slot : MemCall N → Fin N
  | alloc i | fork _ i | sbrk i _ _ | fault i _ | copyout i _ _ _ | copyin i _ _ | free i => i

/-- What a call does to a process. -/
def ofProcess (p : UserMem) : MemCall N → KM (Option UserMem)
  | sbrk _ n t => do return some { p with sz := (← sysSbrk p.pagetable p.sz n t).2 }
  | fault _ va => do
    let _ ← vmfault p.pagetable p.sz p.pagetable va
    return some p
  | copyout _ va src len => do
    let _ ← Xv6.copyout p.pagetable p.sz p.pagetable va src len
    return some p
  | copyin _ va len => do
    let _ ← Xv6.copyin p.pagetable p.sz p.pagetable va len
    return some p
  | free _ => do
    freeproc p
    return none
  | alloc _ | fork _ _ => return some p

/-- What a call does in its slot. -/
def body (proc : Fin N → Option UserMem) (c : MemCall N) : KM (Option UserMem) :=
  match proc c.slot, c with
  | some p, c => c.ofProcess p
  | none, alloc _ => allocproc
  | none, fork parent _ => (proc parent).elim (return none) kfork
  | none, _ => return none

/-- A call. -/
def exec (c : MemCall N) : StateT (Procs N) (Except Stop) Unit := fun w ↦
  (c.body w.proc w.phys).map fun r ↦ ((), ⟨r.2, update w.proc c.slot r.1⟩)

end MemCall

/-! ### One process -/

variable {S : Estate} {M : Memory} {s t : Phys} {pt sz n : ℕ} {hand : List ℕ} {p : UserMem}

/-- How often a page is a process's: in its page table, mapped for the user, or its trapframe. -/
def own (m : Memory) (q : Option UserMem) (pg : ℕ) : ℕ :=
  q.elim 0 fun p ↦ nodeCount m 2 p.pagetable pg + leafCount m p.pagetable pg +
    [p.trapframe].count pg

/-- The pages of the estate are those of a process, if there is one, and the free ones. -/
structure Holds (S : Estate) (M : Memory) (s : Phys) (q : Option UserMem) : Prop where
  stock : ∀ pg, own s.mem q pg + s.freelist.count pg = S.count pg
  table : ∀ p, q = some p → IsTable s.mem 2 p.pagetable ∧ WellShaped s.mem p.pagetable p.sz
  frame : ∀ pg, S.count pg = 0 → s.mem pg = M pg

theorem holds_none : Holds S M s none ↔ Pool S M s [] := by
  have hcount : ∀ pg, own s.mem none pg + s.freelist.count pg =
    s.freelist.count pg + [].count pg := fun pg ↦ zero_add _
  exact ⟨fun h ↦ ⟨fun pg ↦ (hcount pg).symm.trans (h.stock pg), h.frame⟩,
    fun h ↦ ⟨fun pg ↦ (hcount pg).trans (h.stock pg), nofun, h.frame⟩⟩

theorem holds_some : Holds S M s (some p) ↔
    Space S M s p.pagetable [p.trapframe] ∧ WellShaped s.mem p.pagetable p.sz := by
  have hcount : ∀ pg, own s.mem (some p) pg + s.freelist.count pg =
      nodeCount s.mem 2 p.pagetable pg +
    leafCount s.mem p.pagetable pg + s.freelist.count pg + [p.trapframe].count pg := fun pg ↦
      Nat.add_right_comm _ _ _
  refine ⟨fun h ↦ ?_, fun h ↦ ?_⟩
  · obtain ⟨htable, hshape⟩ := h.table p rfl
    exact ⟨⟨htable, fun pg ↦ (hcount pg).symm.trans (h.stock pg), h.frame⟩, hshape⟩
  · exact ⟨fun pg ↦ (hcount pg).trans (h.1.stock pg),
      by rintro _ ⟨⟩; exact ⟨h.1.table, h.2⟩, h.1.frame⟩

omit [Image] in
/-- Page faults and stores keep the shape. -/
theorem SameShape.wellShaped (h : SameShape s t pt sz) (hs : WellShaped s.mem pt sz) :
    WellShaped t.mem pt sz := by
  refine hs.of_user hs.size h.top fun v hv hV ↦ ?_
  have hflags : some (pteFlags (leaf t.mem pt v)) = (completed s.mem pt sz v).map Prod.fst := by
    rw [← h.flags v, completed_of_valid hv hV, map_some]
  rw [← hasFlag_pteFlags (by decide)]
  cases hV' : hasFlag (leaf s.mem pt v) pteV with
  | true =>
    rw [completed_of_valid hv hV', map_some, some_inj] at hflags
    rw [hflags, hasFlag_pteFlags (by decide)]
    exact hs.user hv hV'
  | false =>
    -- the page was a lazy one
    rw [completed_of_not_valid hV'] at hflags
    split_ifs at hflags with hlt
    · rw [Option.some.inj hflags]
      exact ⟨hlt, by decide⟩
    · exact absurd hflags (some_ne_none _)

omit [Image] in
/-- The pages above a smaller size are gone. -/
theorem Clears.wellShaped (h : Clears s t pt (pagesOf n) (pagesOf sz)) (hs : WellShaped s.mem pt sz)
    (hn : n ≤ sz) : WellShaped t.mem pt n := by
  have hlow := pagesOf_le hs.size
  refine hs.of_user (hn.trans hs.size) (fun v hv hlt ↦ h.outside v hlt (by omega)) fun v hv hV ↦ ?_
  by_cases hin : pagesOf n ≤ v ∧ v < pagesOf sz
  · rw [h.inside v hin.1 hin.2] at hV
    exact absurd hV Bool.false_ne_true
  · rw [h.outside v (by rw [userPages_eq] at hv; omega) hin] at hV ⊢
    have huser := hs.user hv hV
    exact ⟨by omega, huser.2⟩

namespace Space

/-- **`growproc`** keeps the shape, also where it fails and where the size wraps around. -/
theorem growproc (h : Space S M s pt hand) (hs : WellShaped s.mem pt sz) (k : BitVec 32) :
    wp (Xv6.growproc pt sz k) (fun r t ↦ Space S M t pt hand ∧ WellShaped t.mem pt r.2) s := by
  rw [Xv6.growproc]
  generalize ofInt64 (sz + k.toInt) = n
  split_ifs with hpos htop hneg
  · exact wp_pure.2 ⟨h, hs⟩
  · rw [wp_bind]
    rcases lt_or_ge n sz with hlt | hle
    · rw [Xv6.uvmalloc, if_pos hlt, wp_pure, wp_pure]
      split_ifs <;> exact ⟨h, hs⟩
    have hn : n ≤ trapframeVa := Nat.le_of_not_lt htop
    refine (h.uvmalloc (by decide) hle hs.size (hn.trans_lt (by decide)) (.inl hn)
      fun v hv _ hvu ↦ ?_).mono fun q t hq ↦ ?_
    · exact translation_eq_none.2 (Bool.eq_false_iff.2 fun hV ↦
        absurd (hs.user hvu hV).1 (not_lt.2 hv))
    obtain ⟨ht, hq⟩ := hq
    rw [← pagesOf_eq hn] at hq
    rw [wp_pure]
    rcases hq with ⟨rfl, hgives, -⟩ | ⟨rfl, hsame, -⟩
    · have hgrown := hgives.wellShaped hs hle hn (by decide)
      split_ifs with h0
      · obtain rfl : sz = q := by omega
        exact ⟨ht, hgrown⟩
      · exact ⟨ht, hgrown⟩
    · exact ⟨ht, hs.of_translation hsame⟩
  · rw [wp_bind]
    rcases le_total n sz with hle | hge
    · exact (h.uvmdealloc hle hs.size).mono fun q t hq ↦
        wp_pure.2 ⟨hq.2.1, hq.1 ▸ hq.2.2.wellShaped hs hle⟩
    · rw [Xv6.uvmdealloc, if_pos hge, wp_pure, wp_pure]
      exact ⟨h, hs⟩
  · exact wp_pure.2 ⟨h, hs⟩

theorem sysSbrk (h : Space S M s pt hand) (hs : WellShaped s.mem pt sz) (k l : BitVec 32) :
    wp (Xv6.sysSbrk pt sz k l) (fun r t ↦ Space S M t pt hand ∧ WellShaped t.mem pt r.2) s := by
  rw [Xv6.sysSbrk]
  split_ifs with heager hbad
  · rw [wp_bind]
    exact (h.growproc hs k).mono fun r t hr ↦ wp_pure.2 hr
  · exact wp_pure.2 ⟨h, hs⟩
  · exact wp_pure.2 ⟨h, hs.grow (by omega) (by omega)⟩

end Space

theorem Holds.freeproc (h : Holds S M s (some p)) :
    wp (Xv6.freeproc p) (fun _ t ↦ Pool S M t []) s := by
  obtain ⟨hspace, hshape⟩ := holds_some.1 h
  have hroot : p.pagetable ≠ 0 := by
    have hstock := hspace.stock p.pagetable
    have hone : 1 ≤ nodeCount s.mem 2 p.pagetable p.pagetable := one_le_nodeCount_self
    exact (S.isPage _ (by omega)).pos.ne'
  rw [Xv6.freeproc, if_pos (hspace.isPage_of_hand List.mem_cons_self).pos.ne', wp_bind]
  refine hspace.kfree fun t ht hview ↦ ?_
  rw [if_pos hroot]
  exact ht.procFreepagetable (hshape.of_translation fun v _ ↦ translation_congr (hview.leaf_eq v))

theorem Pool.allocproc (h : Pool S M s []) :
    wp Xv6.allocproc (fun q t ↦ Holds S M t q ∧ ∀ p ∈ q, p.sz = 0) s := by
  rw [Xv6.allocproc, wp_bind]
  refine h.kalloc (fun t ht _ ↦ ?_) fun r t hr ht _ ↦ ?_
  · rw [if_pos rfl]
    exact ⟨none, t, rfl, holds_none.2 ht, nofun⟩
  · rw [if_neg hr.pos.ne', wp_bind]
    refine ht.procPagetable.mono fun q u ⟨hq, _⟩ ↦ ?_
    rcases hq with ⟨rfl, hu⟩ | ⟨hq, hu⟩
    · rw [if_pos rfl, wp_bind, Xv6.freeproc, if_pos hr.pos.ne', wp_bind]
      exact hu.kfree.mono fun _ w hw ↦ ⟨(), w, rfl, none, w, rfl, holds_none.2 hw, nofun⟩
    · rw [if_neg hq.pos.ne', wp_pure]
      exact ⟨holds_some.2 hu, by rintro p ⟨⟩; rfl⟩

/-- The child `np` has the pages of `p`, with the same permissions and bytes, and its registers, but
for `a0`. -/
structure Forked (m m' : Memory) (p np : UserMem) : Prop where
  sz : np.sz = p.sz
  pages : mapped m' np.pagetable = mapped m p.pagetable
  registers : ∀ k < trapframeSize, byteAt (m' np.trapframe) k =
    if 112 ≤ k ∧ k < 120 then 0 else byteAt (m p.trapframe) k

/-- **`kfork`** gives the child a copy of the memory of its parent, or leaves nothing behind. -/
theorem Pool.kfork (h : Pool S M s []) (hp : Apart S s.mem p.pagetable)
    (htrapframe : S.count p.trapframe = 0) (hs : WellShaped s.mem p.pagetable p.sz) :
    wp (Xv6.kfork p) (fun q t ↦ Holds S M t q ∧ ∀ np ∈ q, Forked s.mem t.mem p np) s := by
  rw [Xv6.kfork, wp_bind]
  refine h.allocproc.mono fun q t ⟨ht, hq⟩ ↦ ?_
  cases q with
  | none => exact wp_pure.2 ⟨ht, nofun⟩
  | some np =>
    have hsz : np.sz = 0 := hq np rfl
    obtain ⟨hspace, hshape⟩ := holds_some.1 ht
    obtain ⟨hagrees, hmapped⟩ := hp.keeps (t := t) fun pg hpg ↦ by
      rw [hspace.frame pg hpg, h.frame pg hpg]
    have hapart : Apart S t.mem p.pagetable := fun pg ↦ by
      rw [hagrees.nodeCount_eq, leafCount_congr fun v _ ↦ hagrees.leaf_eq v]
      exact hp pg
    have hlow := pagesOf_le hs.size
    rw [hsz] at hshape
    rw [wp_bind]
    refine (hspace.uvmcopy hapart hs.size fun v hv ↦ ?_).mono fun r u ⟨hu, hr⟩ ↦ ?_
    · exact translation_eq_none.2 (Bool.eq_false_iff.2 fun hV ↦
        absurd (hshape.user (by omega) hV).1 (Nat.not_lt_zero _))
    rcases hr with ⟨rfl, hgives⟩ | ⟨rfl, hsame⟩
    · have hgrown : WellShaped u.mem np.pagetable p.sz :=
        hgives.wellShaped_of hshape (Nat.zero_le _) hs.size fun v x hx ↦ by
          rw [copied, ite_none_right_eq_some] at hx
          obtain ⟨hv, hV⟩ := mapped_ne_none.1 (hx.2 ▸ some_ne_none _)
          rw [mapped_of_valid hv hV, some_inj] at hx
          rw [hagrees.leaf_eq] at hV hx
          rw [← hx.2, hasFlag_pteFlags (by decide)]
          exact ⟨hx.1, (hs.user hv hV).2⟩
      rw [if_neg (by decide), wp_bind, wp_loadPage, wp_bind, wp_loadPage, wp_bind, wp_storePage,
        wp_pure]
      obtain ⟨hnew, hview⟩ := hu.store_hand
      refine ⟨holds_some.2 ⟨hnew, hgrown.of_translation fun v _ ↦
        translation_congr (hview.leaf_eq v)⟩, ?_⟩
      rintro _ ⟨⟩
      refine ⟨rfl, hview.mapped_eq.trans (funext fun v ↦ ?_), fun k hk ↦ ?_⟩
      · by_cases hnone : copied t.mem p.pagetable (pagesOf p.sz) v = none
        · -- neither of the two has the page
          have hchild : mapped u.mem np.pagetable v = none := by_contra fun hne ↦ by
            obtain ⟨hv, hV⟩ := mapped_ne_none.1 hne
            rw [hgives.other v (by rw [userPages_eq] at hv; omega) hnone] at hV
            exact absurd (hshape.user hv hV).1 (Nat.not_lt_zero _)
          have hparent : mapped s.mem p.pagetable v = none := by_contra fun hne ↦ by
            obtain ⟨hv, hV⟩ := mapped_ne_none.1 hne
            rw [copied, if_pos (hs.user hv hV).1, hmapped] at hnone
            exact hne hnone
          rw [hchild, hparent]
        · rw [(hgives.page v hnone).1, copied, if_pos (copied_ne_none hnone).2, hmapped]
      · show byteAt (update u.mem np.trapframe _ np.trapframe) k = _
        have hin : 0 ≤ k ∧ k < 0 + trapframeSize := ⟨Nat.zero_le _, by rwa [zero_add]⟩
        rw [update_self, byteAt_putBytes _ _ (by decide), byteAt_putBytes _ _ (by decide),
          if_pos hin, Nat.sub_zero, hu.frame _ htrapframe, h.frame _ htrapframe]
    · rw [if_pos (by decide), wp_bind]
      exact (holds_some.2 ⟨hu, hsz ▸ hshape.of_translation hsame⟩).freeproc.mono
        fun _ w hw ↦ wp_pure.2 ⟨holds_none.2 hw, nofun⟩

/-- What a call does to a process keeps its pages together. -/
theorem Holds.ofProcess {N : ℕ} (h : Holds S M s (some p)) (c : MemCall N) :
    wp (c.ofProcess p) (fun q t ↦ Holds S M t q) s := by
  obtain ⟨hs, hshape⟩ := holds_some.1 h
  have hready : ∀ e v, Supplied S M [p.trapframe] p.pagetable p.sz e False v s := fun e v ↦
    ⟨hs, fun w hw hlt ↦ hshape.guarded hw (by omega), False.elim⟩
  cases c with
  | alloc i => exact wp_pure.2 h
  | fork i j => exact wp_pure.2 h
  | sbrk i n t =>
    rw [MemCall.ofProcess, wp_bind]
    exact (hs.sysSbrk hshape n t).mono fun r u hu ↦ wp_pure.2 (holds_some.2 hu)
  | fault i va =>
    rw [MemCall.ofProcess, wp_bind]
    exact (hs.vmfault hshape.size).mono fun r u hu ↦
      wp_pure.2 (holds_some.2 ⟨hu.1, hu.2.1.sameShape.wellShaped hshape⟩)
  | copyout i va src len =>
    rw [MemCall.ofProcess, wp_bind]
    exact ((supplied_pager hshape.size).copyoutFrom (hready (va + len) _) le_rfl fun _ ↦
      le_rfl).mono
      fun r u hu ↦ wp_pure.2 (holds_some.2 ⟨hu.1.choose_spec.space, hu.2.1.wellShaped hshape⟩)
  | copyin i va len =>
    rw [MemCall.ofProcess, wp_bind]
    exact ((supplied_pager hshape.size).copyinFrom (hready (va + len) _) le_rfl fun _ ↦ le_rfl).mono
      fun r u hu ↦ wp_pure.2 (holds_some.2 ⟨hu.1.choose_spec.space,
        hu.2.1.sameShape.wellShaped hshape⟩)
  | free i =>
    rw [MemCall.ofProcess, wp_bind]
    exact h.freeproc.mono fun _ u hu ↦ wp_pure.2 (holds_none.2 hu)

/-! ### All processes -/

namespace Procs

variable {N : ℕ} {w : Procs N} {i j : Fin N} {q : Option UserMem}

/-- Every page of the estate is free or one process's, and every other page is as in `M`. -/
structure Owned (S : Estate) (M : Memory) (w : Procs N) : Prop where
  stock : ∀ pg, ∑ i, own w.phys.mem (w.proc i) pg + w.phys.freelist.count pg = S.count pg
  table : ∀ i p, w.proc i = some p →
    IsTable w.phys.mem 2 p.pagetable ∧ WellShaped w.phys.mem p.pagetable p.sz
  frame : ∀ pg, S.count pg = 0 → w.phys.mem pg = M pg

namespace Owned

theorem le (h : Owned S M w) (i : Fin N) (pg : ℕ) :
    own w.phys.mem (w.proc i) pg + w.phys.freelist.count pg ≤ S.count pg := by
  rw [← h.stock pg]
  exact Nat.add_le_add_right (single_le_sum (f := fun i ↦ own w.phys.mem (w.proc i) pg)
    (fun _ _ ↦ Nat.zero_le _) (mem_univ i)) _

/-- The pages of one process and the free ones. -/
def estate (h : Owned S M w) (i : Fin N) : Estate where
  count pg := own w.phys.mem (w.proc i) pg + w.phys.freelist.count pg
  le_one pg := (h.le i pg).trans (S.le_one pg)
  isPage pg hpg := S.isPage pg fun h0 ↦ hpg (Nat.le_zero.1 (h0 ▸ h.le i pg))

theorem holds (h : Owned S M w) (i : Fin N) : Holds (h.estate i) w.phys.mem w.phys (w.proc i) :=
  ⟨fun _ ↦ rfl, h.table i, fun _ _ ↦ rfl⟩

/-- What is another process's is not in the estate. -/
theorem apart (h : Owned S M w) (hij : j ≠ i) {pg : ℕ} (hpg : own w.phys.mem (w.proc j) pg ≠ 0) :
    (h.estate i).count pg = 0 := by
  have hpair := sum_le_univ_sum_of_nonneg (s := {j, i})
    (f := fun i ↦ own w.phys.mem (w.proc i) pg) fun _ ↦ Nat.zero_le _
  rw [sum_pair hij] at hpair
  have hstock := h.stock pg
  have hle := S.le_one pg
  show own w.phys.mem (w.proc i) pg + _ = 0
  omega

theorem others (h : Owned S M w) (hij : j ≠ i) (hp : w.proc j = some p) :
    Apart (h.estate i) w.phys.mem p.pagetable ∧ (h.estate i).count p.trapframe = 0 := by
  refine ⟨fun pg hpg ↦ h.apart hij ?_, h.apart hij ?_⟩ <;> rw [hp, own, elim_some]
  · omega
  · rw [List.count_singleton_self]
    exact Nat.succ_ne_zero _

/-- The other processes keep their memory. -/
theorem keeps (h : Owned S M w) (hq : Holds (h.estate i) w.phys.mem t q) (hij : j ≠ i)
    (hp : w.proc j = some p) :
    Agrees w.phys.mem t.mem 2 p.pagetable ∧
      mapped t.mem p.pagetable = mapped w.phys.mem p.pagetable ∧
      t.mem p.trapframe = w.phys.mem p.trapframe := by
  obtain ⟨hapart, htrapframe⟩ := h.others hij hp
  obtain ⟨hagrees, hmapped⟩ := hapart.keeps hq.frame
  exact ⟨hagrees, hmapped, hq.frame _ htrapframe⟩

/-- **The frame**: what is done with the pages of one process keeps all pages owned. -/
theorem close (h : Owned S M w) (hq : Holds (h.estate i) w.phys.mem t q) :
    Owned S M ⟨t, update w.proc i q⟩ := by
  refine ⟨fun pg ↦ ?_, fun j p (hp : update w.proc i q j = some p) ↦ ?_, fun pg hpg ↦ ?_⟩
  · have hother : ∀ j, j ≠ i → own t.mem (update w.proc i q j) pg =
        own w.phys.mem (w.proc j) pg := fun j hij ↦ by
      rw [update_of_ne hij]
      cases hp : w.proc j with
      | none => simp only [own, elim_none]
      | some p =>
        have hagrees := (h.keeps hq hij hp).1
        simp only [own, elim_some, hagrees.nodeCount_eq,
          leafCount_congr fun v _ ↦ hagrees.leaf_eq v]
    have hsum : _ + own w.phys.mem (w.proc i) pg = _ := sum_add_of_eq_elsewhere hother id
    have hstock : _ = own w.phys.mem (w.proc i) pg + _ := hq.stock pg
    have hold := h.stock pg
    simp only [id, update_self] at hsum
    show ∑ j, own t.mem (update w.proc i q j) pg + t.freelist.count pg = _
    omega
  · by_cases hij : j = i
    · rw [hij, update_self] at hp
      exact hq.table p hp
    · rw [update_of_ne hij] at hp
      have hagrees := (h.keeps hq hij hp).1
      exact ⟨hagrees.isTable (h.table j p hp).1,
        (h.table j p hp).2.of_translation fun v _ ↦ translation_congr (hagrees.leaf_eq v)⟩
  · rw [hq.frame pg (Nat.le_zero.1 (hpg ▸ h.le i pg)), h.frame pg hpg]

theorem fork (h : Owned S M w) (hp : w.proc j = some p) (hi : w.proc i = none) :
    wp (Xv6.kfork p) (fun q t ↦ Holds (h.estate i) w.phys.mem t q ∧
      ∀ np ∈ q, Forked w.phys.mem t.mem p np) w.phys := by
  have hji : j ≠ i := by
    rintro rfl
    cases hi.symm.trans hp
  obtain ⟨hapart, htrapframe⟩ := h.others hji hp
  have hold := h.holds i
  rw [hi] at hold
  exact (holds_none.1 hold).kfork hapart htrapframe (h.table j p hp).2

/-- One call. -/
theorem body (h : Owned S M w) (c : MemCall N) : wp (c.body w.proc)
    (fun q t ↦ Holds (h.estate c.slot) w.phys.mem t q) w.phys := by
  have hold := h.holds c.slot
  cases hp : w.proc c.slot with
  | some p =>
    rw [hp] at hold
    simp only [MemCall.body, hp]
    exact hold.ofProcess c
  | none =>
    rw [hp] at hold
    cases c with
    | alloc i =>
      simp only [MemCall.body, hp]
      exact (holds_none.1 hold).allocproc.mono fun _ _ ht ↦ ht.1
    | fork parent i =>
      simp only [MemCall.body, hp]
      cases hparent : w.proc parent with
      | none => exact wp_pure.2 hold
      | some p =>
        exact (h.fork hparent hp).mono fun _ _ ht ↦ ht.1
    | sbrk | fault | copyout | copyin | free =>
      simp only [MemCall.body, hp]
      exact wp_pure.2 hold

theorem exec (h : Owned S M w) (c : MemCall N) :
    wp c.exec (fun _ w' ↦ Owned S M w' ∧ ∀ j ≠ c.slot, w'.proc j = w.proc j ∧
      ∀ p, w.proc j = some p →
        mapped w'.phys.mem p.pagetable = mapped w.phys.mem p.pagetable ∧
        w'.phys.mem p.trapframe = w.phys.mem p.trapframe) w := by
  obtain ⟨q, t, hrun, hq⟩ := h.body c
  refine ⟨(), _, by rw [MemCall.exec, hrun]; rfl, h.close hq, fun j hj ↦ ?_⟩
  exact ⟨update_of_ne hj _ _, fun p hp ↦ (h.keeps hq hj hp).2⟩

/-- Any calls. -/
theorem run (h : Owned S M w) (calls : List (MemCall N)) :
    wp (forM calls MemCall.exec) (fun _ w' ↦ Owned S M w') w :=
  wp_forM (I := fun _ w ↦ Owned S M w) (fun c _ _ h ↦ (h.exec c).mono fun _ _ ht ↦ ht.1) h

end Owned

omit [Image] in
theorem sum_own_eq_zero (m : Memory) (h : ∀ i, w.proc i = none) (pg : ℕ) :
    ∑ i, own m (w.proc i) pg = 0 :=
  sum_eq_zero fun i _ ↦ by rw [h i, own, elim_none]

section

variable (hnodup : s.freelist.Nodup) (hpages : ∀ pg ∈ s.freelist, IsPage pg)
include hnodup hpages

/-- Before there is a process, all pages are free. -/
theorem owned_boot : ∃ S : Estate, (∀ pg, S.count pg = s.freelist.count pg) ∧
    Owned S s.mem (⟨s, fun _ ↦ none⟩ : Procs N) := by
  refine ⟨⟨fun pg ↦ s.freelist.count pg, List.nodup_iff_count_le_one.1 hnodup,
    fun pg hpg ↦ hpages pg (List.count_pos_iff.1 (Nat.pos_of_ne_zero hpg))⟩, fun _ ↦ rfl,
    fun pg ↦ ?_, nofun, fun _ _ ↦ rfl⟩
  rw [sum_own_eq_zero _ (fun _ ↦ rfl), zero_add]

/-- **Every page has one owner.** After any calls, of which any allocation may have failed, and none
of which has panicked, every page that was free at the start is free, or it is one process's, in one
place; the address spaces have their shape; no other page has been written; and when no process is
left, all pages are free again. -/
theorem memory_owned (calls : List (MemCall N)) :
    wp (forM calls MemCall.exec) (fun _ w ↦
      (∀ pg, ∑ i, own w.phys.mem (w.proc i) pg + w.phys.freelist.count pg = s.freelist.count pg) ∧
      (∀ i p, w.proc i = some p → WellShaped w.phys.mem p.pagetable p.sz) ∧
      (∀ pg ∉ s.freelist, w.phys.mem pg = s.mem pg) ∧
      ((∀ i, w.proc i = none) → w.phys.freelist.Perm s.freelist)) ⟨s, fun _ ↦ none⟩ := by
  obtain ⟨S, hS, h⟩ := owned_boot (N := N) hnodup hpages
  refine (h.run calls).mono fun _ w hw ↦ ⟨fun pg ↦ hS pg ▸ hw.stock pg,
    fun i p hp ↦ (hw.table i p hp).2,
    fun pg hpg ↦ hw.frame pg ((hS pg).trans (List.count_eq_zero.2 hpg)), fun hnone ↦ ?_⟩
  refine List.perm_iff_count.2 fun pg ↦ ?_
  rw [← hS, ← hw.stock pg, sum_own_eq_zero _ hnone, zero_add]

/-- **Processes are isolated.** After any calls, a call of one process leaves the memory of every
other one as it is: its page table, what it has mapped and the bytes in it, and its trapframe. -/
theorem memory_isolated (calls : List (MemCall N)) (c : MemCall N) :
    wp (forM calls MemCall.exec) (fun _ w ↦ wp c.exec (fun _ w' ↦ ∀ i ≠ c.slot,
      w'.proc i = w.proc i ∧ ∀ p, w.proc i = some p →
        mapped w'.phys.mem p.pagetable = mapped w.phys.mem p.pagetable ∧
        w'.phys.mem p.trapframe = w.phys.mem p.trapframe) w) ⟨s, fun _ ↦ none⟩ := by
  obtain ⟨S, -, h⟩ := owned_boot (N := N) hnodup hpages
  exact (h.run calls).mono fun _ w hw ↦ (hw.exec c).mono fun _ _ hw' ↦ hw'.2

/-- **A child is a copy of its parent.** After any calls, `kfork` of a process with an empty slot
for the child gives the child the size of the parent, its pages with their permissions and bytes,
and its registers, but for `a0`; or it fails. -/
theorem memory_forked (calls : List (MemCall N)) (parent i : Fin N) :
    wp (forM calls MemCall.exec) (fun _ w ↦ ∀ p, w.proc parent = some p → w.proc i = none →
      wp (MemCall.fork parent i).exec (fun _ w' ↦ ∀ np, w'.proc i = some np →
        Forked w.phys.mem w'.phys.mem p np) w) ⟨s, fun _ ↦ none⟩ := by
  obtain ⟨S, -, h⟩ := owned_boot (N := N) hnodup hpages
  refine (h.run calls).mono fun _ w hw p hp hi ↦ ?_
  obtain ⟨q, t, hrun, -, hq⟩ := hw.fork hp hi
  refine ⟨(), ⟨t, update w.proc i q⟩, ?_, fun np hnp ↦ hq np ?_⟩
  · simp only [MemCall.exec, MemCall.body, MemCall.slot, hi, hp, Option.elim_some, hrun]
    rfl
  · exact (update_self i q w.proc).symm.trans hnp

end

section

omit [Image]

/-- A process on a machine with ten pages grows, is written to, and finds no memory for a child. -/
def tenFreeCalls : List (MemCall 2) :=
  [.alloc ⟨0, Nat.two_pos⟩, .sbrk ⟨0, Nat.two_pos⟩ 4096 2,
    .copyout ⟨0, Nat.two_pos⟩ 8 (fun _ ↦ 7) 16, .fork ⟨0, Nat.two_pos⟩ (Fin.last 1)]

theorem memory_owned_tenFree : ∃ w : Procs 2,
    (forM tenFreeCalls (@MemCall.exec smallImage 2)) ⟨tenFree, fun _ ↦ none⟩ = .ok ((), w) ∧
    ∀ pg, ∑ i, own w.phys.mem (w.proc i) pg + w.phys.freelist.count pg =
      tenFree.freelist.count pg := by
  let _ : Image := smallImage
  obtain ⟨_, w, hrun, hw, -⟩ := memory_owned (by decide) isPage_of_mem_tenFree tenFreeCalls
  exact ⟨w, hrun, hw⟩

/-- One of two processes ends. -/
theorem memory_isolated_tenFree : ∃ w : Procs 2,
    forM [.alloc ⟨0, Nat.two_pos⟩, .alloc (Fin.last 1)] (@MemCall.exec smallImage 2)
      ⟨tenFree, fun _ ↦ none⟩ = .ok ((), w) ∧ (∀ i, (w.proc i).isSome = true) ∧
    wp (@MemCall.exec smallImage 2 (.free (Fin.last 1)))
      (fun _ w' ↦ w'.proc ⟨0, Nat.two_pos⟩ = w.proc ⟨0, Nat.two_pos⟩) w := by
  let _ : Image := smallImage
  have hruns : ((forM [.alloc ⟨0, Nat.two_pos⟩, .alloc (Fin.last 1)] (@MemCall.exec smallImage 2)
      ⟨tenFree, fun _ ↦ none⟩).toOption.any fun r ↦ ∀ i, (r.2.proc i).isSome) = true := by
    decide +kernel
  obtain ⟨_, w, hrun, hw⟩ := memory_isolated (by decide) isPage_of_mem_tenFree
    [.alloc ⟨0, Nat.two_pos⟩, .alloc (Fin.last 1)] (.free (Fin.last 1))
  rw [hrun] at hruns
  exact ⟨w, hrun, of_decide_eq_true hruns,
    hw.mono fun _ _ hw' ↦ (hw' ⟨0, Nat.two_pos⟩ (by decide)).1⟩

/-- A machine with twenty free pages. -/
def twentyFree : Phys := { tenFree with
  freelist := (List.range 20).map fun k ↦ 0x80002000 + pgsize * k }

/-- A process that has a page of memory forks. -/
theorem memory_forked_twentyFree : ∃ (w w' : Procs 2) (p np : UserMem),
    forM [.alloc ⟨0, Nat.two_pos⟩, .sbrk ⟨0, Nat.two_pos⟩ 4096 1] (@MemCall.exec smallImage 2)
      ⟨twentyFree, fun _ ↦ none⟩ = .ok ((), w) ∧ w.proc ⟨0, Nat.two_pos⟩ = some p ∧
    (mapped w.phys.mem p.pagetable 0).isSome = true ∧ w'.proc (Fin.last 1) = some np ∧
    @MemCall.exec smallImage 2 (.fork ⟨0, Nat.two_pos⟩ (Fin.last 1)) w = .ok ((), w') ∧
    Forked w.phys.mem w'.phys.mem p np := by
  let _ : Image := smallImage
  have hruns : ((forM [.alloc ⟨0, Nat.two_pos⟩, .sbrk ⟨0, Nat.two_pos⟩ 4096 1]
      (@MemCall.exec smallImage 2) ⟨twentyFree, fun _ ↦ none⟩).toOption.any fun r ↦
        ((r.2.proc ⟨0, Nat.two_pos⟩).any fun p ↦ (mapped r.2.phys.mem p.pagetable 0).isSome) &&
        (r.2.proc (Fin.last 1)).isNone && ((MemCall.fork ⟨0, Nat.two_pos⟩ (Fin.last 1)).exec
          r.2).toOption.any fun r' ↦ (r'.2.proc (Fin.last 1)).isSome) = true := by decide +kernel
  obtain ⟨_, w, hrun, hw⟩ := memory_forked (s := twentyFree) (by decide) (by decide)
    [.alloc ⟨0, Nat.two_pos⟩, .sbrk ⟨0, Nat.two_pos⟩ 4096 1] ⟨0, Nat.two_pos⟩ (Fin.last 1)
  rw [hrun] at hruns
  simp only [Except.toOption, Option.any_some, Bool.and_eq_true, Option.any_eq_true,
    Option.isNone_iff_eq_none] at hruns
  obtain ⟨⟨⟨p, hp, hpage⟩, hnone⟩, hfork⟩ := hruns
  obtain ⟨_, w', hrun', hw'⟩ := hw p hp hnone
  rw [hrun'] at hfork
  obtain ⟨_, ⟨⟩, hfork⟩ := hfork
  obtain ⟨np, hnp⟩ := Option.isSome_iff_exists.1 hfork
  exact ⟨w, w', p, np, hrun, hp, hpage, hnp, hrun', hw' np hnp⟩

end

end Procs

end Xv6

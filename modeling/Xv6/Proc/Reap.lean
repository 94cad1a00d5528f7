import Xv6.Proc.Lifecycle

/-!
# Waiting for children

Whoever becomes a zombie, or hands one to the first process, wakes up the parent before it releases
`wait_lock`; and a parent that goes to sleep in `kwait` has seen all its children under this lock.
So a parent asleep in `kwait` has no zombie to wait for (`Kernel.Watched`), and a zombie stays one
until its parent frees it in `kwait`, when no CPU executes on its stack any more
(`lifecycle_sound`).
-/

namespace Xv6

open Option Finset

variable {N C : ℕ} {κ Λ : Type}

namespace Pc

/-- `kexit` has begun to wake up the parent. -/
def announces : Pc N κ → Bool
  | wakeup (.exit _ _) _ | wakeupVisit (.exit _ _) _ _ | exitLock _ | exitZombie _ => true
  | _ => false

/-- The slots in which `kwait` can still find a zombie before it sleeps. -/
def scans : Pc N κ → Option (List (Fin N))
  | waitScan _ js _ => some js
  | waitVisit _ j js => some (j :: js)
  | waitKilled _ | waitCheck _ | sleepLock (.child _) | sleepUnlock (.child _) => some []
  | _ => none

/-- The child that `kwait` looks at. -/
def visits : Pc N κ → Option (Fin N)
  | waitVisit _ j _ => some j
  | _ => none

end Pc

namespace Kernel

variable {P : Setup N κ Λ} {s t : Kernel N C κ Λ} {c : Fin C} {p : Fin N}

/-- The process is a zombie, or will be one before `wait_lock` is released. -/
def Doomed (s : Kernel N C κ Λ) (j : Fin N) : Prop :=
  (s.slot j).state = .zombie ∨ (s.thread (.inl j)).pc.announces = true

/-- No zombie waits for a parent that sleeps. -/
structure Watched (P : Setup N κ Λ) (s : Kernel N C κ Λ) : Prop where
  scans : ∀ p js, (s.thread (.inl p)).pc.scans = some js →
    ∀ j, (s.slot j).parent = some p → (s.slot j).state = .zombie → j ∈ js
  visits : ∀ p j, (s.thread (.inl p)).pc.visits = some j → (s.slot j).parent = some p
  dozing : ∀ p addr, s.Dozes p (.child addr) → ∀ j, (s.slot j).parent = some p → s.Doomed j →
    ∃ d, (s.top d).Wakes P p (.proc p) .wait

theorem watched_boot (cond : κ → Bool) : Watched P (boot P C cond) := by
  have hpc : ∀ p, (boot P C cond).thread (.inl p) = ⟨.yieldUnlock, none⟩ ∨
      (boot P C cond).thread (.inl p) = ⟨.exited, none⟩ := boot_thread cond
  refine ⟨fun p js h ↦ ?_, fun p j h ↦ ?_, fun p addr h ↦ ?_⟩
  · rcases hpc p with hp | hp <;> rw [hp] at h <;> cases h
  · rcases hpc p with hp | hp <;> rw [hp] at h <;> cases h
  · rcases hpc p with hp | hp <;> rcases h with h | ⟨-, h⟩ <;> rw [hp] at h <;> cases h

section Act

variable {me : Fin N ⊕ Fin C} {ok : Bool} {pc : Pc N κ} {a : Action N κ Λ}

/-- How the search of `kwait` goes on. -/
theorem scans_of_act {js : List (Fin N)} (h : s.act P me ok pc = some a)
    (hnext : a.next.scans = some js) :
    a.effect = .none ∧ (js = List.finRange N ∨ pc.scans = some js ∨
      ∃ i, pc.scans = some (i :: js) ∧
        ((s.slot i).parent.map .inl ≠ some me ∨ (s.slot i).state ≠ .zombie)) := by
  revert h hnext
  fun_cases s.act P me ok pc <;> intro h hnext <;> cases h
  all_goals first
    | exact ⟨rfl, .inr (.inl hnext)⟩
    | (cases hnext; exact ⟨rfl, .inl rfl⟩)
    | (cases hnext; exact ⟨rfl, .inr (.inr ⟨_, rfl, .inl ‹_›⟩)⟩)
    | (cases hnext; exact ⟨rfl, .inr (.inr ⟨_, rfl, .inr ‹_›⟩)⟩)
    | (cases ‹Reason κ› <;>
        first | exact ⟨rfl, .inr (.inl hnext)⟩ | (cases hnext; exact ⟨rfl, .inl rfl⟩) | cases hnext)
    | (cases ‹Waker N κ› <;> cases hnext)
    | cases hnext

theorem visits_of_act {j : Fin N} (h : s.act P me ok pc = some a) (hnext : a.next.visits = some j) :
    a.effect = .none ∧ (s.slot j).parent.map .inl = some me := by
  revert h hnext
  fun_cases s.act P me ok pc <;> intro h hnext <;> cases h
  all_goals first
    | (cases hnext; exact ⟨rfl, ‹_›⟩)
    | (cases ‹Reason κ› <;> cases hnext)
    | (cases ‹Waker N κ› <;> cases hnext)
    | cases hnext

theorem announces_of_act {j : Fin N} (h : s.act P me ok pc = some a) (hme : me = .inl j)
    (hnext : a.next.announces = true) :
    pc.announces = true ∨ a.effect = .none ∧ a.swtch = .stay ∧
      ∃ status, pc = .exitReparent status [] ∧
        a.next = .wakeup (.exit status (s.slot j).parent) (others me) := by
  revert h hme hnext
  fun_cases s.act P me ok pc <;> intro h hme hnext <;> cases h
  all_goals first
    | exact .inl hnext
    | (cases hme; exact .inr ⟨rfl, rfl, _, rfl, rfl⟩)
    | (cases ‹Waker N κ› <;> exact .inl hnext)
    | (cases ‹Reason κ› <;> cases hnext)
    | cases hnext

end Act

section Frozen

variable [DecidableEq Λ] {ok : Bool} {a : Action N κ Λ} (hs : Disciplined P s)

/-- The effects that need `wait_lock`. -/
def Effect.needsWait : Effect N κ → Bool
  | .adopt _ _ | .die _ _ | .reap _ _ _ => true
  | _ => false

theorem wait_of_effect (hact : s.Acts P c ok a)
    (h : Effect.needsWait a.effect = true) : .wait ∈ (s.top c).holds P (s.current c) := by
  have horigin := origin_of_act hact
  generalize a.effect = e at h horigin
  cases e with
  | adopt j q =>
    rcases horigin with ⟨-, htop⟩ | ⟨-, -, status, pps, htop⟩
    · rw [htop]
      exact mem_singleton_self _
    · rw [htop]
      exact mem_singleton_self _
  | die j status =>
    obtain ⟨hcur, htop⟩ := horigin
    rw [htop, hcur]
    exact mem_insert_of_mem (mem_singleton_self _)
  | reap q j addr =>
    obtain ⟨-, -, js, htop⟩ := horigin
    rw [htop]
    exact mem_insert_of_mem (mem_singleton_self _)
  | _ => cases h

include hs

/-- While a process holds `wait_lock`, nobody else executes with it. -/
theorem current_of_wait
    (hp : .wait ∈ (s.thread (.inl p)).pc.holds P (.inl p : Fin N ⊕ Fin C))
    (hpc : (s.thread (.inl p)).pc.isParked = false)
    (hc : .wait ∈ (s.top c).holds P (s.current c)) :
    s.current c = .inl p ∧ (s.thread (.inl p)).intr = none := by
  obtain ⟨hintr, d, hon, hlock⟩ := hs.lock_of_base hp hpc
  rw [← hs.lock_iff, hlock, some_inj] at hc
  subst hc
  exact ⟨current_of_on hon, hintr⟩

/-- While a process holds `wait_lock`, nobody else becomes a zombie or gets a new parent. -/
theorem frozen [DecidableEq κ] (hact : s.Acts P c ok a)
    (hp : .wait ∈ (s.thread (.inl p)).pc.holds P (.inl p : Fin N ⊕ Fin C))
    (hpc : (s.thread (.inl p)).pc.isParked = false)
    (hne : s.current c = .inl p → (s.thread (.inl p)).intr ≠ none) :
    Effect.needsWait a.effect = false := by
  by_contra h
  rw [Bool.not_eq_false] at h
  obtain ⟨hcur, hintr⟩ := current_of_wait hs hp hpc (wait_of_effect hact h)
  exact hne hcur hintr

omit hs in
theorem zombie_perform [DecidableEq κ] {j : Fin N}
    (h : ((s.perform c a).slot j).state = .zombie) :
    (s.slot j).state = .zombie ∨ ∃ status, a.effect = .die j status := by
  have hch : SlotChange s j a.effect ((s.perform c a).slot j) := slotChange s a.effect j
  generalize (s.perform c a).slot j = sl at h hch
  generalize a.effect = e at hch
  cases hch with
  | keep hstate hdata =>
    rcases hstate with hst | ⟨-, hst⟩
    · exact .inl (hst.symm.trans h)
    · cases hst.symm.trans h
  | sleep ch | yield | alloc | free | reap q addr | start | run => cases h
  | adopt q => exact .inl h
  | die status => exact .inr ⟨status, rfl⟩

end Frozen

theorem holds_of_scans [DecidableEq Λ] {pc : Pc N κ} {js : List (Fin N)} (h : pc.scans = some js) :
    .wait ∈ pc.holds P (.inl p : Fin N ⊕ Fin C) ∧ pc.isParked = false := by
  cases pc with
  | waitScan addr js havekids | waitKilled addr => exact ⟨mem_singleton_self _, rfl⟩
  | waitVisit addr j js | waitCheck addr =>
    exact ⟨mem_insert_of_mem (mem_singleton_self _), rfl⟩
  | sleepLock w =>
    cases w with
    | child addr => exact ⟨mem_singleton_self _, rfl⟩
    | cond k => cases h
  | sleepUnlock w =>
    cases w with
    | child addr => exact ⟨mem_insert_of_mem (mem_singleton_self _), rfl⟩
    | cond k => cases h
  | _ => cases h

theorem holds_of_announces [DecidableEq Λ] {pc : Pc N κ} (h : pc.announces = true) :
    .wait ∈ pc.holds P (.inl p : Fin N ⊕ Fin C) ∧ pc.isParked = false := by
  cases pc with
  | exitLock status => exact ⟨mem_singleton_self _, rfl⟩
  | exitZombie status => exact ⟨mem_insert_of_mem (mem_singleton_self _), rfl⟩
  | wakeup y js =>
    cases y with
    | exit status parent => exact ⟨mem_singleton_self _, rfl⟩
    | raise k | reparent status pps => cases h
  | wakeupVisit y j js =>
    cases y with
    | exit status parent => exact ⟨mem_insert_of_mem (mem_singleton_self _), rfl⟩
    | raise k | reparent status pps => cases h
  | _ => cases h

namespace Watched

variable [DecidableEq κ] [DecidableEq Λ] {a : Action N κ Λ} {ok : Bool} (hw : Watched P s)
  (hs : Disciplined P s)

include hw hs

theorem scans_perform (hact : s.Acts P c ok a) (p : Fin N)
    (js : List (Fin N)) (h : ((s.perform c a).thread (.inl p)).pc.scans = some js) (j : Fin N)
    (hj : ((s.perform c a).slot j).parent = some p)
    (hzombie : ((s.perform c a).slot j).state = .zombie) : j ∈ js := by
  -- Without `adopt` and `die` there are no new zombie children.
  have hold : Effect.needsWait a.effect = false →
      (s.slot j).parent = some p ∧ (s.slot j).state = .zombie := by
    intro hno
    constructor
    · refine (Family.parent_perform hj).resolve_right fun heff ↦ ?_
      rw [heff] at hno
      cases hno
    · refine (zombie_perform hzombie).resolve_right ?_
      rintro ⟨status, heff⟩
      rw [heff] at hno
      cases hno
  rcases Disciplined.pc_perform s c a p with ⟨hpc, hne⟩ | ⟨-, -, hth⟩ | ⟨hcur, hth, hnew⟩
  · rw [hpc] at h
    obtain ⟨hp, hpark⟩ := holds_of_scans (P := P) (C := C) (p := p) h
    obtain ⟨hparent, hstate⟩ := hold (frozen hs hact hp hpark hne)
    exact hw.scans p js h j hparent hstate
  · rw [hth] at h
    cases h
  · rw [hnew] at h
    obtain ⟨heff, hscan⟩ := scans_of_act hact h
    obtain ⟨hparent, hstate⟩ := hold (by rw [heff]; rfl)
    rcases hscan with rfl | hpc | ⟨i, hpc, hi⟩
    · exact List.mem_finRange j
    · exact hw.scans p js (by rw [hth]; exact hpc) j hparent hstate
    · have hmem := hw.scans p _ (by rw [hth]; exact hpc) j hparent hstate
      refine (List.mem_cons.1 hmem).resolve_left ?_
      rintro rfl
      rw [hparent, hcur] at hi
      exact hi.elim (fun h ↦ h rfl) fun h ↦ h hstate

theorem visits_perform (hact : s.Acts P c ok a) (p j : Fin N)
    (h : ((s.perform c a).thread (.inl p)).pc.visits = some j) :
    ((s.perform c a).slot j).parent = some p := by
  rcases Disciplined.pc_perform s c a p with ⟨hpc, hne⟩ | ⟨-, -, hth⟩ | ⟨hcur, hth, hnew⟩
  · rw [hpc] at h
    have hparent := hw.visits p j h
    obtain ⟨addr, js, hvisit⟩ : ∃ addr js, (s.thread (.inl p)).pc = .waitVisit addr j js := by
      generalize (s.thread (.inl p)).pc = pc at h
      cases pc with
      | waitVisit addr i js =>
        cases h
        exact ⟨addr, js, rfl⟩
      | _ => cases h
    obtain ⟨hp, hpark⟩ := holds_of_scans (P := P) (C := C) (p := p)
      (show (s.thread (.inl p)).pc.scans = some (j :: js) by rw [hvisit]; rfl)
    have hno := frozen hs hact hp hpark hne
    have horigin := origin_of_act hact
    have hch : SlotChange s j a.effect ((s.perform c a).slot j) := slotChange s a.effect j
    generalize (s.perform c a).slot j = sl at hch
    generalize a.effect = e at hno horigin hch
    cases hch with
    | keep hstate hdata => exact hdata.1.trans hparent
    | sleep ch | yield | alloc | start | run => exact hparent
    | free =>
      -- The slot would be locked by `kfork`.
      have htop : s.top c = .forkCopy j := horigin
      have hlock : s.lock (.proc j) = some c := by
        rw [hs.lock_iff, htop]
        exact mem_singleton_self _
      obtain ⟨hintr, d, hon, hlock'⟩ := hs.lock_of_base (l := .proc j)
        (by rw [hvisit]; exact mem_insert_self _ _) hpark
      rw [hlock, some_inj] at hlock'
      subst hlock'
      exact absurd hintr (hne (current_of_on hon))
    | reap q addr | adopt q | die status => cases hno
  · rw [hth] at h
    cases h
  · rw [hnew] at h
    obtain ⟨heff, hparent⟩ := visits_of_act hact h
    rw [show (s.perform c a).slot j = s.slot j from slotsAfter_of_ne (by rw [heff]; nofun)]
    rw [hcur] at hparent
    obtain ⟨q, hq, hqp⟩ := map_eq_some_iff.1 hparent
    rw [hq, Sum.inl.inj hqp]

omit hw in
/-- Who is announced after a step was so before, or its `wakeup` of the parent begins. -/
theorem doomed_perform (hact : s.Acts P c ok a) {j : Fin N} (h : (s.perform c a).Doomed j) :
    s.Doomed j ∨ a.effect = .none ∧ a.swtch = .stay ∧ ∃ status,
      s.top c = .exitReparent status [] ∧
        a.next = .wakeup (.exit status (s.slot j).parent) (others (s.current c)) := by
  rcases h with hzombie | hpc
  · rcases zombie_perform hzombie with hold | ⟨status, heff⟩
    · exact .inl (.inl hold)
    · -- `ZOMBIE` is set by the process itself, at the end of `kexit`.
      have horigin := origin_of_act hact
      rw [heff] at horigin
      obtain ⟨hcur, htop⟩ := horigin
      have hth := hs.thread_eq htop (by rw [hcur]; rfl)
      rw [hcur] at hth
      exact .inl (.inr (by rw [hth]; rfl))
  · rcases Disciplined.pc_perform s c a j with ⟨hsame, -⟩ | ⟨-, -, hth⟩ | ⟨hcur, hth, hnew⟩
    · exact .inl (.inr (hsame ▸ hpc))
    · rw [hth] at hpc
      cases hpc
    · rw [hnew] at hpc
      rcases announces_of_act hact hcur hpc with hold | ⟨heff, hstay, hnext⟩
      · exact .inl (.inr (by rw [hth]; exact hold))
      · exact .inr ⟨heff, hstay, hnext⟩

theorem dozing_perform (hact : s.Acts P c ok a) (p : Fin N)
    (addr : BitVec 64) (h : (s.perform c a).Dozes p (.child addr)) (j : Fin N)
    (hj : ((s.perform c a).slot j).parent = some p) (hdoom : (s.perform c a).Doomed j) :
    ∃ d, ((s.perform c a).top d).Wakes P p (.proc p) .wait := by
  rcases hs.dozes_perform hact h with ⟨hold, hvisit⟩ | ⟨hme, hth⟩
  · rcases Family.parent_perform hj with hparent | heff
    · rcases doomed_perform hs hact hdoom with hdoom' | ⟨-, hstay, status, htop, hnext⟩
      · obtain ⟨d, hwakes⟩ := hw.dozing p addr hold j hparent hdoom'
        rcases hs.wakes_perform hact hwakes with hd | ⟨y, js, htop, hchan⟩
        · exact ⟨d, hd⟩
        · exact absurd hchan (hvisit y js htop)
      · -- The child begins to wake up its parent.
        refine ⟨c, hs.wakes_of_next hold (by rw [htop]; nofun) hstay hnext ?_ rfl⟩
        rw [hparent]
        rfl
    · have horigin := origin_of_act hact
      rw [heff] at horigin
      rcases horigin with ⟨hcur, htop⟩ | ⟨rfl, hparent, status, pps, htop⟩
      · have hswtch := hs.top_of_dozes hold hcur
        rw [htop] at hswtch
        cases hswtch
      · -- An orphan is handed to the first process, which is woken up for it.
        rw [Acts, htop, act, if_pos hparent] at hact
        cases hact
        exact ⟨c, hs.wakes_of_next hold (by rw [htop]; rintro ⟨⟩) rfl rfl rfl rfl⟩
  · -- The parent has just released `wait_lock`: there was no zombie, and nobody is about to be one.
    exfalso
    have htop : s.top c = .sleepUnlock (.child addr) := by
      rw [top, hme, hth]
      rfl
    have hwait : .wait ∈ (s.top c).holds P (s.current c) := by
      rw [htop, hme]
      exact mem_insert_of_mem (mem_singleton_self _)
    have heff : a.effect = .none := by
      rw [Acts, htop, hme, act] at hact
      cases hact
      rfl
    have hparent : (s.slot j).parent = some p := by
      refine (Family.parent_perform hj).resolve_right fun hadopt ↦ ?_
      rw [heff] at hadopt
      cases hadopt
    rcases doomed_perform hs hact hdoom with (hzombie | hpc) | ⟨-, -, status, htop', -⟩
    · cases hw.scans p [] (by rw [hth]; rfl) j hparent hzombie
    · obtain ⟨hlock, hpark⟩ := holds_of_announces (P := P) (C := C) (p := j) hpc
      obtain ⟨hcur, -⟩ := current_of_wait hs hlock hpark hwait
      rw [hme] at hcur
      cases hcur
      rw [hth] at hpc
      cases hpc
    · rw [htop] at htop'
      cases htop'

theorem perform (hact : s.Acts P c ok a) : Watched P (s.perform c a) where
  scans := hw.scans_perform hs hact
  visits := hw.visits_perform hs hact
  dozing := hw.dozing_perform hs hact

omit [DecidableEq κ] in
theorem divert {th : Thread N κ} (hold : (s.top c).holds P (s.current c) = ∅)
    (hnew : th.top.holds P (s.current c) = ∅)
    (hpc : th.pc = (s.thread (s.current c)).pc ∨
      th.pc.scans = none ∧ th.pc.visits = none ∧ th.pc.announces = false) :
    Watched P (s.divert c th) := by
  have hcase := fun p ↦ divert_pc th (c := c) (R := fun _ pc ↦
    pc.scans = none ∧ pc.visits = none ∧ pc.announces = false) hpc (.inl p)
  refine ⟨fun p js h ↦ ?_, fun p j h ↦ ?_, fun p addr h j hj hdoom ↦ ?_⟩
  · rcases hcase p with hp | ⟨hp, -⟩
    · exact hw.scans p js (hp ▸ h)
    · rw [hp] at h
      cases h
  · rcases hcase p with hp | ⟨-, hp, -⟩
    · exact hw.visits p j (hp ▸ h)
    · rw [hp] at h
      cases h
  · obtain ⟨d, hd⟩ := hw.dozing p addr (Disciplined.dozes_divert hnew h) j hj <| by
      refine hdoom.imp_right fun hann ↦ ?_
      rcases hcase j with hp | ⟨-, -, hp⟩
      · exact hp ▸ hann
      · rw [hp] at hann
        cases hann
    exact ⟨d, by rwa [hs.top_divert_of_wakes hold hd]⟩

theorem step {e : KernelEvent C κ} (h : s.step P e = some t) : Watched P t := by
  cases step_cases h with
  | exec hact hcan => exact hw.perform hs hact
  | call f hon huser =>
    refine hw.divert hs (holds_of_user huser) ?_ (.inr ?_)
    · cases f <;> rfl
    · cases f <;> exact ⟨rfl, rfl, rfl⟩
  | interrupt c hnoff | preempt c hnoff =>
    exact hw.divert hs (hs.holds_of_noff hnoff) rfl (.inl rfl)

end Watched

variable [DecidableEq κ] [DecidableEq Λ]

/-! ### The life of a process -/

/-- The process has been made a child in `kfork`. -/
def Published (s : Kernel N C κ Λ) (j : Fin N) : Prop :=
  (s.slot j).state ≠ .unused ∧ ((s.slot j).state = .used → (s.slot j).parent ≠ none)

/-- The process is `SLEEPING` inside `kwait`. -/
def SleepsInWait (s : Kernel N C κ Λ) (p : Fin N) : Prop :=
  (s.slot p).state = .sleeping ∧ ∃ addr, (s.thread (.inl p)).pc = .sleepTidy (.child addr)

/-- In `kwait`, `p` holds the lock of its zombie child `j`; if this event happens, the exit status
of `j` goes to `addr`. -/
def Collects (s : Kernel N C κ Λ) (e : KernelEvent C κ) (ok : Bool) (p j : Fin N)
    (addr : BitVec 64) : Prop :=
  ∃ c js, e = .exec c ok ∧ s.on c = some p ∧ s.top c = .waitVisit addr j js ∧
    (s.slot j).state = .zombie

/-- `kwait` frees `j` and returns its pid and exit status. -/
def Collected (s t : Kernel N C κ Λ) (p j : Fin N) (addr : BitVec 64) : Prop :=
  (s.slot j).parent = some p ∧ t.slot j = .free ∧ t.ret p = (s.slot j).pid ∧
    (addr ≠ 0 → t.copied p = some (addr, (s.slot j).xstate))

theorem exec_or_slot_eq {e : KernelEvent C κ} (h : s.step P e = some t) :
    (∃ c ok a, e = .exec c ok ∧ s.Acts P c ok a ∧ t = s.perform c a) ∨ t.slot = s.slot := by
  cases step_cases h with
  | exec hact hcan => exact .inl ⟨_, _, _, rfl, hact, rfl⟩
  | call | interrupt | preempt => exact .inr rfl

section Zombie

variable (hs : Disciplined P s) {a : Action N κ Λ} {ok : Bool} {j : Fin N}

include hs

omit [DecidableEq κ] in
/-- A zombie that still executes only goes to the scheduler. -/
theorem effect_of_zombie (hact : s.Acts P c ok a)
    (hj : (s.slot j).state = .zombie) (hcur : s.current c = .inl j) : a.effect = .none := by
  rcases hs.state_of_on (on_of_current hcur) with hr | ⟨-, hth⟩
  · cases hj.symm.trans hr
  · rw [Acts, top, hcur, hth] at hact
    cases hact
    rfl

/-- A zombie stays as it is until `kwait` frees it. -/
theorem zombie_cases (hact : s.Acts P c ok a) (hj : (s.slot j).state = .zombie) :
    (((s.perform c a).slot j).state = .zombie ∧
      ((s.perform c a).slot j).pid = (s.slot j).pid ∧
      ((s.perform c a).slot j).xstate = (s.slot j).xstate) ∨
      ∃ p addr, a.effect = .reap p j addr := by
  have hnone : s.current c = .inl j → a.effect = .none := effect_of_zombie hs hact hj
  have horigin := origin_of_act hact
  have hfork : (s.top c).forks ≠ some j := by
    intro hfork
    cases hj.symm.trans (hs.used_of_forks hfork).1
  have hch : SlotChange s j a.effect ((s.perform c a).slot j) := slotChange s a.effect j
  generalize (s.perform c a).slot j = sl at hch
  generalize a.effect = e at hnone horigin hch
  cases hch with
  | keep hstate hdata =>
    rcases hstate with hst | ⟨hst, -⟩
    · exact .inl ⟨hst.trans hj, hdata.2⟩
    · cases hj.symm.trans hst
  | sleep ch | yield => cases hnone horigin
  | die status => cases hnone horigin.1
  | alloc | run => cases hj.symm.trans horigin
  | free | start =>
    rw [show s.top c = _ from horigin] at hfork
    exact absurd rfl hfork
  | adopt q => exact .inl ⟨hj, rfl, rfl⟩
  | reap p addr => exact .inr ⟨p, addr, rfl⟩

/-- `freeproc` is applied to slots on whose stack nobody executes. -/
theorem off_of_unused (hact : s.Acts P c ok a)
    (hj : (s.slot j).state ≠ .unused) (ht : ((s.perform c a).slot j).state = .unused) :
    s.Off j := by
  have horigin := origin_of_act hact
  have hch : SlotChange s j a.effect ((s.perform c a).slot j) := slotChange s a.effect j
  generalize (s.perform c a).slot j = sl at hch ht
  generalize a.effect = e at horigin hch
  cases hch with
  | keep hstate hdata =>
    rcases hstate with hst | ⟨-, hst⟩
    · exact absurd (hst.symm.trans ht) hj
    · cases hst.symm.trans ht
  | sleep ch | yield | alloc | start | die status | run => cases ht
  | adopt q => exact absurd ht hj
  | free =>
    have htop : s.top c = .forkCopy j := horigin
    have hused := (hs.used_of_forks (j := j) (by rw [htop]; rfl)).1
    exact hs.off_of_state (by rw [hused]; nofun) (by rw [hused]; nofun)
  | reap p addr =>
    obtain ⟨-, hzombie, js, htop⟩ := horigin
    refine hs.zombie_off hzombie (c := c) ?_ (by rw [htop]; rfl)
    rw [hs.lock_iff, htop]
    exact mem_insert_self _ _

theorem collected_of_step (hw : Watched P s) {e : KernelEvent C κ} {addr : BitVec 64}
    (hcol : s.Collects e ok p j addr) (h : s.step P e = some t) (hok : addr = 0 ∨ ok = true) :
    Collected s t p j addr := by
  obtain ⟨c, js, rfl, hon, htop, hzombie⟩ := hcol
  obtain ⟨a, hact, -, -, rfl⟩ := exec_eq_some h
  have hth := hs.thread_eq htop (by rw [current_of_on hon]; rfl)
  rw [current_of_on hon] at hth hact
  have hparent : (s.slot j).parent = some p := hw.visits p j (by rw [hth]; rfl)
  rw [htop, act, if_pos hzombie, if_pos hok] at hact
  cases hact
  refine ⟨hparent, Function.update_self _ _ _, ?_, fun haddr ↦ ?_⟩
  · show s.retAfter c (some (s.slot j).pid) p = _
    rw [retAfter, hon]
    exact Function.update_self _ _ _
  · show s.copiedAfter (.reap p j addr) p = _
    rw [copiedAfter, if_neg haddr]
    exact Function.update_self _ _ _

omit hs in
theorem slot_eq_of_copy_fails {e : KernelEvent C κ} {addr : BitVec 64}
    (hcol : s.Collects e false p j addr) (h : s.step P e = some t) (haddr : addr ≠ 0) :
    t.slot = s.slot ∧ t.ret p = -1 := by
  obtain ⟨c, js, rfl, hon, htop, hzombie⟩ := hcol
  obtain ⟨a, hact, -, -, rfl⟩ := exec_eq_some h
  rw [current_of_on hon, htop, act, if_pos hzombie,
    if_neg (not_or.2 ⟨haddr, Bool.false_ne_true⟩)] at hact
  cases hact
  refine ⟨rfl, ?_⟩
  show s.retAfter c (some (-1)) p = _
  rw [retAfter, hon]
  exact Function.update_self _ _ _

end Zombie

/-- **The process lifecycle is sound**, on any number of CPUs and for every interleaving. Whenever
`wait_lock` is free, the parent of a published process is neither `UNUSED` nor `ZOMBIE`, and a
process `SLEEPING` inside `kwait` has no `ZOMBIE` child. At every step, a `ZOMBIE` stays as it is,
or `kwait` of its parent frees it and returns its pid and exit status; when copying out the status
fails, nothing is freed; and no slot is freed while a CPU executes on its kernel stack. -/
theorem lifecycle_sound {cond : κ → Bool} {es : List (KernelEvent C κ)}
    (h : runSteps (step P) (boot P C cond) es = some s) :
    (s.lock .wait = none →
      (∀ j, j ≠ P.initproc → s.Published j → ∃ q, (s.slot j).parent = some q ∧
        (s.slot q).state ≠ .unused ∧ (s.slot q).state ≠ .zombie) ∧
      ∀ p j, s.SleepsInWait p → (s.slot j).parent = some p → (s.slot j).state ≠ .zombie) ∧
    ∀ e t, s.step P e = some t →
      (∀ j, (s.slot j).state = .zombie →
        ((t.slot j).state = .zombie ∧ (t.slot j).pid = (s.slot j).pid ∧
          (t.slot j).xstate = (s.slot j).xstate) ∨
        ∃ ok p addr, s.Collects e ok p j addr ∧ Collected s t p j addr) ∧
      (∀ ok p j addr, s.Collects e ok p j addr → addr = 0 ∨ ok = true →
        Collected s t p j addr) ∧
      (∀ p j addr, s.Collects e false p j addr → addr ≠ 0 → t.slot = s.slot ∧ t.ret p = -1) ∧
      ∀ j, (s.slot j).state ≠ .unused → (t.slot j).state = .unused → s.Off j := by
  obtain ⟨hs, hf, hw⟩ : Disciplined P s ∧ Family P s ∧ Watched P s :=
    runSteps_invariant (I := fun s ↦ Disciplined P s ∧ Family P s ∧ Watched P s)
      ⟨disciplined_boot cond, family_boot cond, watched_boot cond⟩
      (fun _ _ _ hr hstep ↦ ⟨hr.1.step hstep, hr.2.1.step hr.1 hstep, hr.2.2.step hr.1 hstep⟩) h
  refine ⟨fun hfree ↦ ⟨fun j hj hpub ↦ ?_, fun p j hp hj hzombie ↦ ?_⟩, fun e t hstep ↦
    ⟨fun j hzombie ↦ ?_, fun ok p j addr hcol ↦ collected_of_step hs hw hcol hstep,
      fun p j addr hcol ↦ slot_eq_of_copy_fails hcol hstep, fun j hj ht ↦ ?_⟩⟩
  · have hparent : (s.slot j).parent ≠ none := by
      by_cases hused : (s.slot j).state = .used
      · exact hpub.2 hused
      · exact hf.has_parent j hj hpub.1 hused
    obtain ⟨q, hq⟩ := Option.ne_none_iff_exists'.1 hparent
    have halive := hf.parent_alive j q hq
    refine ⟨q, hq, ?_, ?_⟩ <;> intro hstate <;> rw [hstate] at halive <;> cases halive
  · obtain ⟨hsleep, addr, hpc⟩ := hp
    have hplace := hs.place p
    rw [hsleep] at hplace
    cases hplace with
    | sleeping w hoff hth hchan =>
      rw [hth] at hpc
      cases hpc
      obtain ⟨d, hd⟩ := hw.dozing p addr (.inr ⟨hsleep, hth⟩) j hj (.inl hzombie)
      cases hfree.symm.trans (hs.lock_of_wakes hd)
  · rcases exec_or_slot_eq hstep with ⟨c, ok, a, rfl, hact, rfl⟩ | hslot
    · rcases zombie_cases hs hact hzombie with hsame | ⟨p, addr, heff⟩
      · exact .inl hsame
      · have horigin := origin_of_act hact
        rw [heff] at horigin
        obtain ⟨hcur, -, js, htop⟩ := horigin
        have hcol : s.Collects (.exec c ok) ok p j addr :=
          ⟨c, js, rfl, on_of_current hcur, htop, hzombie⟩
        refine .inr ⟨ok, p, addr, hcol, collected_of_step hs hw hcol hstep ?_⟩
        by_contra hok
        rw [Acts, hcur, htop, act, if_pos hzombie, if_neg hok] at hact
        cases hact
        cases heff
    · rw [hslot]
      exact .inl ⟨hzombie, rfl, rfl⟩
  · rcases exec_or_slot_eq hstep with ⟨c, ok, a, rfl, hact, rfl⟩ | hslot
    · exact off_of_unused hs hact hj ht
    · rw [hslot] at ht
      exact absurd ht hj

/-- The first process forks. -/
def forked (c : Fin C) : List (KernelEvent C Unit) := instrs c 3 ++ [.call c .kfork] ++ instrs c 10

theorem lifecycle_sound_forked :
    ∃ s, runSteps (step (oneCond 0)) (boot (oneCond (0 : Fin 2)) 1 fun _ ↦ false) (forked 0) =
        some s ∧ s.lock .wait = none ∧ s.Published 1 ∧ ∃ q, (s.slot 1).parent = some q ∧
        (s.slot q).state ≠ .unused ∧ (s.slot q).state ≠ .zombie := by
  have hrun : ∃ s ∈ runSteps (step (oneCond 0)) (boot (oneCond (0 : Fin 2)) 1 fun _ ↦ false)
      (forked 0), s.lock .wait = none ∧ (s.slot 1).state = .runnable := by decide +kernel
  obtain ⟨s, hs, hfree, hstate⟩ := hrun
  have hpub : s.Published 1 := by
    rw [Published, hstate]
    exact ⟨nofun, nofun⟩
  exact ⟨s, hs, hfree, hpub, ((lifecycle_sound hs).1 hfree).1 1 (by decide) hpub⟩

end Kernel

end Xv6

import Xv6.Proc.Instr

/-!
# Who holds which spinlock

The instruction that a CPU executes next says which spinlocks the CPU holds, and the state of a
process says where it has stopped, if it is not on a CPU (`Kernel.Disciplined`). The two depend on
each other. A lock is handed on by `swtch` because the thread that the CPU leaves and the one that
it enters agree on `p->lock`, and they do because the state of the process, which nobody changes
without `p->lock`, tells where the process goes on.
-/

namespace Xv6

open Function Option Finset

variable {N C : ℕ} {κ Λ : Type}

namespace Thread

variable {th : Thread N κ}

theorem top_of_none (h : th.intr = none) : th.top = th.pc := by rw [top, h, getD_none]

theorem top_of_some {pc : Pc N κ} (h : th.intr = some pc) : th.top = pc := by
  rw [top, h, getD_some]

variable [DecidableEq κ]

theorem goto_of_none (h : th.intr = none) (pc : Pc N κ) : th.goto pc = ⟨pc, none⟩ := by
  rw [goto, h]

theorem goto_user_of_some (h : th.intr ≠ none) : th.goto .user = ⟨th.pc, none⟩ := by
  obtain ⟨q, hq⟩ := ne_none_iff_exists'.1 h
  rw [goto, hq, if_pos rfl]

theorem goto_of_some {pc : Pc N κ} (h : th.intr ≠ none) (hpc : pc ≠ .user) :
    th.goto pc = ⟨th.pc, some pc⟩ := by
  obtain ⟨q, hq⟩ := ne_none_iff_exists'.1 h
  rw [goto, hq, if_neg hpc]

/-- A thread goes on at the next instruction, or returns from its handler. -/
theorem goto_cases (th : Thread N κ) (pc : Pc N κ) :
    (th.intr = none ∧ th.goto pc = ⟨pc, none⟩) ∨
      (th.intr ≠ none ∧ pc = .user ∧ th.goto pc = ⟨th.pc, none⟩) ∨
      (th.intr ≠ none ∧ pc ≠ .user ∧ th.goto pc = ⟨th.pc, some pc⟩) := by
  by_cases h : th.intr = none
  · exact .inl ⟨h, goto_of_none h pc⟩
  · by_cases hpc : pc = .user
    · subst hpc
      exact .inr (.inl ⟨h, rfl, goto_user_of_some h⟩)
    · exact .inr (.inr ⟨h, hpc, goto_of_some h hpc⟩)

end Thread

namespace Kernel

variable {P : Setup N κ Λ} {s t : Kernel N C κ Λ} {c : Fin C} {p : Fin N}

/-- No CPU executes on the kernel stack of `p`. -/
def Off (s : Kernel N C κ Λ) (p : Fin N) : Prop := ∀ c, s.on c ≠ some p

/-- Where a process is, depending on its state. -/
inductive Place (P : Setup N κ Λ) (s : Kernel N C κ Λ) (p : Fin N) : ProcState → Prop
  | unused (hoff : s.Off p)
      (hth : s.thread (.inl p) = ⟨.yieldUnlock, none⟩ ∨ s.thread (.inl p) = ⟨.exited, none⟩) :
      Place P s p .unused
  | used (hoff : s.Off p) (hth : s.thread (.inl p) = ⟨.yieldUnlock, none⟩) : Place P s p .used
  | sleeping (w : Reason κ) (hoff : s.Off p) (hth : s.thread (.inl p) = ⟨.sleepTidy w, none⟩)
      (hchan : (s.slot p).chan = some (w.chan P p)) : Place P s p .sleeping
  | woken (w : Reason κ) (hoff : s.Off p) (hth : s.thread (.inl p) = ⟨.sleepTidy w, none⟩) :
      Place P s p .runnable
  | ready (hoff : s.Off p) (htop : (s.thread (.inl p)).top = .yieldUnlock)
      (hpc : (s.thread (.inl p)).pc.isExit = false) : Place P s p .runnable
  | running (c : Fin C) (hon : s.on c = some p) (hpc : (s.thread (.inl p)).pc.isExit = false) :
      Place P s p .running
  | dying (c : Fin C) (hon : s.on c = some p) (hth : s.thread (.inl p) = ⟨.exitSwtch, none⟩) :
      Place P s p .zombie
  | dead (hoff : s.Off p) (hth : s.thread (.inl p) = ⟨.exited, none⟩) : Place P s p .zombie

/-- The instruction that `c` executes next. -/
def top (s : Kernel N C κ Λ) (c : Fin C) : Pc N κ := (s.thread (s.current c)).top

/-- The next instruction of `c` does `a`. -/
abbrev Acts (P : Setup N κ Λ) (s : Kernel N C κ Λ) (c : Fin C) (ok : Bool)
    (a : Action N κ Λ) : Prop :=
  s.act P (s.current c) ok (s.top c) = some a

/-- **The lock discipline.** -/
structure Disciplined [DecidableEq Λ] (P : Setup N κ Λ) (s : Kernel N C κ Λ) : Prop where
  lock_iff : ∀ c l, s.lock l = some c ↔ l ∈ (s.top c).holds P (s.current c)
  noff_eq : ∀ c, s.noff c = ((s.top c).holds P (s.current c)).card
  buried : ∀ me, (s.thread me).intr ≠ none → (s.thread me).pc.holds P me = ∅
  base : ∀ me, (s.thread me).pc.isBase me = true
  handler : ∀ me, ∀ pc ∈ (s.thread me).intr, pc.isHandler me = true
  place : ∀ p, Place P s p (s.slot p).state
  on_inj : ∀ c d p, s.on c = some p → s.on d = some p → c = d
  back : ∀ c p, s.on c = some p → ∃ js, s.thread (.inr c) = ⟨.schedBack p js, none⟩
  forks_used : ∀ p np, (s.thread (.inl p)).pc.forks = some np → (s.slot np).state = .used
  forks_inj : ∀ p q np, (s.thread (.inl p)).pc.forks = some np →
    (s.thread (.inl q)).pc.forks = some np → p = q

theorem current_of_on (h : s.on c = some p) : s.current c = .inl p := by
  rw [current, h, elim_some]

theorem current_of_idle (h : s.on c = none) : s.current c = .inr c := by
  rw [current, h, elim_none]

theorem top_of_on (h : s.on c = some p) : s.top c = (s.thread (.inl p)).top := by
  rw [top, current_of_on h]

theorem top_of_idle (h : s.on c = none) : s.top c = (s.thread (.inr c)).top := by
  rw [top, current_of_idle h]

theorem on_of_current (h : s.current c = .inl p) : s.on c = some p := by
  cases hon : s.on c with
  | none => rw [current_of_idle hon] at h; cases h
  | some q => rw [current_of_on hon] at h; cases h; rfl

theorem idle_of_current {d : Fin C} (h : s.current c = .inr d) : s.on c = none ∧ d = c := by
  cases hon : s.on c with
  | none => rw [current_of_idle hon] at h; cases h; exact ⟨rfl, rfl⟩
  | some q => rw [current_of_on hon] at h; cases h

variable [DecidableEq Λ]

/-- Nobody holds a lock at boot. -/
theorem disciplined_boot (cond : κ → Bool) : Disciplined P (boot P C cond) := by
  have hoff : ∀ p, (boot P C cond).Off p := fun p c h ↦ by cases h
  have hthread : ∀ me, ((boot P C cond).thread me).intr = none := by
    rintro (p | c) <;> rfl
  have hforks : ∀ p, ((boot P C cond).thread (.inl p)).pc.forks = none := by
    intro p
    show Pc.forks (if p = P.initproc then _ else _) = none
    split_ifs <;> rfl
  refine ⟨fun c l ↦ ?_, fun c ↦ rfl, fun me h ↦ absurd (hthread me) h, ?_, ?_, fun p ↦ ?_, ?_, ?_,
    ?_, ?_⟩
  · constructor <;> intro h <;> cases h
  · rintro (p | c)
    · show Pc.isBase (.inl p : Fin N ⊕ Fin C) (if p = P.initproc then _ else _) = true
      split_ifs <;> rfl
    · rfl
  · intro me pc hpc
    rw [hthread me] at hpc
    cases hpc
  · by_cases hp : p = P.initproc
    · subst hp
      have hstate : ((boot P C cond).slot P.initproc).state = .runnable := by simp [boot]
      rw [hstate]
      exact .ready (hoff _) (by simp [boot, Thread.top]) (by simp [boot, Pc.isExit])
    · have hstate : ((boot P C cond).slot p).state = .unused := by simp [boot, hp, Slot.free]
      rw [hstate]
      exact .unused (hoff p) (.inr (by simp [boot, hp]))
  · intro c d p h
    cases h
  · intro c p h
    cases h
  · intro p np h
    rw [hforks p] at h
    cases h
  · intro p q np h
    rw [hforks p] at h
    cases h

namespace Disciplined

variable (hs : Disciplined P s)

include hs

/-- A thread that is at an instruction of no handler is not in a handler. -/
theorem thread_eq {me : Fin N ⊕ Fin C} {pc : Pc N κ} (htop : (s.thread me).top = pc)
    (hpc : pc.isHandler me = false) : s.thread me = ⟨pc, none⟩ := by
  cases hintr : (s.thread me).intr with
  | none =>
    rw [Thread.top_of_none hintr] at htop
    rw [← htop, ← hintr]
  | some q =>
    have hq := hs.handler me q hintr
    rw [Thread.top_of_some hintr] at htop
    rw [htop, hpc] at hq
    cases hq

/-- No thread is on two CPUs. -/
theorem current_ne {d : Fin C} (hcd : d ≠ c) : s.current d ≠ s.current c := by
  intro h
  cases hon : s.on c with
  | none =>
    rw [current_of_idle hon] at h
    exact hcd (idle_of_current h).2.symm
  | some p =>
    rw [current_of_on hon] at h
    exact hcd (hs.on_inj d c p (on_of_current h) hon)

/-- A process on a CPU is running, or a zombie on its way out. -/
theorem state_of_on (h : s.on c = some p) :
    (s.slot p).state = .running ∨
      (s.slot p).state = .zombie ∧ s.thread (.inl p) = ⟨.exitSwtch, none⟩ := by
  have hplace := hs.place p
  revert hplace
  generalize hstate : (s.slot p).state = state
  intro hplace
  cases hplace with
  | running d hon hpc => exact .inl rfl
  | dying d hon hth => exact .inr ⟨rfl, hth⟩
  | unused hoff hth | used hoff hth | sleeping w hoff hth hchan | woken w hoff hth
  | ready hoff htop hpc | dead hoff hth => exact absurd h (hoff c)

theorem off_of_state (hrun : (s.slot p).state ≠ .running) (hzombie : (s.slot p).state ≠ .zombie) :
    s.Off p := fun _ h ↦ (hs.state_of_on h).elim hrun fun h ↦ hzombie h.1

end Disciplined

/-! ### One instruction -/

variable [DecidableEq κ] {a : Action N κ Λ} {ok : Bool} {me : Fin N ⊕ Fin C}

/-- What an instruction needs, and what it does. -/
theorem exec_eq_some {ok : Bool} (h : s.exec P c ok = some t) :
    ∃ a, s.act P (s.current c) ok (s.top c) = some a ∧ s.canLock c a.lock = true ∧
      s.canSwtch c a.effect a.swtch = true ∧ s.perform c a = t := by
  obtain ⟨a, ha, h⟩ := bind_eq_some_iff.1 h
  rw [ite_none_right_eq_some] at h
  obtain ⟨⟨hlock, hswtch⟩, h⟩ := h
  exact ⟨a, ha, hlock, hswtch, some_inj.1 h⟩

omit [DecidableEq Λ] [DecidableEq κ] in
theorem unused_of_alloc {pc : Pc N κ} (hact : s.act P me ok pc = some a) {j : Fin N}
    (h : a.effect = .alloc j) : (s.slot j).state = .unused := by
  cases row_of_act hact with
  | quiet heffect hswtch =>
    rw [heffect] at h
    cases h
  | alloc me j js hstate =>
    cases h
    exact hstate
  | _ => cases h

theorem perform_thread_self : (s.perform c a).thread (s.current c) =
    (s.thread (s.current c)).goto a.next :=
  update_self _ _ _

theorem perform_thread_of_ne (hne : me ≠ s.current c)
    (halloc : ∀ j, a.effect = .alloc j → me ≠ .inl j) :
    (s.perform c a).thread me = s.thread me := by
  refine (update_of_ne hne _ _).trans ?_
  cases heffect : a.effect with
  | alloc j => exact update_of_ne (halloc j heffect) _ _
  | _ => rfl

theorem perform_on_of_ne {d : Fin C} (hd : d ≠ c) : (s.perform c a).on d = s.on d := by
  show s.onAfter c a.swtch d = s.on d
  cases a.swtch with
  | stay => rfl
  | toScheduler | toProc j => exact update_of_ne hd _ _

namespace Disciplined

variable (hs : Disciplined P s)

include hs

omit [DecidableEq κ] in
theorem alloc_ne_current {d : Fin C} (hact : s.act P me ok (s.top c) = some a) (j : Fin N)
    (h : a.effect = .alloc j) : s.current d ≠ .inl j := by
  intro hd
  have hstate := unused_of_alloc hact h
  rcases hs.state_of_on (on_of_current hd) with hr | ⟨hr, -⟩ <;> rw [hstate] at hr <;> cases hr

/-- The other CPUs do not notice a step. -/
theorem perform_other (hact : s.Acts P c ok a) {d : Fin C}
    (hd : d ≠ c) : (s.perform c a).current d = s.current d ∧ (s.perform c a).top d = s.top d := by
  have hcur : (s.perform c a).current d = s.current d := by
    rw [current, current, perform_on_of_ne hd]
  refine ⟨hcur, ?_⟩
  rw [top, top, hcur, perform_thread_of_ne (hs.current_ne hd) (hs.alloc_ne_current hact)]

/-- What a CPU holds after a step that does not switch. -/
theorem holds_stay (hact : s.Acts P c ok a) (hstay : a.swtch = .stay) :
    a.lock.Changes ((s.top c).holds P (s.current c))
      (((s.perform c a).top c).holds P ((s.perform c a).current c)) := by
  have hcur : (s.perform c a).current c = s.current c := by
    rw [current, current, perform, hstay]
    rfl
  have hnext : ((s.perform c a).top c).holds P (s.current c) = a.next.holds P (s.current c) := by
    rw [top, hcur, perform_thread_self]
    rcases (s.thread (s.current c)).goto_cases a.next with ⟨-, h⟩ | ⟨hintr, huser, h⟩ | ⟨-, -, h⟩
    · rw [h]
      rfl
    · rw [h, huser]
      exact hs.buried _ hintr
    · rw [h]
      rfl
  rw [hcur, hnext]
  exact changes_of_act hact hstay

omit [DecidableEq κ] in
/-- The scheduler is not in a handler when it has found a process. -/
theorem scheduler_eq {j : Fin N} {js : List (Fin N)} (h : s.top c = .schedVisit j js) :
    s.on c = none ∧ s.thread (.inr c) = ⟨.schedVisit j js, none⟩ := by
  have hnot : (Pc.schedVisit j js : Pc N κ).isHandler (s.current c) = false := by
    cases s.current c <;> rfl
  have hth := hs.thread_eq h hnot
  have hbase := hs.base (s.current c)
  rw [hth] at hbase
  cases hcur : s.current c with
  | inl p =>
    rw [hcur] at hbase
    cases hbase
  | inr d =>
    obtain ⟨hidle, rfl⟩ := idle_of_current hcur
    rw [hcur] at hth
    exact ⟨hidle, hth⟩

omit [DecidableEq κ] in
/-- A process that can be scheduled goes on with `p->lock` held. -/
theorem holds_runnable (h : (s.slot p).state = .runnable) :
    (s.thread (.inl p)).top.holds P (.inl p : Fin N ⊕ Fin C) = {.proc p} := by
  have hplace := hs.place p
  rw [h] at hplace
  cases hplace with
  | woken w hoff hth => rw [hth]; rfl
  | ready hoff htop hpc => rw [htop]; rfl

/-- A CPU takes or releases the lock of the instruction, also across `swtch`. -/
theorem changes_perform (hact : s.Acts P c ok a) : a.lock.Changes ((s.top c).holds P (s.current c))
      (((s.perform c a).top c).holds P ((s.perform c a).current c)) := by
  rcases swtch_cases hact with hstay | ⟨p, hp, hsw, hlock, hleaves⟩ |
    ⟨j, js, hpc, hstate, hsw, hlock, heffect, -⟩
  · exact hs.holds_stay hact hstay
  · -- The scheduler waits behind `swtch` for `p->lock`.
    have hidle : (s.perform c a).on c = none := by
      show s.onAfter c a.swtch c = none
      rw [hsw]
      exact update_self _ _ _
    obtain ⟨js, hback⟩ := hs.back c p (on_of_current hp)
    have hth : (s.perform c a).thread (.inr c) = ⟨.schedBack p js, none⟩ := by
      refine (perform_thread_of_ne ?_ fun j _ ↦ Sum.inr_ne_inl).trans hback
      rw [hp]
      exact Sum.inr_ne_inl
    have htop : (s.perform c a).top c = .schedBack p js := by
      rw [top_of_idle hidle, hth]
      rfl
    rw [hlock, htop, current_of_idle hidle, hp, hleaves.holds_eq]
    rfl
  · obtain ⟨hidle, hth⟩ := hs.scheduler_eq hpc
    have hon : (s.perform c a).on c = some j := by
      show s.onAfter c a.swtch c = some j
      rw [hsw]
      exact update_self _ _ _
    have hsame : (s.perform c a).thread (.inl j) = s.thread (.inl j) := by
      refine perform_thread_of_ne ?_ (by rw [heffect]; nofun)
      rw [current_of_idle hidle]
      exact Sum.inl_ne_inr
    rw [top_of_on hon, current_of_on hon, hsame, hs.holds_runnable hstate, hpc, hlock]
    rfl

omit [DecidableEq κ] hs in
/-- The locks of the other CPUs stay with them. -/
theorem lockAfter_of_ne {op : LockOp N Λ} (hcan : s.canLock c op = true) {d : Fin C} (hd : d ≠ c)
    (l : Lock N Λ) : s.lockAfter c op l = some d ↔ s.lock l = some d := by
  cases op with
  | none => rfl
  | acquire k =>
    have hfree : s.lock k = none := of_decide_eq_true hcan
    by_cases hl : l = k
    · subst hl
      rw [lockAfter, update_self, hfree, some_inj]
      exact iff_of_false hd.symm nofun
    · rw [lockAfter, update_of_ne hl]
  | release k =>
    have hown : s.lock k = some c := (of_decide_eq_true hcan).1
    by_cases hl : l = k
    · subst hl
      rw [lockAfter, update_self, hown, some_inj]
      exact iff_of_false nofun hd.symm
    · rw [lockAfter, update_of_ne hl]

theorem lock_iff_perform (hact : s.Acts P c ok a)
    (hcan : s.canLock c a.lock = true) (d : Fin C) (l : Lock N Λ) :
    (s.perform c a).lock l = some d ↔
      l ∈ ((s.perform c a).top d).holds P ((s.perform c a).current d) := by
  show s.lockAfter c a.lock l = some d ↔ _
  by_cases hd : d = c
  · subst hd
    have hold := hs.lock_iff d l
    have hch := hs.changes_perform hact
    revert hch
    cases a.lock with
    | none =>
      intro hch
      rw [hch]
      exact hold
    | acquire k =>
      intro hch
      rw [hch, mem_insert, ← hold]
      by_cases hl : l = k
      · subst hl
        rw [lockAfter, update_self]
        exact iff_of_true rfl (.inl rfl)
      · rw [lockAfter, update_of_ne hl]
        exact ⟨.inr, fun h ↦ h.resolve_left hl⟩
    | release k =>
      intro hch
      rw [← hch.2, mem_erase, ← hold]
      by_cases hl : l = k
      · subst hl
        rw [lockAfter, update_self]
        exact iff_of_false nofun fun h ↦ h.1 rfl
      · rw [lockAfter, update_of_ne hl]
        exact ⟨fun h ↦ ⟨hl, h⟩, fun h ↦ h.2⟩
  · obtain ⟨hcur, htop⟩ := hs.perform_other hact hd
    rw [hcur, htop, lockAfter_of_ne hcan hd]
    exact hs.lock_iff d l

/-- `noff` still counts the locks that are held. -/
theorem noff_eq_perform (hact : s.Acts P c ok a) (hcan : s.canLock c a.lock = true) (d : Fin C) :
    (s.perform c a).noff d =
      (((s.perform c a).top d).holds P ((s.perform c a).current d)).card := by
  show s.noffAfter c a.lock d = _
  by_cases hd : d = c
  · subst hd
    have hch := hs.changes_perform hact
    revert hch hcan
    cases a.lock with
    | none =>
      intro _ hch
      rw [hch]
      exact hs.noff_eq d
    | acquire k =>
      intro hcan hch
      have hfree : s.lock k = none := of_decide_eq_true hcan
      have hnot : k ∉ (s.top d).holds P (s.current d) := by
        rw [← hs.lock_iff d k, hfree]
        nofun
      rw [hch, card_insert_of_notMem hnot, noffAfter, update_self, hs.noff_eq d]
    | release k =>
      intro _ hch
      rw [← hch.2, card_erase_of_mem hch.1, noffAfter, update_self, hs.noff_eq d]
  · obtain ⟨hcur, htop⟩ := hs.perform_other hact hd
    rw [hcur, htop, ← hs.noff_eq d]
    cases a.lock with
    | none => rfl
    | acquire k | release k => exact update_of_ne hd _ _

omit hs in
/-- A step changes the thread that takes it, and the thread of a new process. -/
theorem thread_perform {Q : Fin N ⊕ Fin C → Thread N κ → Prop} (hold : ∀ me, Q me (s.thread me))
    (hnew : ∀ j, Q (.inl j) ⟨.yieldUnlock, none⟩)
    (hgoto : Q (s.current c) ((s.thread (s.current c)).goto a.next)) (me : Fin N ⊕ Fin C) :
    Q me ((s.perform c a).thread me) := by
  by_cases hme : me = s.current c
  · subst hme
    rw [perform_thread_self]
    exact hgoto
  · by_cases halloc : ∃ j, a.effect = .alloc j ∧ me = .inl j
    · obtain ⟨j, heffect, rfl⟩ := halloc
      have hth : (s.perform c a).thread (.inl j) = ⟨.yieldUnlock, none⟩ := by
        refine (update_of_ne hme _ _).trans ?_
        rw [heffect]
        exact update_self _ _ _
      rw [hth]
      exact hnew j
    · rw [perform_thread_of_ne hme fun j hj hmej ↦ halloc ⟨j, hj, hmej⟩]
      exact hold me

/-- A thread that is interrupted holds no lock. -/
theorem buried_perform (a : Action N κ Λ) (me : Fin N ⊕ Fin C) :
    ((s.perform c a).thread me).intr ≠ none → ((s.perform c a).thread me).pc.holds P me = ∅ := by
  refine thread_perform (Q := fun me th ↦ th.intr ≠ none → th.pc.holds P me = ∅) hs.buried
    (fun j h ↦ absurd rfl h) ?_ me
  intro h
  rcases (s.thread (s.current c)).goto_cases a.next with ⟨-, hth⟩ | ⟨-, -, hth⟩ | ⟨hintr, -, hth⟩
  · rw [hth] at h
    exact absurd rfl h
  · rw [hth] at h
    exact absurd rfl h
  · rw [hth]
    exact hs.buried _ hintr

theorem base_perform (hact : s.Acts P c ok a) (me : Fin N ⊕ Fin C) :
    ((s.perform c a).thread me).pc.isBase me = true := by
  refine thread_perform (Q := fun me th ↦ th.pc.isBase me = true) hs.base (fun j ↦ rfl) ?_ me
  have hbase := hs.base (s.current c)
  rcases (s.thread (s.current c)).goto_cases a.next with ⟨hintr, hth⟩ | ⟨-, -, hth⟩ | ⟨-, -, hth⟩
  · rw [hth]
    rw [Acts, top, Thread.top_of_none hintr] at hact
    exact isBase_of_act hact hbase
  · rw [hth]
    exact hbase
  · rw [hth]
    exact hbase

theorem handler_perform (hact : s.Acts P c ok a) (me : Fin N ⊕ Fin C) :
    ∀ pc ∈ ((s.perform c a).thread me).intr, pc.isHandler me = true := by
  refine thread_perform (Q := fun me th ↦ ∀ pc ∈ th.intr, pc.isHandler me = true) hs.handler
    (fun j pc h ↦ by cases h) ?_ me
  intro pc hpc
  rcases (s.thread (s.current c)).goto_cases a.next with ⟨-, hth⟩ | ⟨-, -, hth⟩ |
    ⟨hintr, hnext, hth⟩
  · rw [hth] at hpc
    cases hpc
  · rw [hth] at hpc
    cases hpc
  · rw [hth] at hpc
    obtain ⟨q, hq⟩ := ne_none_iff_exists'.1 hintr
    rw [Acts, top, Thread.top_of_some hq] at hact
    cases hpc
    exact (isHandler_of_act hact (hs.handler _ q hq)).resolve_right hnext

omit hs in
theorem on_perform_of_ne {q : Fin N} (hcur : s.current c ≠ .inl q) (hsw : a.swtch ≠ .toProc q)
    (d : Fin C) : (s.perform c a).on d = some q ↔ s.on d = some q := by
  by_cases hd : d = c
  · subst hd
    have hnot : s.on d ≠ some q := fun h ↦ hcur (current_of_on h)
    refine iff_of_false ?_ hnot
    show s.onAfter d a.swtch d ≠ some q
    cases hswtch : a.swtch with
    | stay => exact hnot
    | toScheduler =>
      rw [onAfter, update_self]
      nofun
    | toProc j =>
      rw [onAfter, update_self]
      rintro ⟨⟩
      exact hsw hswtch
  · rw [perform_on_of_ne hd]

/-- A process that does nothing stays where it is. -/
theorem place_other {q : Fin N} (hcur : s.current c ≠ .inl q) (halloc : a.effect ≠ .alloc q)
    (hsw : a.swtch ≠ .toProc q)
    (hstate : ((s.perform c a).slot q).state = (s.slot q).state)
    (hchan : (s.slot q).state = .sleeping → ((s.perform c a).slot q).chan = (s.slot q).chan) :
    Place P (s.perform c a) q ((s.perform c a).slot q).state := by
  have hon := on_perform_of_ne hcur hsw
  have hth : (s.perform c a).thread (.inl q) = s.thread (.inl q) :=
    perform_thread_of_ne hcur.symm fun j hj hjq ↦ halloc (Sum.inl.inj hjq ▸ hj)
  have hoff : s.Off q → (s.perform c a).Off q := fun h d hd ↦ h d ((hon d).1 hd)
  have hplace := hs.place q
  rw [hstate]
  revert hplace hchan
  generalize (s.slot q).state = state
  intro hchan hplace
  cases hplace with
  | unused h hpc => exact .unused (hoff h) (hth ▸ hpc)
  | used h hpc => exact .used (hoff h) (hth.trans hpc)
  | sleeping w h hpc hc => exact .sleeping w (hoff h) (hth.trans hpc) ((hchan rfl).trans hc)
  | woken w h hpc => exact .woken w (hoff h) (hth.trans hpc)
  | ready h htop hpc => exact .ready (hoff h) (hth ▸ htop) (hth ▸ hpc)
  | running d h hpc => exact .running d ((hon d).2 h) (hth ▸ hpc)
  | dying d h hpc => exact .dying d ((hon d).2 h) (hth.trans hpc)
  | dead h hpc => exact .dead (hoff h) (hth.trans hpc)

/-- A process that goes on executing is running. -/
theorem place_self {q : Fin N} (hact : s.Acts P c ok a)
    (hcur : s.current c = .inl q) (hstay : a.swtch = .stay) (hexit : a.next.isExit = false)
    (hstate : ((s.perform c a).slot q).state = (s.slot q).state) :
    Place P (s.perform c a) q ((s.perform c a).slot q).state := by
  have hon := on_of_current hcur
  have hon' : (s.perform c a).on c = some q := by
    show s.onAfter c a.swtch c = some q
    rw [hstay]
    exact hon
  have hplace := hs.place q
  rw [hstate]
  revert hplace
  generalize (s.slot q).state = state
  intro hplace
  cases hplace with
  | running d h hpc =>
    refine .running c hon' ?_
    rw [← hcur, perform_thread_self]
    rcases (s.thread (s.current c)).goto_cases a.next with ⟨-, hth⟩ | ⟨-, -, hth⟩ | ⟨-, -, hth⟩
    · rw [hth]
      exact hexit
    · rw [hth, hcur]
      exact hpc
    · rw [hth, hcur]
      exact hpc
  | dying d h hpc =>
    rw [Acts, top, hcur, hpc] at hact
    cases hact
    cases hstay
  | unused h hpc | used h hpc | sleeping w h hpc hc | woken w h hpc | ready h htop hpc
  | dead h hpc => exact absurd hon (h c)

/-- A process whose slot is not changed. -/
theorem place_keep {q : Fin N} (hact : s.Acts P c ok a)
    (hstay : a.swtch = .stay) (halloc : a.effect ≠ .alloc q)
    (hexit : s.current c = .inl q → a.next.isExit = false)
    (hstate : ((s.perform c a).slot q).state = (s.slot q).state)
    (hchan : (s.slot q).state = .sleeping → ((s.perform c a).slot q).chan = (s.slot q).chan) :
    Place P (s.perform c a) q ((s.perform c a).slot q).state := by
  by_cases hcur : s.current c = .inl q
  · exact hs.place_self hact hcur hstay (hexit hcur) hstate
  · exact hs.place_other hcur halloc (by rw [hstay]; nofun) hstate hchan

omit [DecidableEq κ] in
/-- A thread at an instruction of neither a handler nor the scheduler is a process outside
handlers. -/
theorem proc_of_top
    (hnot : ∀ me : Fin N ⊕ Fin C, (s.top c).isHandler me = false ∧ (s.top c).isSched = false) :
    ∃ p, s.on c = some p ∧ s.thread (.inl p) = ⟨s.top c, none⟩ := by
  have hth : s.thread (s.current c) = ⟨s.top c, none⟩ := hs.thread_eq rfl (hnot _).1
  have hbase := hs.base (s.current c)
  rw [hth] at hbase
  cases hcur : s.current c with
  | inl p =>
    rw [hcur] at hth
    exact ⟨p, on_of_current hcur, hth⟩
  | inr d =>
    rw [hcur] at hbase
    cases (hnot (.inr d)).2.symm.trans hbase

omit [DecidableEq κ] in
/-- A thread whose next instruction belongs to `kfork` is a process that fills this slot. -/
theorem used_of_forks {j : Fin N} (hpc : (s.top c).forks = some j) :
    (s.slot j).state = .used ∧ ∃ p, s.on c = some p ∧ s.thread (.inl p) = ⟨s.top c, none⟩ := by
  obtain ⟨p, hon, hth⟩ := hs.proc_of_top (Pc.not_isHandler_of_forks hpc)
  refine ⟨hs.forks_used p j ?_, p, hon, hth⟩
  rw [hth]
  exact hpc

omit [DecidableEq κ] in
/-- A zombie whose lock another process holds has left its CPU. -/
theorem zombie_off {j : Fin N} (hstate : (s.slot j).state = .zombie)
    (hlock : s.lock (.proc j) = some c) (htop : (s.top c).isExit = false) : s.Off j := by
  intro d hd
  rcases hs.state_of_on hd with h | ⟨-, hth⟩
  · rw [hstate] at h
    cases h
  · have hheld : s.lock (.proc j) = some d := by
      rw [hs.lock_iff, top_of_on hd, current_of_on hd, hth]
      exact mem_insert_self _ _
    rw [hlock, some_inj] at hheld
    subst hheld
    rw [top_of_on hd, hth] at htop
    cases htop

/-- A step that leaves the state of `q` alone, or wakes it up. -/
theorem place_wake {q : Fin N} (hact : s.Acts P c ok a)
    (hstay : a.swtch = .stay) (halloc : a.effect ≠ .alloc q) (hexit : a.next.isExit = false)
    (hstate : ((s.perform c a).slot q).state = (s.slot q).state ∨
      (s.slot q).state = .sleeping ∧ ((s.perform c a).slot q).state = .runnable)
    (hchan : ((s.perform c a).slot q).chan = (s.slot q).chan) :
    Place P (s.perform c a) q ((s.perform c a).slot q).state := by
  rcases hstate with hstate | ⟨hsleep, hrun⟩
  · exact hs.place_keep hact hstay halloc (fun _ ↦ hexit) hstate fun _ ↦ hchan
  · have hplace := hs.place q
    rw [hsleep] at hplace
    cases hplace with
    | sleeping w hoff hth hc =>
      have hcur : s.current c ≠ .inl q := fun h ↦ hoff c (on_of_current h)
      rw [hrun]
      refine .woken w ?_ ?_
      · exact fun d hd ↦ hoff d ((on_perform_of_ne hcur (by rw [hstay]; nofun) d).1 hd)
      · exact (perform_thread_of_ne hcur.symm fun j hj hjq ↦
          halloc (Sum.inl.inj hjq ▸ hj)).trans hth

omit [DecidableEq κ] in
theorem not_isExit_of_running (h : (s.slot p).state = .running) :
    (s.thread (.inl p)).pc.isExit = false := by
  have hplace := hs.place p
  rw [h] at hplace
  cases hplace with
  | running d hon hpc => exact hpc

/-- Nobody executes on the stack of a process that has called `sched`. -/
theorem off_of_leave (hp : s.on c = some p) (hsw : a.swtch = .toScheduler) :
    (s.perform c a).Off p := by
  intro d hd
  by_cases hdc : d = c
  · subst hdc
    have hnone : (s.perform d a).on d = none := by
      show s.onAfter d a.swtch d = none
      rw [hsw]
      exact update_self _ _ _
    rw [hnone] at hd
    cases hd
  · rw [perform_on_of_ne hdc] at hd
    exact hdc (hs.on_inj d c p hd hp)

/-- The slots that a step does not write. -/
theorem place_untargeted {q : Fin N} (hact : s.Acts P c ok a) (hq : a.effect.target ≠ some q) :
    Place P (s.perform c a) q ((s.perform c a).slot q).state := by
  have hslot : (s.perform c a).slot q = s.slot q := slotsAfter_of_ne hq
  have halloc : a.effect ≠ .alloc q := fun h ↦ hq (by rw [h]; rfl)
  rcases swtch_cases hact with hstay | ⟨p, hp, hsw, -, hleaves⟩ |
    ⟨j, js, hpc, hstate, hsw, -, heffect, -⟩
  · refine hs.place_keep hact hstay halloc ?_ (by rw [hslot]) (fun _ ↦ by rw [hslot])
    intro hcur
    refine (isExit_of_act hact hstay).resolve_right ?_
    rintro ⟨p, status, hp, heffect⟩
    rw [hcur] at hp
    cases hp
    exact hq (by rw [heffect]; rfl)
  · by_cases hqp : q = p
    · subst hqp
      generalize htop : s.top c = pc, heffect : a.effect = e, hnext : a.next = next at hleaves
      cases hleaves with
      | sleep w => exact absurd (by rw [heffect]; rfl) hq
      | yield => exact absurd (by rw [heffect]; rfl) hq
      | exit =>
        -- The last step of a process: from now on nobody executes on its stack.
        have hth := hs.thread_eq htop (by rw [hp]; rfl)
        rcases hs.state_of_on (on_of_current hp) with hrun | ⟨hzombie, -⟩
        · have hpc := hs.not_isExit_of_running hrun
          rw [← hp, hth] at hpc
          cases hpc
        · rw [hslot, hzombie]
          refine .dead (hs.off_of_leave (on_of_current hp) hsw) ?_
          rw [← hp, perform_thread_self, hth, hnext]
          rfl
    · refine hs.place_other ?_ halloc (by rw [hsw]; nofun) (by rw [hslot]) (fun _ ↦ by rw [hslot])
      rw [hp]
      exact fun h ↦ hqp (Sum.inl.inj h).symm
  · refine hs.place_other ?_ halloc ?_ (by rw [hslot]) (fun _ ↦ by rw [hslot])
    · rw [current_of_idle (hs.scheduler_eq hpc).1]
      exact Sum.inr_ne_inl
    · rw [hsw]
      rintro ⟨⟩
      exact hq (by rw [heffect]; rfl)

omit hs in
theorem perform_slot {e : Effect N κ} {q : Fin N} {sl : Slot N} (heff : a.effect = e)
    (h : s.slotsAfter e = update s.slot q sl) : (s.perform c a).slot q = sl :=
  (congrFun (congrArg s.slotsAfter heff) q).trans (slotsAfter_self h)

omit hs in
theorem off_perform_of_stay {q : Fin N} (hstay : a.swtch = .stay) (h : s.Off q) :
    (s.perform c a).Off q := by
  intro d hd
  refine h d ?_
  rwa [show (s.perform c a).on = s.on by rw [perform, hstay]; rfl] at hd

/-- The process whose slot is changed. -/
theorem place_targeted {q : Fin N} (hact : s.Acts P c ok a) (hq : a.effect.target = some q) :
    Place P (s.perform c a) q ((s.perform c a).slot q).state := by
  have hrow := row_of_act hact
  obtain ⟨b, ha⟩ : ∃ b, a = b := ⟨a, rfl⟩
  rw [ha] at hrow
  generalize htop : s.top c = pc, hme : s.current c = me at hrow
  have heff : a.effect = b.effect := congrArg Action.effect ha
  have hsw : a.swtch = b.swtch := congrArg Action.swtch ha
  have hnext : a.next = b.next := congrArg Action.next ha
  rw [heff] at hq
  have hslot : ∀ {sl : Slot N}, s.slotsAfter b.effect = update s.slot q sl →
      (s.perform c a).slot q = sl := perform_slot heff
  have hkeep : s.Off q → b.effect ≠ .alloc q →
      (s.perform c a).thread (.inl q) = s.thread (.inl q) := fun hoff halloc ↦
    perform_thread_of_ne (fun h ↦ hoff c (on_of_current h.symm)) fun j hj hjq ↦
      halloc (heff ▸ Sum.inl.inj hjq ▸ hj)
  cases hrow with
  | quiet heffect hswtch =>
    rw [heffect] at hq
    cases hq
  | raise | done | seeTrue | seeFalse | leave => cases hq
  | wake me y j js =>
    cases hq
    refine hs.place_wake hact hsw (by rw [heff]; nofun) (by rw [hnext]; rfl) ?_ ?_
    · rw [hslot rfl]
      exact Slot.state_wake _ _
    · rw [hslot rfl]
      exact Slot.chan_wake _ _
  | kill me j js =>
    cases hq
    refine hs.place_wake hact hsw (by rw [heff]; nofun) (by rw [hnext]; rfl) ?_ ?_
    · rw [hslot rfl]
      exact Slot.state_kill _
    · rw [hslot rfl]
      exact Slot.chan_kill _
  | adopt p np =>
    cases hq
    exact hs.place_wake hact hsw (by rw [heff]; nofun) (by rw [hnext]; rfl)
      (.inl (by rw [hslot rfl])) (by rw [hslot rfl])
  | reparent me status pp pps hpp =>
    cases hq
    exact hs.place_wake hact hsw (by rw [heff]; nofun) (by rw [hnext]; rfl)
      (.inl (by rw [hslot rfl])) (by rw [hslot rfl])
  | tidy p w =>
    cases hq
    exact hs.place_self hact hme hsw (by rw [hnext]; rfl) (by rw [hslot rfl])
  | sleep p w =>
    cases hq
    have hth := hs.thread_eq htop (by rw [hme]; rfl)
    rw [hslot rfl]
    refine .sleeping w (hs.off_of_leave (on_of_current hme) hsw) ?_ (by rw [hslot rfl])
    rw [← hme, perform_thread_self, hth, hnext]
    rfl
  | yield p =>
    cases hq
    rw [hslot rfl]
    have hpc : (s.thread (s.current c)).pc.isExit = false := by
      rw [hme]
      rcases hs.state_of_on (on_of_current hme) with hrun | ⟨-, hth⟩
      · exact hs.not_isExit_of_running hrun
      · rw [top, hme, hth] at htop
        cases htop
    have hself : (s.perform c a).thread (.inl q) = (s.thread (s.current c)).goto .yieldUnlock := by
      rw [← hme, perform_thread_self, hnext]
    rcases (s.thread (s.current c)).goto_cases .yieldUnlock with ⟨-, h⟩ | ⟨-, h, -⟩ | ⟨-, -, h⟩
    · rw [h] at hself
      exact .ready (hs.off_of_leave (on_of_current hme) hsw) (by rw [hself]; rfl)
        (by rw [hself]; rfl)
    · cases h
    · rw [h] at hself
      exact .ready (hs.off_of_leave (on_of_current hme) hsw) (by rw [hself]; rfl)
        (by rw [hself]; exact hpc)
  | alloc me j js hstate =>
    cases hq
    have hoff : s.Off q := hs.off_of_state (by rw [hstate]; nofun) (by rw [hstate]; nofun)
    rw [hslot rfl]
    refine .used (off_perform_of_stay hsw hoff) ?_
    refine (update_of_ne (fun h ↦ hoff c (on_of_current h.symm)) _ _).trans ?_
    rw [heff]
    exact update_self _ _ _
  | free me np =>
    cases hq
    obtain ⟨hused, -⟩ := hs.used_of_forks (j := q) (by rw [htop]; rfl)
    have hplace := hs.place q
    rw [hused] at hplace
    cases hplace with
    | used hoff hth =>
      rw [hslot rfl]
      refine .unused (off_perform_of_stay hsw hoff) (.inl ?_)
      rw [hkeep hoff nofun, hth]
  | start me np =>
    cases hq
    obtain ⟨hused, -⟩ := hs.used_of_forks (j := q) (by rw [htop]; rfl)
    have hplace := hs.place q
    rw [hused] at hplace
    cases hplace with
    | used hoff hth =>
      rw [hslot rfl]
      have hsame : (s.perform c a).thread (.inl q) = ⟨.yieldUnlock, none⟩ := by
        rw [hkeep hoff nofun, hth]
      exact .ready (off_perform_of_stay hsw hoff) (by rw [hsame]; rfl) (by rw [hsame]; rfl)
  | die p status =>
    cases hq
    have hth := hs.thread_eq htop (by rw [hme]; rfl)
    rw [hslot rfl]
    refine .dying c ?_ ?_
    · show s.onAfter c a.swtch c = some q
      rw [hsw]
      exact on_of_current hme
    · rw [← hme, perform_thread_self, hth, hnext]
      rfl
  | reap p addr j js ok hstate hcopy =>
    cases hq
    have hlock : s.lock (.proc q) = some c := by
      rw [hs.lock_iff, htop]
      exact mem_insert_self _ _
    have hoff := hs.zombie_off hstate hlock (by rw [htop]; rfl)
    have hplace := hs.place q
    rw [hstate] at hplace
    cases hplace with
    | dying d hon hth => exact absurd hon (hoff d)
    | dead hoff hth =>
      rw [hslot rfl]
      refine .unused (off_perform_of_stay hsw hoff) (.inr ?_)
      rw [hkeep hoff nofun, hth]
  | run me j js hstate =>
    cases hq
    have hoff : s.Off q := hs.off_of_state (by rw [hstate]; nofun) (by rw [hstate]; nofun)
    rw [hslot rfl]
    refine .running c ?_ ?_
    · show s.onAfter c a.swtch c = some q
      rw [hsw]
      exact update_self _ _ _
    · rw [hkeep hoff nofun]
      have hplace := hs.place q
      rw [hstate] at hplace
      cases hplace with
      | woken w hoff hth =>
        rw [hth]
        rfl
      | ready hoff hready hpc => exact hpc

/-- Every process is where its state says. -/
theorem place_perform (hact : s.Acts P c ok a) (q : Fin N) :
    Place P (s.perform c a) q ((s.perform c a).slot q).state := by
  by_cases hq : a.effect.target = some q
  · exact hs.place_targeted hact hq
  · exact hs.place_untargeted hact hq

omit hs in
theorem on_perform {d : Fin C} {q : Fin N} (h : (s.perform c a).on d = some q) :
    s.on d = some q ∨ d = c ∧ a.swtch = .toProc q := by
  by_cases hd : d = c
  · subst hd
    change s.onAfter d a.swtch d = some q at h
    cases hsw : a.swtch with
    | stay =>
      rw [hsw] at h
      exact .inl h
    | toScheduler =>
      rw [hsw, onAfter, update_self] at h
      cases h
    | toProc j =>
      rw [hsw, onAfter, update_self, some_inj] at h
      exact .inr ⟨rfl, by rw [h]⟩
  · rw [perform_on_of_ne hd] at h
    exact .inl h

/-- A process that is switched to was not executed anywhere. -/
theorem toProc_off (hact : s.Acts P c ok a) {q : Fin N} (hsw : a.swtch = .toProc q) :
    s.Off q ∧ (s.perform c a).thread (.inr c) = ⟨a.next, none⟩ ∧ ∃ js,
      a.next = .schedBack q js := by
  rcases swtch_cases hact with hstay | ⟨p, -, hsched, -⟩ | ⟨j, js, hpc, hstate, hj, -, -, hnext⟩
  · rw [hstay] at hsw
    cases hsw
  · rw [hsched] at hsw
    cases hsw
  · rw [hj] at hsw
    cases hsw
    obtain ⟨hidle, hth⟩ := hs.scheduler_eq hpc
    refine ⟨hs.off_of_state (by rw [hstate]; nofun) (by rw [hstate]; nofun), ?_, js, hnext⟩
    rw [← current_of_idle hidle, perform_thread_self, current_of_idle hidle, hth]
    rfl

/-- A process is on one CPU at most. -/
theorem on_inj_perform (hact : s.Acts P c ok a) (d e : Fin C)
    (q : Fin N) (hd : (s.perform c a).on d = some q) (he : (s.perform c a).on e = some q) :
    d = e := by
  rcases on_perform hd with hd' | ⟨rfl, hsw⟩ <;> rcases on_perform he with he' | ⟨rfl, hsw'⟩
  · exact hs.on_inj d e q hd' he'
  · exact absurd hd' ((hs.toProc_off hact hsw').1 d)
  · exact absurd he' ((hs.toProc_off hact hsw).1 e)
  · rfl

/-- The scheduler of a busy CPU waits for the process. -/
theorem back_perform (hact : s.Acts P c ok a) (d : Fin C) (q : Fin N)
    (hd : (s.perform c a).on d = some q) :
    ∃ js, (s.perform c a).thread (.inr d) = ⟨.schedBack q js, none⟩ := by
  rcases on_perform hd with hd' | ⟨rfl, hsw⟩
  · obtain ⟨js, hback⟩ := hs.back d q hd'
    refine ⟨js, (perform_thread_of_ne ?_ fun j _ ↦ Sum.inr_ne_inl).trans hback⟩
    intro h
    obtain ⟨hidle, rfl⟩ := idle_of_current h.symm
    rw [hidle] at hd'
    cases hd'
  · obtain ⟨-, hth, js, hnext⟩ := hs.toProc_off hact hsw
    exact ⟨js, hnext ▸ hth⟩

omit hs in
/-- What a step does to the instruction at which a process is outside handlers. -/
theorem pc_perform (s : Kernel N C κ Λ) (c : Fin C) (a : Action N κ Λ) (p : Fin N) :
    (((s.perform c a).thread (.inl p)).pc = (s.thread (.inl p)).pc ∧
        (s.current c = .inl p → (s.thread (.inl p)).intr ≠ none)) ∨
      (s.current c ≠ .inl p ∧ a.effect = .alloc p ∧
        (s.perform c a).thread (.inl p) = ⟨.yieldUnlock, none⟩) ∨
      (s.current c = .inl p ∧ s.thread (.inl p) = ⟨s.top c, none⟩ ∧
        (s.perform c a).thread (.inl p) = ⟨a.next, none⟩) := by
  by_cases hme : s.current c = .inl p
  · have hself := perform_thread_self (s := s) (c := c) (a := a)
    rw [hme] at hself
    rcases (s.thread (.inl p)).goto_cases a.next with ⟨hintr, hth⟩ | ⟨hintr, -, hth⟩ |
      ⟨hintr, -, hth⟩
    · refine .inr (.inr ⟨hme, ?_, hself.trans hth⟩)
      rw [top, hme, Thread.top_of_none hintr, ← hintr]
    · rw [hself, hth]
      exact .inl ⟨rfl, fun _ ↦ hintr⟩
    · rw [hself, hth]
      exact .inl ⟨rfl, fun _ ↦ hintr⟩
  · by_cases halloc : a.effect = .alloc p
    · refine .inr (.inl ⟨hme, halloc, (update_of_ne (Ne.symm hme) _ _).trans ?_⟩)
      rw [halloc]
      exact update_self _ _ _
    · rw [perform_thread_of_ne (Ne.symm hme) fun j hj hjp ↦ halloc (Sum.inl.inj hjp ▸ hj)]
      exact .inl ⟨rfl, fun h ↦ absurd h hme⟩

omit hs in
/-- A process that fills a slot after a step has filled it before, or has just found it. -/
theorem forks_perform (hact : s.Acts P c ok a) {np : Fin N}
    (h : ((s.perform c a).thread (.inl p)).pc.forks = some np) :
    (s.thread (.inl p)).pc.forks = some np ∨ s.current c = .inl p ∧ a.effect = .alloc np := by
  rcases pc_perform s c a p with ⟨hpc, -⟩ | ⟨-, -, hth⟩ | ⟨hme, hold, hnew⟩
  · exact .inl (hpc ▸ h)
  · rw [hth] at h
    cases h
  · rw [hnew] at h
    rw [hold]
    exact (forks_of_act hact h).imp_right fun h ↦ ⟨hme, h⟩

/-- A child is filled in by one process only. -/
theorem forks_inj_perform (hact : s.Acts P c ok a) (p q np : Fin N)
    (hp : ((s.perform c a).thread (.inl p)).pc.forks = some np)
    (hq : ((s.perform c a).thread (.inl q)).pc.forks = some np) : p = q := by
  have hnot : ∀ r, (s.thread (.inl r)).pc.forks = some np → a.effect ≠ .alloc np := by
    intro r hr heff
    have hused := hs.forks_used r np hr
    rw [unused_of_alloc hact heff] at hused
    cases hused
  rcases forks_perform hact hp with hp | ⟨hp, heff⟩ <;>
    rcases forks_perform hact hq with hq | ⟨hq, heff'⟩
  · exact hs.forks_inj p q np hp hq
  · exact absurd heff' (hnot p hp)
  · exact absurd heff (hnot q hq)
  · rw [hp] at hq
    exact Sum.inl.inj hq

/-- A slot that is being filled is written by the process that fills it. -/
theorem forks_target {np : Fin N} (hact : s.Acts P c ok a)
    (hp : (s.thread (.inl p)).pc.forks = some np) (htarget : a.effect.target = some np)
    (hstate : ((s.perform c a).slot np).state ≠ .used) :
    s.current c = .inl p ∧ (s.perform c a).thread (.inl p) = ⟨.user, none⟩ := by
  have hused := hs.forks_used p np hp
  have hoff : s.Off np := hs.off_of_state (by rw [hused]; nofun) (by rw [hused]; nofun)
  have hrow := row_of_act hact
  obtain ⟨b, ha⟩ : ∃ b, a = b := ⟨a, rfl⟩
  rw [ha] at hrow
  generalize htop : s.top c = pc, hme : s.current c = me at hrow
  have heff : a.effect = b.effect := congrArg Action.effect ha
  have hnext : a.next = b.next := congrArg Action.next ha
  rw [heff] at htarget
  -- Only the two ends of `kfork` take a slot out of `USED`.
  have hend : (s.top c).forks = some np → a.next = .user →
      s.current c = .inl p ∧ (s.perform c a).thread (.inl p) = ⟨.user, none⟩ := by
    intro hforks huser
    obtain ⟨-, r, hon, hth⟩ := hs.used_of_forks hforks
    have hr : r = p := hs.forks_inj r p np (by rw [hth]; exact hforks) hp
    subst hr
    refine ⟨current_of_on hon, ?_⟩
    rw [← current_of_on hon, perform_thread_self, current_of_on hon, hth, huser]
    rfl
  rw [hme] at hend
  cases hrow with
  | quiet heffect hswtch =>
    rw [heffect] at htarget
    cases htarget
  | raise | done | seeTrue | seeFalse | leave => cases htarget
  | free me np' | start me np' =>
    cases htarget
    exact hend (by rw [htop]; rfl) hnext
  | wake me y j js =>
    cases htarget
    rw [perform_slot heff rfl] at hstate
    rcases (s.slot np).state_wake (y.chan P) with h | ⟨h, -⟩
    · exact absurd (h.trans hused) hstate
    · cases hused.symm.trans h
  | kill me j js =>
    cases htarget
    rw [perform_slot heff rfl] at hstate
    rcases (s.slot np).state_kill with h | ⟨h, -⟩
    · exact absurd (h.trans hused) hstate
    · cases hused.symm.trans h
  | adopt p' np' | reparent me status pp pps hpp =>
    cases htarget
    rw [perform_slot heff rfl] at hstate
    exact absurd hused hstate
  | tidy p' w | sleep p' w | yield p' | die p' status =>
    cases htarget
    exact absurd (on_of_current hme) (hoff c)
  | alloc me j js h | reap p' addr j js ok h hcopy | run me j js h =>
    cases htarget
    cases hused.symm.trans h

/-- A child that is filled in is `USED`. -/
theorem forks_used_perform (hact : s.Acts P c ok a) (p np : Fin N)
    (hp : ((s.perform c a).thread (.inl p)).pc.forks = some np) :
    ((s.perform c a).slot np).state = .used := by
  rcases forks_perform hact hp with hold | ⟨-, heff⟩
  · by_contra hstate
    by_cases htarget : a.effect.target = some np
    · rw [(hs.forks_target hact hold htarget hstate).2] at hp
      cases hp
    · refine hstate ?_
      rw [show (s.perform c a).slot np = s.slot np from slotsAfter_of_ne htarget]
      exact hs.forks_used p np hold
  · rw [perform_slot heff rfl]

/-- **Every instruction keeps the discipline.** -/
theorem perform (hact : s.Acts P c ok a)
    (hcan : s.canLock c a.lock = true) : Disciplined P (s.perform c a) where
  lock_iff := hs.lock_iff_perform hact hcan
  noff_eq := hs.noff_eq_perform hact hcan
  buried := hs.buried_perform a
  base := hs.base_perform hact
  handler := hs.handler_perform hact
  place := hs.place_perform hact
  on_inj := hs.on_inj_perform hact
  back := hs.back_perform hact
  forks_used := hs.forks_used_perform hact
  forks_inj := hs.forks_inj_perform hact

end Disciplined

/-! ### Entering the kernel -/

/-- The thread on `c` is diverted: to a system call, or to a handler. -/
def divert (s : Kernel N C κ Λ) (c : Fin C) (th : Thread N κ) : Kernel N C κ Λ :=
  { s with thread := update s.thread (s.current c) th }

omit [DecidableEq Λ] [DecidableEq κ] in
theorem divert_thread_self (th : Thread N κ) : (s.divert c th).thread (s.current c) = th :=
  update_self _ _ _

omit [DecidableEq Λ] [DecidableEq κ] in
theorem divert_thread_of_ne (th : Thread N κ) (h : me ≠ s.current c) :
    (s.divert c th).thread me = s.thread me :=
  update_of_ne h _ _

omit [DecidableEq Λ] [DecidableEq κ] in
theorem divert_pc (th : Thread N κ) {R : Fin N ⊕ Fin C → Pc N κ → Prop}
    (hpc : th.pc = (s.thread (s.current c)).pc ∨ R (s.current c) th.pc) (me : Fin N ⊕ Fin C) :
    ((s.divert c th).thread me).pc = (s.thread me).pc ∨
      R me ((s.divert c th).thread me).pc := by
  by_cases hme : me = s.current c
  · subst hme
    rwa [divert_thread_self]
  · rw [divert_thread_of_ne th hme]
    exact .inl rfl

/-- What a step can be: an instruction, or a thread is diverted. -/
inductive StepCase (P : Setup N κ Λ) (s : Kernel N C κ Λ) :
    KernelEvent C κ → Kernel N C κ Λ → Prop
  | exec {c : Fin C} {ok : Bool} {a : Action N κ Λ} (hact : s.Acts P c ok a)
      (hcan : s.canLock c a.lock = true) : StepCase P s (.exec c ok) (s.perform c a)
  | call {c : Fin C} {p : Fin N} (f : Call κ) (hon : s.on c = some p)
      (huser : s.thread (s.current c) = ⟨.user, none⟩) :
      StepCase P s (.call c f) (s.divert c ⟨f.pc, none⟩)
  | interrupt (c : Fin C) {k : κ} (hnoff : s.noff c = 0)
      (hintr : (s.thread (s.current c)).intr = none) : StepCase P s (.interrupt c k)
        (s.divert c { s.thread (s.current c) with intr := some (.raiseLock k) })
  | preempt (c : Fin C) {p : Fin N} (hnoff : s.noff c = 0)
      (hintr : (s.thread (s.current c)).intr = none) (hon : s.on c = some p) :
      StepCase P s (.preempt c)
        (s.divert c { s.thread (s.current c) with intr := some .yieldLock })

theorem step_cases {e : KernelEvent C κ} (h : s.step P e = some t) : StepCase P s e t := by
  cases e with
  | call c f =>
    rw [step, ite_none_right_eq_some, some_inj] at h
    obtain ⟨⟨hon, huser⟩, rfl⟩ := h
    obtain ⟨p, hp⟩ := ne_none_iff_exists'.1 hon
    exact .call f hp huser
  | exec c ok =>
    obtain ⟨a, hact, hcan, -, rfl⟩ := exec_eq_some h
    exact .exec hact hcan
  | interrupt c k =>
    rw [step, interrupt, ite_none_right_eq_some, some_inj] at h
    obtain ⟨⟨hnoff, hintr⟩, rfl⟩ := h
    exact .interrupt c (of_decide_eq_true hnoff) hintr
  | preempt c =>
    rw [step, interrupt, ite_none_right_eq_some, ite_none_right_eq_some,
      some_inj] at h
    obtain ⟨hon, ⟨hnoff, hintr⟩, rfl⟩ := h
    obtain ⟨p, hp⟩ := ne_none_iff_exists'.1 hon
    exact .preempt c (of_decide_eq_true hnoff) hintr hp

omit [DecidableEq κ] in
theorem holds_of_user (huser : s.thread (s.current c) = ⟨.user, none⟩) :
    (s.top c).holds P (s.current c) = ∅ := by
  rw [top, huser]
  rfl

namespace Disciplined

variable (hs : Disciplined P s)

include hs

omit [DecidableEq κ] in
/-- A thread that holds no lock can be diverted to an instruction that needs none. -/
theorem divert {th : Thread N κ} (hold : (s.top c).holds P (s.current c) = ∅)
    (hnew : th.top.holds P (s.current c) = ∅)
    (hburied : th.intr ≠ none → th.pc.holds P (s.current c) = ∅)
    (hbase : th.pc.isBase (s.current c) = true)
    (hhandler : ∀ pc ∈ th.intr, pc.isHandler (s.current c) = true)
    (hpc : th.pc = (s.thread (s.current c)).pc ∨ th.pc.forks = none ∧ th.pc.isExit = false) :
    Disciplined P (s.divert c th) := by
  have hthread : ∀ {Q : Fin N ⊕ Fin C → Thread N κ → Prop}, (∀ me, Q me (s.thread me)) →
      Q (s.current c) th → ∀ me, Q me ((s.divert c th).thread me) := by
    intro Q hQ hth me
    by_cases hme : me = s.current c
    · subst hme
      rw [divert_thread_self]
      exact hth
    · rw [divert_thread_of_ne th hme]
      exact hQ me
  have hheld : ∀ d, ((s.divert c th).top d).holds P (s.current d) =
      (s.top d).holds P (s.current d) := by
    intro d
    by_cases hd : d = c
    · subst hd
      rw [hold, ← hnew]
      show (((s.divert d th).thread (s.current d)).top).holds P _ = _
      rw [divert_thread_self]
    · show (((s.divert c th).thread (s.current d)).top).holds P _ = _
      rw [divert_thread_of_ne th (hs.current_ne hd), top]
  have hforks : ∀ p np, ((s.divert c th).thread (.inl p)).pc.forks = some np →
      (s.thread (.inl p)).pc.forks = some np := by
    intro p np h
    rcases divert_pc th (R := fun _ pc ↦ pc.forks = none ∧ pc.isExit = false) hpc (.inl p) with
      hp | ⟨hp, -⟩
    · rwa [← hp]
    · cases hp.symm.trans h
  refine ⟨fun d l ↦ ?_, fun d ↦ ?_,
    hthread (Q := fun me th ↦ th.intr ≠ none → th.pc.holds P me = ∅) hs.buried hburied,
    hthread (Q := fun me th ↦ th.pc.isBase me = true) hs.base hbase,
    hthread (Q := fun me th ↦ ∀ pc ∈ th.intr, pc.isHandler me = true) hs.handler hhandler,
    fun q ↦ ?_, hs.on_inj, fun d q hd ↦ ?_,
    fun p np h ↦ hs.forks_used p np (hforks p np h),
    fun p q np hp hq ↦ hs.forks_inj p q np (hforks p np hp) (hforks q np hq)⟩
  · show s.lock l = some d ↔ l ∈ ((s.divert c th).top d).holds P (s.current d)
    rw [hheld d]
    exact hs.lock_iff d l
  · show s.noff d = (((s.divert c th).top d).holds P (s.current d)).card
    rw [hheld d]
    exact hs.noff_eq d
  · show Place P (s.divert c th) q (s.slot q).state
    by_cases hme : .inl q = s.current c
    · have hon := on_of_current hme.symm
      rcases hs.state_of_on hon with hrun | ⟨-, hth⟩
      · rw [hrun]
        refine .running c hon ?_
        rw [hme, divert_thread_self]
        rcases hpc with hpc | ⟨-, hpc⟩
        · rw [hpc, ← hme]
          exact hs.not_isExit_of_running hrun
        · exact hpc
      · -- A process that is about to leave its CPU holds its lock.
        rw [top_of_on hon, current_of_on hon, hth] at hold
        cases (insert_ne_empty _ _ hold)
    · have hth := divert_thread_of_ne th hme
      have hplace := hs.place q
      revert hplace
      generalize (s.slot q).state = state
      intro hplace
      cases hplace with
      | unused h hpc => exact .unused h (hth ▸ hpc)
      | used h hpc => exact .used h (hth.trans hpc)
      | sleeping w h hpc hc => exact .sleeping w h (hth.trans hpc) hc
      | woken w h hpc => exact .woken w h (hth.trans hpc)
      | ready h htop hpc => exact .ready h (hth ▸ htop) (hth ▸ hpc)
      | running d h hpc => exact .running d h (hth ▸ hpc)
      | dying d h hpc => exact .dying d h (hth.trans hpc)
      | dead h hpc => exact .dead h (hth.trans hpc)
  · obtain ⟨js, hback⟩ := hs.back d q hd
    refine ⟨js, (divert_thread_of_ne th ?_).trans hback⟩
    intro h
    obtain ⟨hidle, rfl⟩ := idle_of_current h.symm
    cases hidle.symm.trans hd

omit [DecidableEq κ] in
theorem holds_of_noff (hnoff : s.noff c = 0) : (s.top c).holds P (s.current c) = ∅ := by
  rwa [← card_eq_zero, ← hs.noff_eq c]

omit [DecidableEq κ] in
/-- A handler is entered only where no lock is held. -/
theorem enter {pc : Pc N κ} (hnoff : s.noff c = 0)
    (hintr : (s.thread (s.current c)).intr = none) (hholds : pc.holds P (s.current c) = ∅)
    (hpc : pc.isHandler (s.current c) = true) :
    Disciplined P (s.divert c { s.thread (s.current c) with intr := some pc }) := by
  have hold := hs.holds_of_noff hnoff
  refine hs.divert hold hholds ?_ (hs.base _) ?_ (.inl rfl)
  · intro _
    rwa [top, Thread.top_of_none hintr] at hold
  · rintro _ ⟨⟩
    exact hpc

/-- **Every step keeps the discipline.** -/
theorem step {e : KernelEvent C κ} (h : s.step P e = some t) : Disciplined P t := by
  cases step_cases h with
  | exec hact hcan => exact hs.perform hact hcan
  | call f hon huser =>
    refine hs.divert (holds_of_user huser) ?_ (fun h ↦ absurd rfl h) ?_ nofun (.inr ?_)
    · cases f <;> rfl
    · rw [current_of_on hon]
      cases f <;> rfl
    · cases f <;> exact ⟨rfl, rfl⟩
  | interrupt c hnoff hintr => exact hs.enter hnoff hintr rfl (by cases s.current c <;> rfl)
  | preempt c hnoff hintr hon => exact hs.enter hnoff hintr rfl (by rw [current_of_on hon]; rfl)

end Disciplined

/-- **The lock discipline holds in every state of every run.** -/
theorem disciplined_run {cond : κ → Bool} {es : List (KernelEvent C κ)}
    (h : runSteps (step P) (boot P C cond) es = some s) : Disciplined P s :=
  runSteps_invariant (disciplined_boot cond) (fun _ _ _ hr hstep ↦ hr.step hstep) h

end Kernel

end Xv6

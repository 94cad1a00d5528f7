import Xv6.Proc.Wakeup

/-!
# No panic and no deadlock

`Kernel.exec` has no result where the code panics or waits. By the lock discipline this is so in
three places only: in user space, in `kexit` of the first process ("init exiting"), and in an
`acquire` of a lock that another CPU holds (`Kernel.panic_free`). So no CPU acquires a lock it has,
or releases one it has not; `sched` is called with `p->lock` and no other lock; no zombie comes back
from it.

A lock has a rank, and a CPU acquires only locks that rank above those it has. Who waits for a lock
waits for a CPU that goes on, or itself waits for a lock of higher rank: the spinlocks cannot
deadlock (`Kernel.deadlock_free`).
-/

namespace Xv6

open Option Finset

variable {N C : ℕ} {κ Λ : Type}

/-- `p->lock` is acquired after `wait_lock` and the locks of conditions, and `pid_lock` after it. -/
def Lock.rank : Lock N Λ → ℕ
  | pid => 2
  | proc _ => 1
  | wait | cond _ => 0

namespace Kernel

variable {P : Setup N κ Λ} {s t : Kernel N C κ Λ} {c : Fin C} {ok : Bool} {me : Fin N ⊕ Fin C}
  {pc : Pc N κ} {a : Action N κ Λ}

theorem act_eq_none (h : s.act P me ok pc = none) :
    pc.isSched = false ∧ pc.isRaise = false ∧ ∀ p, me = .inl p → pc = .user ∨ pc = .exited ∨
      p = P.initproc ∧ ∃ status, pc = .exitWait status := by
  revert h
  fun_cases s.act P me ok pc <;> intro h
  all_goals first
    | (cases h; done)
    | exact ⟨rfl, rfl, fun _ _ ↦ .inl rfl⟩
    | exact ⟨rfl, rfl, fun _ _ ↦ .inr (.inl rfl)⟩
    | exact ⟨rfl, rfl, fun _ hp ↦ .inr (.inr ⟨(Sum.inl.inj hp).symm, _, rfl⟩)⟩
    | exact ⟨rfl, rfl, fun _ hp ↦ by cases hp⟩

variable [DecidableEq Λ]

theorem rank_lt_of_act (h : s.act P me ok pc = some a) {l m : Lock N Λ} (ha : a.lock = .acquire l)
    (hm : m ∈ pc.holds P me) : m.rank < l.rank := by
  revert h ha hm
  fun_cases s.act P me ok pc <;> intro h ha hm <;> cases h <;> cases ha
  all_goals first
    | cases hm; done
    | (cases mem_singleton.1 hm; exact Nat.zero_lt_one)
    | (cases mem_singleton.1 hm; exact Nat.one_lt_two)
    | (cases mem_singleton.1 hm; cases ‹Reason κ› <;> exact Nat.zero_lt_one)
    | (cases mem_singleton.1 hm; cases ‹Waker N κ› <;> exact Nat.zero_lt_one)

/-- The process on `c` is in user space, or it is the first one and calls `kexit`. -/
def Outside (P : Setup N κ Λ) (s : Kernel N C κ Λ) (c : Fin C) : Prop :=
  ∃ p, s.on c = some p ∧ (s.thread (.inl p) = ⟨.user, none⟩ ∨
    p = P.initproc ∧ ∃ status, s.thread (.inl p) = ⟨.exitWait status, none⟩)

namespace Disciplined

variable (hs : Disciplined P s)
include hs

/-- A thread on a CPU has a next instruction, unless it is outside the kernel. -/
theorem act_or_outside (c : Fin C) (ok : Bool) : (∃ a, s.Acts P c ok a) ∨ s.Outside P c := by
  cases hact : s.act P (s.current c) ok (s.top c) with
  | some a => exact .inl ⟨a, hact⟩
  | none =>
    right
    cases hon : s.on c with
    | none =>
      -- the scheduler has an instruction everywhere
      rw [current_of_idle hon, top_of_idle hon] at hact
      obtain ⟨hsched, hraise, -⟩ := act_eq_none hact
      have hth : s.thread (.inr c) = ⟨_, none⟩ := hs.thread_eq rfl hraise
      have hbase := hs.base (.inr c)
      rw [hth] at hbase
      exact absurd hbase (ne_true_of_eq_false hsched)
    | some p =>
      rw [current_of_on hon, top_of_on hon] at hact
      obtain hpc | hpc | ⟨hp, status, hpc⟩ := (act_eq_none hact).2.2 p rfl
      · exact ⟨p, hon, .inl (hs.thread_eq hpc rfl)⟩
      · -- who has left by `kexit` is on no CPU
        have hth := hs.thread_eq hpc rfl
        obtain hrun | ⟨-, hexit⟩ := hs.state_of_on hon
        · have hpc := hs.not_isExit_of_running hrun
          rw [hth] at hpc
          cases hpc
        · rw [hth] at hexit
          cases hexit
      · exact ⟨p, hon, .inr ⟨hp, status, hs.thread_eq hpc rfl⟩⟩

theorem only_lock {l : Lock N Λ} (h : (s.top c).holds P (s.current c) = {l}) :
    s.lock l = some c ∧ s.noff c = 1 :=
  ⟨(hs.lock_iff c l).2 (h ▸ mem_singleton_self l),
    by rw [hs.noff_eq, h, card_singleton]⟩

/-- Who calls `sched` is not `RUNNING` any more. -/
theorem not_running_of_leaves {p : Fin N} {e : Effect N κ} {next : Pc N κ} (hon : s.on c = some p)
    (h : Leaves P p (s.top c) e next) : (s.slotsAfter e p).state ≠ .running := by
  generalize htop : s.top c = pc at h
  cases h with
  | sleep w => rw [slotsAfter_self rfl]; nofun
  | yield => rw [slotsAfter_self rfl]; nofun
  | exit =>
    have hth := hs.thread_eq (top_of_on hon ▸ htop) rfl
    intro hrun
    have hexit := hs.not_isExit_of_running hrun
    rw [hth] at hexit
    cases hexit

theorem canSwtch_of_acts (hact : s.Acts P c ok a) :
    s.canSwtch c a.effect a.swtch = true := by
  obtain h | ⟨p, hme, h, -, hleaves⟩ | ⟨j, js, -, -, h, -⟩ := swtch_cases hact
  · rw [h]; rfl
  · -- in `sched`, `p->lock` is held and nothing else
    obtain ⟨hlock, hnoff⟩ := hs.only_lock (hme ▸ hleaves.holds_eq)
    have hrun := hs.not_running_of_leaves (on_of_current hme) hleaves
    simp [h, canSwtch, mayInterrupt, on_of_current hme, hlock, hnoff, hrun]
  · rw [h]; rfl

/-- A lock that is released is held, so interrupts are off. -/
theorem release_held (hact : s.Acts P c ok a) {l : Lock N Λ} (hl : a.lock = .release l) :
    s.canLock c (.release l) = true := by
  have hstay : a.swtch = .stay := by
    obtain h | ⟨p, -, -, h, -⟩ | ⟨j, js, -, -, -, h, -⟩ := swtch_cases hact
    · exact h
    all_goals rw [hl] at h; cases h
  have hchange := changes_of_act hact hstay
  rw [hl] at hchange
  have hnoff : 0 < s.noff c := by
    rw [hs.noff_eq]
    exact card_pos.2 ⟨l, hchange.1⟩
  simp [canLock, mayInterrupt, (hs.lock_iff c l).2 hchange.1, hnoff.ne', Nat.one_le_iff_ne_zero]

variable [DecidableEq κ]

/-- An instruction is executed, unless it acquires a lock that another CPU has. -/
theorem exec_or_spins (hact : s.Acts P c ok a) : (s.exec P c ok).isSome ∨
    ∃ l d, a.lock = .acquire l ∧ s.lock l = some d ∧ d ≠ c := by
  by_cases hcan : s.canLock c a.lock = true
  · left
    have hact' : s.act P (s.current c) ok (s.thread (s.current c)).top = some a := hact
    rw [exec, hact', bind_some, if_pos ⟨hcan, hs.canSwtch_of_acts hact⟩]
    rfl
  · right
    cases hl : a.lock with
    | none => rw [hl] at hcan; exact absurd rfl hcan
    | release l => rw [hl] at hcan; exact absurd (hs.release_held hact hl) hcan
    | acquire l =>
      rw [hl] at hcan
      obtain ⟨d, hd⟩ := ne_none_iff_exists'.1 fun h ↦ hcan (decide_eq_true h)
      refine ⟨l, d, rfl, hd, ?_⟩
      rintro rfl
      exact absurd (rank_lt_of_act hact hl ((hs.lock_iff d l).1 hd)) (lt_irrefl _)

/-- The holder of a lock goes on, or it waits for a lock of higher rank. -/
theorem holder_goes_on (ok : Bool) {l : Lock N Λ} (hl : s.lock l = some c) :
    (s.exec P c ok).isSome ∨ ∃ m d, l.rank < m.rank ∧ s.lock m = some d := by
  have hmem := (hs.lock_iff c l).1 hl
  obtain ⟨a, hact⟩ | ⟨p, hon, hout⟩ := hs.act_or_outside c ok
  · obtain h | ⟨m, d, hm, hd, -⟩ := hs.exec_or_spins hact
    · exact .inl h
    · exact .inr ⟨m, d, rank_lt_of_act hact hm hmem, hd⟩
  · rw [top_of_on hon] at hmem
    obtain hth | ⟨-, status, hth⟩ := hout <;> rw [hth] at hmem <;> cases hmem

end Disciplined

variable [DecidableEq κ] {cond : κ → Bool} {es : List (KernelEvent C κ)}

/-- **The spinlocks cannot deadlock.** In every state of every run in which a CPU is in the kernel,
some CPU can execute its next instruction. -/
theorem deadlock_free (h : runSteps (step P) (boot P C cond) es = some s) (hc : ¬s.Outside P c)
    (ok : Bool) : ∃ d, (s.exec P d ok).isSome := by
  have hs := disciplined_run h
  obtain ⟨a, hact⟩ := (hs.act_or_outside c ok).resolve_right hc
  obtain hgo | ⟨l, d, -, hl, -⟩ := hs.exec_or_spins hact
  · exact ⟨c, hgo⟩
  obtain hgo | ⟨m, e, hlm, hm⟩ := hs.holder_goes_on ok hl
  · exact ⟨d, hgo⟩
  obtain hgo | ⟨n, f, hmn, hn⟩ := hs.holder_goes_on ok hm
  · exact ⟨e, hgo⟩
  obtain hgo | ⟨k, g, hnk, -⟩ := hs.holder_goes_on ok hn
  · exact ⟨f, hgo⟩
  -- there are three ranks only
  have hk : k.rank ≤ 2 := by cases k <;> simp [Lock.rank]
  omega

theorem deadlock_free_spinning :
    ∃ s, runSteps (step (oneCond 0)) (boot (oneCond (0 : Fin 1)) 2 fun _ ↦ false)
        [.exec 0 true] = some s ∧ s.on 1 = none ∧ ∃ d, (s.exec (oneCond 0) d true).isSome := by
  have hrun : ∃ s ∈ runSteps (step (oneCond 0)) (boot (oneCond (0 : Fin 1)) 2 fun _ ↦ false)
      [.exec 0 true], s.on 1 = none := by decide +kernel
  obtain ⟨s, hs, hon⟩ := hrun
  refine ⟨s, hs, hon, deadlock_free hs (c := 1) ?_ true⟩
  rintro ⟨p, hp, -⟩
  rw [hon] at hp
  cases hp

/-- **A context switch hands over `p->lock`.** The only lock that a CPU holds when it changes to
another thread is the one of the process it leaves or enters, and the CPU keeps it: the thread it
changes to releases it. A process that is entered was on no CPU, one that is left is on none. -/
theorem swtch_hands_over (h : runSteps (step P) (boot P C cond) es = some s)
    {e : KernelEvent C κ} (hstep : s.step P e = some t) (hon : t.on c ≠ s.on c) :
    ∃ p, s.lock (.proc p) = some c ∧ t.lock (.proc p) = some c ∧ s.noff c = 1 ∧ t.noff c = 1 ∧
      (s.on c = none ∧ s.Off p ∧ (s.slot p).state = .runnable ∧
        t.on c = some p ∧ (t.slot p).state = .running ∧
        (t.top c = .yieldUnlock ∨ ∃ w, t.top c = .sleepTidy w) ∨
      s.on c = some p ∧ t.on c = none ∧ t.Off p ∧ (t.slot p).state ≠ .running ∧
        ∃ js, t.top c = .schedBack p js) := by
  have hs := disciplined_run h
  cases step_cases hstep with
  | call | interrupt | preempt => exact absurd rfl hon
  | @exec d ok a hact hcan =>
    obtain rfl : c = d := by
      by_contra hcd
      exact hon (perform_on_of_ne hcd)
    have hkeep : a.lock = .none → (s.perform c a).lock = s.lock ∧ (s.perform c a).noff = s.noff :=
      fun hl ↦ by simp only [perform, hl, lockAfter, noffAfter, and_self]
    have hsw : (s.perform c a).on = s.onAfter c a.swtch := rfl
    obtain hstay | ⟨p, hme, hleave, hl, hleaves⟩ | ⟨p, js, htop, hrun, hto, hl, heff, -⟩ :=
      swtch_cases hact
    · rw [hsw, hstay] at hon
      exact absurd rfl hon
    · obtain ⟨hlk, hnoff⟩ := hs.only_lock (hme ▸ hleaves.holds_eq)
      have hoff := hs.off_of_leave (on_of_current hme) hleave
      have hidle : (s.perform c a).on c = none := by
        rw [hsw, hleave]
        exact Function.update_self _ _ _
      obtain ⟨js, hjs⟩ := hs.back c p (on_of_current hme)
      refine ⟨p, hlk, by rwa [(hkeep hl).1], hnoff, by rwa [(hkeep hl).2],
        .inr ⟨on_of_current hme, hidle, hoff, fun hr ↦ ?_, js, ?_⟩⟩
      · have hplace := (hs.step hstep).place p
        rw [hr] at hplace
        cases hplace with
        | running d hd => exact hoff d hd
      · rw [top_of_idle hidle, perform_thread_of_ne (by rw [hme]; exact Sum.inr_ne_inl)
          (fun _ _ ↦ Sum.inr_ne_inl), hjs]
        rfl
    · obtain ⟨hidle, -⟩ := hs.scheduler_eq htop
      obtain ⟨hlk, hnoff⟩ := hs.only_lock (by rw [htop]; rfl)
      have hp : (s.perform c a).on c = some p := by
        rw [hsw, hto]
        exact Function.update_self _ _ _
      refine ⟨p, hlk, by rwa [(hkeep hl).1], hnoff, by rwa [(hkeep hl).2], .inl ⟨hidle,
        hs.off_of_state (by simp [hrun]) (by simp [hrun]), hrun, hp, ?_, ?_⟩⟩
      · rw [Disciplined.perform_slot heff rfl]
      · rw [top_of_on hp, perform_thread_of_ne (by rw [current_of_idle hidle]; exact Sum.inl_ne_inr)
          (fun j hj ↦ by rw [heff] at hj; cases hj)]
        have hplace := hs.place p
        rw [hrun] at hplace
        cases hplace with
        | woken w hoff hth => exact .inr ⟨w, by rw [hth]; rfl⟩
        | ready hoff htop => exact .inl htop

theorem swtch_hands_over_first :
    ∃ s t, runSteps (step (oneCond 0)) (boot (oneCond (0 : Fin 1)) 1 fun _ ↦ false)
        [.exec 0 true] = some s ∧ s.step (oneCond 0) (.exec 0 true) = some t ∧
      ∃ p, s.lock (.proc p) = some 0 ∧ t.lock (.proc p) = some 0 := by
  have hrun : ∃ s ∈ runSteps (step (oneCond 0)) (boot (oneCond (0 : Fin 1)) 1 fun _ ↦ false)
      [.exec 0 true], ∃ t ∈ s.step (oneCond 0) (.exec 0 true), t.on 0 ≠ s.on 0 := by
    decide +kernel
  obtain ⟨s, hs, t, ht, hon⟩ := hrun
  obtain ⟨p, hp, hp', -⟩ := swtch_hands_over hs ht hon
  exact ⟨s, t, hs, ht, p, hp, hp'⟩

end Kernel

end Xv6

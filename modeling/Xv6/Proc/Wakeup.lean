import Xv6.Proc.Locks

/-!
# No wakeup is lost

A process dozes (`Kernel.Dozes`) from the moment at which `sleep` has released the condition lock
until somebody has set it `RUNNABLE`. From the beginning to the end of this time either the process
or the CPU that has just left it holds `p->lock`, or the process is `SLEEPING` on its channel; so
the visit of a `wakeup` on this channel always ends it. That is all `sleep` and `wakeup` contribute:
a process that begins to doze does so under the condition lock (`Disciplined.dozes_perform`).
-/

namespace Xv6

open Function Option Finset

variable {N C : ℕ} {κ Λ : Type}

namespace Pc

/-- A `wakeup` on `ch`, called with the lock `l`, is still going to visit `p`. -/
def Wakes (P : Setup N κ Λ) (p : Fin N) (ch : Chan N) (l : Lock N Λ) : Pc N κ → Prop
  | wakeup y js => y.chan P = some ch ∧ y.lock P = l ∧ p ∈ js
  | wakeupVisit y j js => y.chan P = some ch ∧ y.lock P = l ∧ (p = j ∨ p ∈ js)
  | _ => False

/-- The condition that is being waited for. -/
def waitsFor : Pc N κ → Option κ
  | condTest k => some k
  | sleepLock (.cond k) | sleepUnlock (.cond k) | sleepSwtch (.cond k) | sleepTidy (.cond k)
  | sleepRelock (.cond k) => some k
  | _ => none

/-- The process has seen that it has to wait, and still holds the lock under which it looked. -/
def decided : Pc N κ → Option (Reason κ)
  | sleepLock w | sleepUnlock w => some w
  | _ => none

end Pc

namespace Kernel

variable {P : Setup N κ Λ} {s t : Kernel N C κ Λ} {c : Fin C} {p : Fin N}

/-- The process has released the condition lock in `sleep` and is not woken up. -/
def Dozes (s : Kernel N C κ Λ) (p : Fin N) (w : Reason κ) : Prop :=
  s.thread (.inl p) = ⟨.sleepSwtch w, none⟩ ∨
    (s.slot p).state = .sleeping ∧ s.thread (.inl p) = ⟨.sleepTidy w, none⟩

theorem unlock_of_act {me : Fin N ⊕ Fin C} {ok : Bool} {pc : Pc N κ} {a : Action N κ Λ}
    {w : Reason κ} (h : s.act P me ok pc = some a) (hnext : a.next = .sleepSwtch w) :
    pc = .sleepUnlock w := by
  revert h hnext
  fun_cases s.act P me ok pc <;> intro h hnext <;> cases h
  all_goals first
    | (cases hnext; rfl)
    | (cases ‹Reason κ› <;> cases hnext)
    | (cases ‹Waker N κ› <;> cases hnext)

theorem swtch_of_act {me : Fin N ⊕ Fin C} {ok : Bool} {pc : Pc N κ} {a : Action N κ Λ}
    {w : Reason κ} (h : s.act P me ok pc = some a) (hnext : a.next = .sleepTidy w) :
    pc = .sleepSwtch w := by
  revert h hnext
  fun_cases s.act P me ok pc <;> intro h hnext <;> cases h
  all_goals first
    | (cases hnext; rfl)
    | (cases ‹Reason κ› <;> cases hnext)
    | (cases ‹Waker N κ› <;> cases hnext)

namespace Disciplined

variable [DecidableEq Λ] (hs : Disciplined P s)

include hs

/-- A process that is at no place where one waits for a CPU is executed by one. -/
theorem on_of_pc {pc : Pc N κ} (hth : s.thread (.inl p) = ⟨pc, none⟩) (hpc : pc.isParked = false) :
    ∃ c, s.on c = some p := by
  have hne : ∀ {q : Pc N κ}, q.isParked = true → s.thread (.inl p) ≠ ⟨q, none⟩ := by
    intro q hq h
    rw [hth] at h
    cases h
    rw [hpc] at hq
    cases hq
  have hplace := hs.place p
  revert hplace
  generalize (s.slot p).state = state
  intro hplace
  cases hplace with
  | unused h hth' => exact (hth'.elim (hne rfl) (hne rfl)).elim
  | used h hth' | dead h hth' => exact absurd hth' (hne rfl)
  | sleeping w h hth' hchan => exact absurd hth' (hne rfl)
  | woken w h hth' => exact absurd hth' (hne rfl)
  | ready h htop hexit =>
    rw [hth] at htop
    cases htop
    cases hpc
  | running c hon hexit => exact ⟨c, hon⟩
  | dying c hon hth' => exact ⟨c, hon⟩

/-- What a process on a CPU holds is held by that CPU. -/
theorem lock_of_pc {pc : Pc N κ} (hth : s.thread (.inl p) = ⟨pc, none⟩) (hpc : pc.isParked = false)
    {l : Lock N Λ} (hl : l ∈ pc.holds P (.inl p : Fin N ⊕ Fin C)) :
    ∃ c, s.on c = some p ∧ s.lock l = some c := by
  obtain ⟨c, hon⟩ := hs.on_of_pc hth hpc
  refine ⟨c, hon, ?_⟩
  rw [hs.lock_iff, top_of_on hon, current_of_on hon, hth]
  exact hl

/-- A lock that a process holds outside handlers is held by its CPU, and keeps interrupts out. -/
theorem lock_of_base {l : Lock N Λ}
    (hl : l ∈ (s.thread (.inl p)).pc.holds P (.inl p : Fin N ⊕ Fin C))
    (hpc : (s.thread (.inl p)).pc.isParked = false) :
    (s.thread (.inl p)).intr = none ∧ ∃ d, s.on d = some p ∧ s.lock l = some d := by
  have hintr : (s.thread (.inl p)).intr = none := by
    by_contra hintr
    rw [hs.buried _ hintr] at hl
    cases hl
  have hth : s.thread (.inl p) = ⟨(s.thread (.inl p)).pc, none⟩ := by rw [← hintr]
  exact ⟨hintr, hs.lock_of_pc hth hpc hl⟩

variable [DecidableEq κ] {a : Action N κ Λ} {ok : Bool}

omit hs in
/-- A process that another one leaves asleep was asleep, and on another channel. -/
theorem sleeping_perform (hact : s.Acts P c ok a)
    (hme : .inl p ≠ s.current c) (h : ((s.perform c a).slot p).state = .sleeping) :
    (s.slot p).state = .sleeping ∧
      ∀ y js, s.top c = .wakeupVisit y p js → (s.slot p).chan ≠ y.chan P := by
  by_cases htarget : a.effect.target = some p
  · have hrow := row_of_act hact
    obtain ⟨b, ha⟩ : ∃ b, a = b := ⟨a, rfl⟩
    rw [ha] at hrow
    generalize htop : s.top c = pc, hcur : s.current c = me at hrow
    have heff : a.effect = b.effect := congrArg Action.effect ha
    rw [heff] at htarget
    cases hrow with
    | quiet heffect hswtch =>
      rw [heffect] at htarget
      cases htarget
    | raise | done | seeTrue | seeFalse | leave => cases htarget
    | wake me y j js =>
      cases htarget
      rw [perform_slot heff rfl, Slot.wake] at h
      split_ifs at h with hmatch
      refine ⟨h, fun y' js' hy hchan ↦ ?_⟩
      cases hy
      exact hmatch ⟨h, hchan⟩
    | kill me j js =>
      cases htarget
      rw [perform_slot heff rfl, Slot.kill] at h
      split_ifs at h with hsleep
      exact absurd h hsleep
    | adopt p' np | reparent me status pp pps hpp =>
      cases htarget
      rw [perform_slot heff rfl] at h
      refine ⟨h, fun y js hy ↦ ?_⟩
      cases hy
    | sleep p' w | tidy p' w | yield p' | die p' status =>
      cases htarget
      exact absurd hcur.symm hme
    | alloc me j js hj | free me np | start me np | reap p' addr j js ok hj hcopy
    | run me j js hj =>
      cases htarget
      rw [perform_slot heff rfl] at h
      cases h
  · rw [show (s.perform c a).slot p = s.slot p from slotsAfter_of_ne htarget] at h
    refine ⟨h, fun y js hy ↦ ?_⟩
    rw [Acts, hy] at hact
    cases hact
    exact absurd rfl htarget

/-- **Dozing.** A process begins to doze when it releases the lock in `sleep`, and stops when a
`wakeup` on its channel visits it. -/
theorem dozes_perform {w : Reason κ} (hact : s.Acts P c ok a) (h : (s.perform c a).Dozes p w) :
    (s.Dozes p w ∧ ∀ y js, s.top c = .wakeupVisit y p js → y.chan P ≠ some (w.chan P p)) ∨
      s.current c = .inl p ∧ s.thread (.inl p) = ⟨.sleepUnlock w, none⟩ := by
  by_cases hme : .inl p = s.current c
  · -- Its own step: nothing that holds `p->lock` is returned to from a handler.
    have hself : ∀ {pc : Pc N κ}, (s.perform c a).thread (.inl p) = ⟨pc, none⟩ →
        pc.holds P (.inl p : Fin N ⊕ Fin C) ≠ ∅ →
        a.next = pc ∧ s.thread (.inl p) = ⟨s.top c, none⟩ := by
      intro pc hth hne
      rw [hme, perform_thread_self] at hth
      rcases (s.thread (s.current c)).goto_cases a.next with ⟨hintr, hg⟩ | ⟨hintr, -, hg⟩ |
        ⟨-, -, hg⟩
      · rw [hg] at hth
        cases hth
        refine ⟨rfl, ?_⟩
        rw [hme, top, Thread.top_of_none hintr, ← hintr]
      · rw [hg] at hth
        cases hth
        have hempty := hs.buried _ hintr
        rw [← hme] at hempty hne
        exact absurd hempty hne
      · rw [hg] at hth
        cases hth
    rcases h with hth | ⟨-, hth⟩
    · obtain ⟨hnext, hold⟩ := hself hth (insert_ne_empty _ _)
      rw [unlock_of_act hact hnext] at hold
      exact .inr ⟨hme.symm, hold⟩
    · obtain ⟨hnext, hold⟩ := hself hth (insert_ne_empty _ _)
      have htop := swtch_of_act hact hnext
      rw [htop] at hold
      refine .inl ⟨.inl hold, fun y js hy ↦ ?_⟩
      rw [htop] at hy
      cases hy
  · have hthread : ∀ {pc : Pc N κ}, (s.perform c a).thread (.inl p) = ⟨pc, none⟩ →
        pc.isYield = false → s.thread (.inl p) = ⟨pc, none⟩ := by
      intro pc hth hne
      refine (perform_thread_of_ne hme fun j hj hjp ↦ ?_).symm.trans hth
      rw [← Sum.inl.inj hjp] at hj
      have hnew : (s.perform c a).thread (.inl p) = ⟨.yieldUnlock, none⟩ := by
        refine (update_of_ne hme _ _).trans ?_
        rw [hj]
        exact update_self _ _ _
      rw [hnew] at hth
      cases hth
      cases hne
    rcases h with hth | ⟨hstate, hth⟩
    · have hold := hthread hth rfl
      refine .inl ⟨.inl hold, fun y js hy ↦ ?_⟩
      -- Nobody else can hold `p->lock`.
      obtain ⟨d, hon, hlock⟩ := hs.lock_of_pc (l := .proc p) hold rfl (mem_insert_self _ _)
      have hc : s.lock (.proc p) = some c := by
        rw [hs.lock_iff, hy]
        exact mem_insert_self _ _
      rw [hlock, some_inj] at hc
      subst hc
      exact absurd (current_of_on hon).symm hme
    · have hold := hthread hth rfl
      obtain ⟨hsleep, hwake⟩ := sleeping_perform hact hme hstate
      refine .inl ⟨.inr ⟨hsleep, hold⟩, fun y js hy hchan ↦ hwake y js hy ?_⟩
      have hplace := hs.place p
      rw [hsleep] at hplace
      cases hplace with
      | sleeping w' hoff hth' hchan' =>
        rw [hold] at hth'
        cases hth'
        rw [hchan, hchan']

omit hs in
theorem top_perform (hstay : a.swtch = .stay) (hnext : a.next ≠ .user) :
    (s.perform c a).top c = a.next := by
  have hcur : (s.perform c a).current c = s.current c := by
    rw [current, current, Kernel.perform, hstay]
    rfl
  rw [top, hcur, perform_thread_self]
  rcases (s.thread (s.current c)).goto_cases a.next with ⟨-, h⟩ | ⟨-, h, -⟩ | ⟨-, -, h⟩
  · rw [h]
    rfl
  · exact absurd h hnext
  · rw [h]
    rfl

omit [DecidableEq κ] in
theorem lock_of_wakes {ch : Chan N} {l : Lock N Λ} (h : (s.top c).Wakes P p ch l) :
    s.lock l = some c := by
  rw [hs.lock_iff]
  cases htop : s.top c with
  | wakeup y js =>
    rw [htop] at h
    rw [← h.2.1]
    exact mem_singleton_self _
  | wakeupVisit y j js =>
    rw [htop] at h
    rw [← h.2.1]
    exact mem_insert_of_mem (mem_singleton_self _)
  | _ =>
    rw [htop] at h
    exact h.elim

/-- A `wakeup` goes on to visit `p` until it does. -/
theorem wakes_perform (hact : s.Acts P c ok a) {d : Fin C}
    {ch : Chan N} {l : Lock N Λ} (h : (s.top d).Wakes P p ch l) :
    ((s.perform c a).top d).Wakes P p ch l ∨
      ∃ y js, s.top c = .wakeupVisit y p js ∧ y.chan P = some ch := by
  rw [Acts] at hact
  by_cases hd : d = c
  · subst hd
    cases htop : s.top d with
    | wakeup y js =>
      rw [htop] at h hact
      obtain ⟨hch, hl, hp⟩ := h
      cases js with
      | nil => cases hp
      | cons j js =>
        cases hact
        refine .inl ?_
        rw [top_perform rfl fun h ↦ by cases h]
        exact ⟨hch, hl, List.mem_cons.1 hp⟩
    | wakeupVisit y j js =>
      rw [htop] at h hact
      obtain ⟨hch, hl, rfl | hp⟩ := h
      · exact .inr ⟨y, js, rfl, hch⟩
      · cases hact
        refine .inl ?_
        rw [top_perform rfl fun h ↦ by cases h]
        exact ⟨hch, hl, hp⟩
    | _ =>
      rw [htop] at h
      exact h.elim
  · rw [(hs.perform_other hact hd).2]
    exact .inl h

omit [DecidableEq κ] in
/-- A process that still executes in `sleep` has the `swtch` before it. -/
theorem top_of_dozes {w : Reason κ} (h : s.Dozes p w) (hme : s.current c = .inl p) :
    s.top c = .sleepSwtch w := by
  rcases h with hth | ⟨hsleep, -⟩
  · rw [top, hme, hth]
    rfl
  · rcases hs.state_of_on (on_of_current hme) with hr | ⟨hr, -⟩ <;> cases hsleep.symm.trans hr

/-- A `wakeup` that begins has every sleeper before it. -/
theorem wakes_of_next {w : Reason κ} {y : Waker N κ} {ch : Chan N} {l : Lock N Λ}
    (hold : s.Dozes p w) (htop : s.top c ≠ .sleepSwtch w) (hstay : a.swtch = .stay)
    (hnext : a.next = .wakeup y (others (s.current c))) (hch : y.chan P = some ch)
    (hl : y.lock P = l) : ((s.perform c a).top c).Wakes P p ch l := by
  rw [top_perform hstay (by rw [hnext]; nofun), hnext]
  refine ⟨hch, hl, List.mem_filter.2 ⟨List.mem_finRange p, decide_eq_true fun hme ↦ ?_⟩⟩
  exact htop (hs.top_of_dozes hold hme.symm)

omit [DecidableEq κ] hs in
/-- Who is diverted does not doze. -/
theorem dozes_divert {th : Thread N κ} {w : Reason κ} (hnew : th.top.holds P (s.current c) = ∅)
    (h : (s.divert c th).Dozes p w) : s.Dozes p w := by
  by_cases hme : .inl p = s.current c
  · have hth : (s.divert c th).thread (.inl p) = th := by rw [hme, divert_thread_self]
    have hne : ∀ {pc : Pc N κ}, th = ⟨pc, none⟩ → pc.holds P (s.current c) = ∅ := by
      rintro pc rfl
      exact hnew
    rw [← hme] at hne
    rcases h with h | ⟨-, h⟩
    · exact absurd (hne (hth.symm.trans h)) (insert_ne_empty _ _)
    · exact absurd (hne (hth.symm.trans h)) (insert_ne_empty _ _)
  · rcases h with h | ⟨hstate, h⟩
    · exact .inl ((divert_thread_of_ne th hme).symm.trans h)
    · exact .inr ⟨hstate, (divert_thread_of_ne th hme).symm.trans h⟩

omit [DecidableEq κ] in
/-- Who calls `wakeup` is not diverted. -/
theorem top_divert_of_wakes {th : Thread N κ} {ch : Chan N} {l : Lock N Λ} {d : Fin C}
    (hold : (s.top c).holds P (s.current c) = ∅) (h : (s.top d).Wakes P p ch l) :
    (s.divert c th).top d = s.top d := by
  have hd : d ≠ c := by
    rintro rfl
    have hlock := hs.lock_of_wakes h
    rw [hs.lock_iff, hold] at hlock
    cases hlock
  show ((s.divert c th).thread (s.current d)).top = _
  rw [divert_thread_of_ne th (hs.current_ne hd), top]

end Disciplined

/-! ### Conditions -/

/-- Who waits for a condition has seen that it is false, and will see it again or be woken up. -/
structure Attentive (P : Setup N κ Λ) (s : Kernel N C κ Λ) : Prop where
  decided : ∀ p k, (s.thread (.inl p)).pc.decided = some (.cond k) → s.cond k = false
  dozing : ∀ p k, s.Dozes p (.cond k) →
    s.cond k = false ∨ ∃ d, (s.top d).Wakes P p (P.chan k) (.cond (P.lk k))
  loop : ∀ p k, s.last p k = false → (s.thread (.inl p)).pc.waitsFor = some k

theorem boot_thread (cond : κ → Bool) (p : Fin N) :
    (boot P C cond).thread (.inl p) = ⟨.yieldUnlock, none⟩ ∨
      (boot P C cond).thread (.inl p) = ⟨.exited, none⟩ := by
  show (⟨if p = P.initproc then _ else _, none⟩ : Thread N κ) = _ ∨
    (⟨if p = P.initproc then _ else _, none⟩ : Thread N κ) = _
  split_ifs
  · exact .inl rfl
  · exact .inr rfl

theorem attentive_boot (cond : κ → Bool) : Attentive P (boot P C cond) := by
  have hpc : ∀ p, (boot P C cond).thread (.inl p) = ⟨.yieldUnlock, none⟩ ∨
      (boot P C cond).thread (.inl p) = ⟨.exited, none⟩ := boot_thread cond
  refine ⟨fun p k h ↦ ?_, fun p k h ↦ ?_, nofun⟩
  · rcases hpc p with hp | hp <;> rw [hp] at h <;> cases h
  · rcases hpc p with hp | hp <;> rcases h with h | ⟨-, h⟩ <;> rw [hp] at h <;> cases h

section Act

variable {me : Fin N ⊕ Fin C} {ok : Bool} {pc : Pc N κ} {a : Action N κ Λ}

theorem decided_of_act {w : Reason κ} (h : s.act P me ok pc = some a)
    (hnext : a.next.decided = some w) :
    pc.decided = some w ∨ (∃ k, w = .cond k ∧ pc = .condTest k ∧ s.cond k = false) ∨
      ∃ addr, w = .child addr ∧ pc = .waitCheck addr := by
  revert h hnext
  fun_cases s.act P me ok pc <;> intro h hnext <;> cases h
  all_goals first
    | exact .inl hnext
    | (cases hnext; exact .inr (.inl ⟨_, rfl, rfl, Bool.eq_false_of_not_eq_true ‹_›⟩))
    | (cases hnext; exact .inr (.inr ⟨_, rfl, rfl⟩))
    | (cases ‹Reason κ› <;> cases hnext)
    | (cases ‹Waker N κ› <;> cases hnext)

theorem waitsFor_of_act {k : κ} (h : s.act P me ok pc = some a) (hpc : pc.waitsFor = some k) :
    a.next.waitsFor = some k ∨ ∃ p, me = .inl p ∧ a.effect = .see p k true := by
  revert h hpc
  fun_cases s.act P me ok pc <;> intro h hpc <;> cases h
  all_goals first
    | exact .inl hpc
    | (cases hpc; exact .inr ⟨_, rfl, rfl⟩)
    | (cases ‹Reason κ› <;> exact .inl hpc)
    | cases hpc

variable [DecidableEq κ]

/-- A condition changes under its lock; it becomes true where `wakeup` is called next. -/
theorem cond_perform [DecidableEq Λ] (hact : s.Acts P c ok a) (k : κ) :
    (s.perform c a).cond k = s.cond k ∨ (s.perform c a).cond k = false ∨
      s.top c = .raise k ∧ a.next = .wakeup (.raise k) (others (s.current c)) ∧
        a.swtch = .stay := by
  show s.condAfter a.effect k = s.cond k ∨ s.condAfter a.effect k = false ∨ _
  have hrow := row_of_act hact
  generalize htop : s.top c = pc, hcur : s.current c = me at hrow
  cases hrow with
  | quiet heffect hswtch =>
    rw [heffect]
    exact .inl rfl
  | raise me j =>
    by_cases hk : k = j
    · subst hk
      exact .inr (.inr ⟨rfl, rfl, rfl⟩)
    · exact .inl (update_of_ne hk _ _)
  | done me j ok =>
    by_cases hk : k = j
    · subst hk
      show update s.cond k (s.cond k && ok) k = _ ∨
        update s.cond k (s.cond k && ok) k = _ ∨ _
      rw [update_self]
      cases ok
      · exact .inr (.inl (Bool.and_false _))
      · exact .inl (Bool.and_true _)
    · exact .inl (update_of_ne hk _ _)
  | _ => exact .inl rfl

/-- Only an evaluation changes the record. -/
theorem last_perform (hact : s.Acts P c ok a) {p : Fin N} {k : κ}
    (h : s.lastAfter a.effect p k = false) :
    s.last p k = false ∧ a.effect ≠ .see p k true ∨
      s.current c = .inl p ∧ s.top c = .condTest k ∧ a.next = .sleepLock (.cond k) := by
  have hrow := row_of_act hact
  generalize htop : s.top c = pc, hcur : s.current c = me at hrow
  have hsee : ∀ q j b, a.effect = .see q j b → (p = q ∧ k = j ∧ b = false) ∨
      (s.last p k = false ∧ ¬ (p = q ∧ k = j)) := by
    intro q j b heff
    rw [heff, lastAfter] at h
    by_cases hp : p = q
    · subst hp
      rw [update_self] at h
      by_cases hk : k = j
      · subst hk
        rw [update_self] at h
        exact .inl ⟨rfl, rfl, h⟩
      · rw [update_of_ne hk] at h
        exact .inr ⟨h, fun hj ↦ hk hj.2⟩
    · rw [update_of_ne hp] at h
      exact .inr ⟨h, fun hj ↦ hp hj.1⟩
  cases hrow with
  | quiet heffect hswtch =>
    rw [heffect] at h ⊢
    exact .inl ⟨h, nofun⟩
  | seeTrue q j hcond =>
    rcases hsee q j true rfl with ⟨-, -, hb⟩ | ⟨hlast, hne⟩
    · cases hb
    · refine .inl ⟨hlast, fun heff ↦ hne ?_⟩
      cases heff
      exact ⟨rfl, rfl⟩
  | seeFalse q j hcond =>
    rcases hsee q j false rfl with ⟨rfl, rfl, -⟩ | ⟨hlast, hne⟩
    · exact .inr ⟨rfl, rfl, rfl⟩
    · exact .inl ⟨hlast, nofun⟩
  | _ => exact .inl ⟨h, nofun⟩

end Act

namespace Attentive

variable [DecidableEq κ] [DecidableEq Λ] {a : Action N κ Λ} {ok : Bool} (hi : Attentive P s)
  (hs : Disciplined P s)

include hi hs

omit [DecidableEq κ] hi in
/-- Who has decided to sleep holds the lock of the condition. -/
theorem lock_of_decided {k : κ} (h : (s.thread (.inl p)).pc.decided = some (.cond k)) :
    (s.thread (.inl p)).intr = none ∧ ∃ d, s.on d = some p ∧ s.lock (.cond (P.lk k)) = some d := by
  have hpc : Lock.cond (P.lk k) ∈ (s.thread (.inl p)).pc.holds P (.inl p : Fin N ⊕ Fin C) ∧
      (s.thread (.inl p)).pc.isParked = false := by
    generalize (s.thread (.inl p)).pc = pc at h
    cases pc with
    | sleepLock w =>
      cases h
      exact ⟨mem_singleton_self _, rfl⟩
    | sleepUnlock w =>
      cases h
      exact ⟨mem_insert_of_mem (mem_singleton_self _), rfl⟩
    | _ => cases h
  exact hs.lock_of_base hpc.1 hpc.2

theorem decided_perform (hact : s.Acts P c ok a) (p : Fin N) (k : κ)
    (h : ((s.perform c a).thread (.inl p)).pc.decided = some (.cond k)) :
    (s.perform c a).cond k = false := by
  -- The condition was false before.
  have hold : s.cond k = false ∧ s.top c ≠ .raise k := by
    rcases Disciplined.pc_perform s c a p with ⟨hpc, -⟩ | ⟨-, -, hth⟩ | ⟨-, hold, hnew⟩
    · rw [hpc] at h
      obtain ⟨hintr, d, hon, hlock⟩ := lock_of_decided hs h
      refine ⟨hi.decided p k h, fun htop ↦ ?_⟩
      have hc : s.lock (.cond (P.lk k)) = some c := by
        rw [hs.lock_iff, htop]
        exact mem_singleton_self _
      rw [hlock, some_inj] at hc
      subst hc
      rw [top_of_on hon, Thread.top_of_none hintr] at htop
      rw [htop] at h
      cases h
    · rw [hth] at h
      cases h
    · rw [hnew] at h
      rcases decided_of_act hact h with hdec | ⟨j, hj, htop, hcond⟩ | ⟨addr, haddr, -⟩
      · refine ⟨hi.decided p k (by rw [hold]; exact hdec), fun htop ↦ ?_⟩
        rw [htop] at hdec
        cases hdec
      · cases hj
        exact ⟨hcond, by rw [htop]; nofun⟩
      · cases haddr
  rcases cond_perform hact k with hsame | hfalse | ⟨htop, -⟩
  · exact hsame.trans hold.1
  · exact hfalse
  · exact absurd htop hold.2

theorem dozing_perform (hact : s.Acts P c ok a) (p : Fin N) (k : κ)
    (h : (s.perform c a).Dozes p (.cond k)) :
    (s.perform c a).cond k = false ∨
      ∃ d, ((s.perform c a).top d).Wakes P p (P.chan k) (.cond (P.lk k)) := by
  rcases hs.dozes_perform hact h with ⟨hold, hvisit⟩ | ⟨hme, hth⟩
  · rcases hi.dozing p k hold with hcond | ⟨d, hwakes⟩
    · rcases cond_perform hact k with hsame | hfalse | ⟨htop, hnext, hstay⟩
      · exact .inl (hsame.trans hcond)
      · exact .inl hfalse
      · -- The condition becomes true, and `wakeup` has the sleeper before it.
        exact .inr ⟨c, hs.wakes_of_next hold (by rw [htop]; nofun) hstay hnext rfl rfl⟩
    · rcases hs.wakes_perform hact hwakes with hw | ⟨y, js, htop, hchan⟩
      · exact .inr ⟨d, hw⟩
      · exact absurd hchan (hvisit y js htop)
  · -- The sleeper has just released the lock under which it looked.
    refine .inl (?_ : (s.perform c a).cond k = false)
    have hcond := hi.decided p k (by rw [hth]; rfl)
    rcases cond_perform hact k with hsame | hfalse | ⟨htop, -⟩
    · exact hsame.trans hcond
    · exact hfalse
    · rw [top, hme, hth] at htop
      cases htop

theorem loop_perform (hact : s.Acts P c ok a) (p : Fin N) (k : κ)
    (h : (s.perform c a).last p k = false) :
    ((s.perform c a).thread (.inl p)).pc.waitsFor = some k := by
  rcases last_perform hact h with ⟨hlast, hsee⟩ | ⟨hme, htop, hnext⟩
  · have hold := hi.loop p k hlast
    rcases Disciplined.pc_perform s c a p with ⟨hpc, -⟩ | ⟨-, halloc, -⟩ | ⟨hme, hth, hnew⟩
    · rw [hpc]
      exact hold
    · have hplace := hs.place p
      rw [unused_of_alloc hact halloc] at hplace
      cases hplace with
      | unused hoff hth => rcases hth with hth | hth <;> rw [hth] at hold <;> cases hold
    · rw [hth] at hold
      rw [hnew]
      refine (waitsFor_of_act hact hold).resolve_right ?_
      rintro ⟨q, hq, heff⟩
      rw [hme] at hq
      cases hq
      exact hsee heff
  · have hth := hs.thread_eq htop (by rw [hme]; rfl)
    rw [← hme, perform_thread_self, hth, hnext]
    rfl

theorem perform (hact : s.Acts P c ok a) : Attentive P (s.perform c a) where
  decided := hi.decided_perform hs hact
  dozing := hi.dozing_perform hs hact
  loop := hi.loop_perform hs hact

omit [DecidableEq κ] in
theorem divert {th : Thread N κ} (hold : (s.top c).holds P (s.current c) = ∅)
    (hnew : th.top.holds P (s.current c) = ∅)
    (hpc : th.pc = (s.thread (s.current c)).pc ∨
      th.pc.decided = none ∧ (s.thread (s.current c)).pc = .user) :
        Attentive P (s.divert c th) := by
  have hcase := fun p ↦ divert_pc th (c := c) (R := fun me pc ↦
    pc.decided = none ∧ (s.thread me).pc = .user) hpc (.inl p)
  refine ⟨fun p k h ↦ ?_, fun p k h ↦ ?_, fun p k h ↦ ?_⟩
  · rcases hcase p with hp | ⟨hp, -⟩
    · exact hi.decided p k (hp ▸ h)
    · cases hp.symm.trans h
  · refine (hi.dozing p k (Disciplined.dozes_divert hnew h)).imp_right fun ⟨d, hd⟩ ↦ ⟨d, ?_⟩
    rwa [hs.top_divert_of_wakes hold hd]
  · have hloop := hi.loop p k h
    rcases hcase p with hp | ⟨-, hp⟩
    · rwa [hp]
    · rw [hp] at hloop
      cases hloop

theorem step {e : KernelEvent C κ} (h : s.step P e = some t) : Attentive P t := by
  cases step_cases h with
  | exec hact hcan => exact hi.perform hs hact
  | call f hon huser =>
    refine hi.divert hs (holds_of_user huser) ?_ (.inr ⟨?_, by rw [huser]⟩)
    · cases f <;> rfl
    · cases f <;> rfl
  | interrupt c hnoff | preempt c hnoff =>
    exact hi.divert hs (hs.holds_of_noff hnoff) rfl (.inl rfl)

end Attentive

variable [DecidableEq κ] [DecidableEq Λ]

/-- **No wakeup is lost.** On any number of CPUs, in every state of every run in which a condition
holds and its lock is free, no process whose last evaluation of the condition was false is
`SLEEPING` on the channel of the condition. (While a waker is between its update and the end of its
`wakeup`, the lock is not free.) -/
theorem no_lost_wakeup {cond : κ → Bool} {es : List (KernelEvent C κ)}
    (h : runSteps (step P) (boot P C cond) es = some s) {k : κ} (hcond : s.cond k = true)
    (hfree : s.lock (.cond (P.lk k)) = none) (p : Fin N) (hlast : s.last p k = false) :
    ¬ ((s.slot p).state = .sleeping ∧ (s.slot p).chan = some (P.chan k)) := by
  rintro ⟨hsleep, -⟩
  have hs := disciplined_run h
  have hi : Attentive P s := (runSteps_invariant (I := fun s ↦ Disciplined P s ∧ Attentive P s)
    ⟨disciplined_boot cond, attentive_boot cond⟩
    (fun _ _ _ hr hstep ↦ ⟨hr.1.step hstep, hr.2.step hr.1 hstep⟩) h).2
  have hplace := hs.place p
  rw [hsleep] at hplace
  cases hplace with
  | sleeping w hoff hth hchan =>
    have hloop := hi.loop p k hlast
    rw [hth] at hloop
    cases w with
    | cond j =>
      cases hloop
      rcases hi.dozing p k (.inr ⟨hsleep, hth⟩) with hfalse | ⟨d, hd⟩
      · cases hcond.symm.trans hfalse
      · cases hfree.symm.trans (hs.lock_of_wakes hd)
    | child addr => cases hloop

/-- One condition; `p` is the first process. -/
def oneCond (p : Fin N) : Setup N Unit Unit := ⟨fun _ ↦ (), fun _ ↦ .other 0, p⟩

/-- `n` instructions. -/
def instrs (c : Fin C) (n : ℕ) : List (KernelEvent C Unit) := List.replicate n (.exec c true)

/-- The process waits for the condition, which an interrupt makes true while it sleeps. -/
def wokenUp (c : Fin C) : List (KernelEvent C Unit) :=
  instrs c 3 ++ [.call c (.await ())] ++ instrs c 6 ++ [.interrupt c ()] ++ instrs c 6

theorem no_lost_wakeup_wokenUp :
    ∃ s, runSteps (step (oneCond 0)) (boot (oneCond (0 : Fin 1)) 1 fun _ ↦ false) (wokenUp 0) =
        some s ∧ s.cond () = true ∧ s.lock (.cond ()) = none ∧ s.last 0 () = false ∧
      ¬ ((s.slot 0).state = .sleeping ∧ (s.slot 0).chan = some (.other 0)) := by
  have hrun : ∃ s ∈ runSteps (step (oneCond 0)) (boot (oneCond (0 : Fin 1)) 1 fun _ ↦ false)
      (wokenUp 0), s.cond () = true ∧ s.lock (.cond ()) = none ∧
        s.last 0 () = false := by decide +kernel
  obtain ⟨s, hs, hcond, hfree, hlast⟩ := hrun
  exact ⟨s, hs, hcond, hfree, hlast, no_lost_wakeup hs hcond hfree 0 hlast⟩

end Kernel

end Xv6

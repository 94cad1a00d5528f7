import Xv6.Proc.Wakeup

/-!
# The life of a process

`wait_lock` protects who is whose parent. A process that exits hands its children to the first
process before it becomes a zombie, and only a process itself makes children of its own; so a parent
is never a zombie and never an empty slot (`Kernel.Family`).
-/

namespace Xv6

open Function Option

variable {N C : ℕ} {κ Λ : Type}

/-- The process runs or is going to run. -/
def ProcState.isAlive : ProcState → Bool
  | sleeping | runnable | running => true
  | unused | used | zombie => false

/-- The slot whose parent an effect sets. -/
def Effect.adopts : Effect N κ → Option (Fin N)
  | adopt j _ => some j
  | _ => .none

namespace Pc

/-- `kfork` has made the process in this slot a child. -/
def published : Pc N κ → Option (Fin N)
  | forkLock np | forkRun np => some np
  | _ => none

/-- The slots that `kexit` has still to look at in `reparent`. -/
def reparents : Pc N κ → Option (List (Fin N))
  | exitReparent _ pps | wakeup (.reparent _ pps) _ | wakeupVisit (.reparent _ pps) _ _ => some pps
  | wakeup (.exit _ _) _ | wakeupVisit (.exit _ _) _ _ | exitLock _ | exitZombie _ => some []
  | _ => none

end Pc

namespace Kernel

variable {P : Setup N κ Λ} {s t : Kernel N C κ Λ} {c : Fin C} {p : Fin N}

/-- What an effect does to slot `j`. -/
inductive SlotChange (s : Kernel N C κ Λ) (j : Fin N) : Effect N κ → Slot N → Prop
  | keep {e : Effect N κ} {sl : Slot N}
      (hstate : sl.state = (s.slot j).state ∨
        (s.slot j).state = .sleeping ∧ sl.state = .runnable)
      (hdata : sl.parent = (s.slot j).parent ∧ sl.pid = (s.slot j).pid ∧
        sl.xstate = (s.slot j).xstate)
      (hkilled : e = .kill j ∨ sl.killed = (s.slot j).killed ∧ e ≠ .alloc j) : SlotChange s j e sl
  | sleep (ch : Chan N) :
      SlotChange s j (.sleep j ch) { s.slot j with chan := some ch, state := .sleeping }
  | yield : SlotChange s j (.yield j) { s.slot j with state := .runnable }
  | alloc : SlotChange s j (.alloc j) { s.slot j with pid := s.nextpid, state := .used }
  | free : SlotChange s j (.free j) .free
  | reap (q : Fin N) (addr : BitVec 64) : SlotChange s j (.reap q j addr) .free
  | adopt (q : Fin N) : SlotChange s j (.adopt j q) { s.slot j with parent := some q }
  | start : SlotChange s j (.start j) { s.slot j with state := .runnable }
  | die (status : BitVec 32) :
      SlotChange s j (.die j status) { s.slot j with xstate := status, state := .zombie }
  | run : SlotChange s j (.run j) { s.slot j with state := .running }

theorem slotChange (s : Kernel N C κ Λ) (e : Effect N κ) (j : Fin N) :
    SlotChange s j e (s.slotsAfter e j) := by
  by_cases htarget : e.target = some j
  · have hself : ∀ {sl : Slot N}, s.slotsAfter e = update s.slot j sl →
        SlotChange s j e sl → SlotChange s j e (s.slotsAfter e j) :=
      fun h hch ↦ (slotsAfter_self h).symm ▸ hch
    cases e with
    | none | setCond k b | see q k b => cases htarget
    | wake i ch =>
      cases htarget
      refine hself rfl (.keep (Slot.state_wake _ _) ?_ (.inr ⟨?_, fun h ↦ by cases h⟩)) <;>
        rw [Slot.wake] <;> split_ifs <;> simp only [and_self]
    | kill i =>
      cases htarget
      refine hself rfl (.keep (Slot.state_kill _) ?_ (.inl rfl))
      rw [Slot.kill]
      split_ifs <;> exact ⟨rfl, rfl, rfl⟩
    | tidy i =>
      cases htarget
      exact hself rfl (.keep (.inl rfl) ⟨rfl, rfl, rfl⟩ (.inr ⟨rfl, fun h ↦ by cases h⟩))
    | sleep i ch => cases htarget; exact hself rfl (.sleep ch)
    | yield i => cases htarget; exact hself rfl .yield
    | alloc i => cases htarget; exact hself rfl .alloc
    | free i => cases htarget; exact hself rfl .free
    | reap q i addr => cases htarget; exact hself rfl (.reap q addr)
    | adopt i q => cases htarget; exact hself rfl (.adopt q)
    | start i => cases htarget; exact hself rfl .start
    | die i status => cases htarget; exact hself rfl (.die status)
    | run i => cases htarget; exact hself rfl .run
  · rw [slotsAfter_of_ne htarget]
    refine .keep (.inl rfl) ⟨rfl, rfl, rfl⟩ (.inr ⟨rfl, ?_⟩)
    rintro rfl
    exact htarget rfl

/-! ### Parents -/

/-- Who is whose parent. -/
structure Family (P : Setup N κ Λ) (s : Kernel N C κ Λ) : Prop where
  init_alive : (s.slot P.initproc).state.isAlive = true
  parent_alive : ∀ j q, (s.slot j).parent = some q → (s.slot q).state.isAlive = true
  unused_parent : ∀ j, (s.slot j).state = .unused → (s.slot j).parent = none
  has_parent : ∀ j, j ≠ P.initproc → (s.slot j).state ≠ .unused → (s.slot j).state ≠ .used →
    (s.slot j).parent ≠ none
  published : ∀ q np, (s.thread (.inl q)).pc.published = some np → (s.slot np).parent = some q
  not_init : ∀ q, (s.thread (.inl q)).pc.reparents ≠ none → q ≠ P.initproc
  reparents : ∀ q pps, (s.thread (.inl q)).pc.reparents = some pps →
    ∀ j, (s.slot j).parent = some q → j ∈ pps

theorem family_boot (cond : κ → Bool) : Family P (boot P C cond) := by
  have hstate : ((boot P C cond).slot P.initproc).state = .runnable := by simp [boot]
  have hparent : ∀ j, ((boot P C cond).slot j).parent = none := by
    intro j
    by_cases hj : j = P.initproc
    · simp [boot, hj, Slot.free]
    · simp [boot, hj, Slot.free]
  have hunused : ∀ j, j ≠ P.initproc → ((boot P C cond).slot j).state = .unused := by
    intro j hj
    simp [boot, hj, Slot.free]
  have hpc : ∀ q, ((boot P C cond).thread (.inl q)).pc.published = none ∧
      ((boot P C cond).thread (.inl q)).pc.reparents = none := by
    intro q
    show Pc.published (if q = P.initproc then _ else _) = none ∧
      Pc.reparents (if q = P.initproc then _ else _) = none
    split_ifs <;> exact ⟨rfl, rfl⟩
  refine ⟨by rw [hstate]; rfl, fun j q h ↦ ?_, fun j _ ↦ hparent j, fun j hj h ↦ ?_,
    fun q np h ↦ ?_, fun q h ↦ ?_, fun q pps h ↦ ?_⟩
  · rw [hparent j] at h
    cases h
  · exact absurd (hunused j hj) h
  · rw [(hpc q).1] at h
    cases h
  · exact absurd (hpc q).2 h
  · rw [(hpc q).2] at h
    cases h

section Act

variable {me : Fin N ⊕ Fin C} {ok : Bool} {pc : Pc N κ} {a : Action N κ Λ}

theorem published_of_act {np : Fin N} (h : s.act P me ok pc = some a)
    (hnext : a.next.published = some np) :
    pc.published = some np ∨ ∃ q, me = .inl q ∧ a.effect = .adopt np q := by
  revert h hnext
  fun_cases s.act P me ok pc <;> intro h hnext <;> cases h
  all_goals first
    | exact .inl hnext
    | (cases hnext; exact .inr ⟨_, rfl, rfl⟩)
    | (cases ‹Reason κ› <;> cases hnext)
    | (cases ‹Waker N κ› <;> cases hnext)
    | cases hnext

/-- How `reparent` goes on. -/
theorem reparents_of_act {pps : List (Fin N)} (h : s.act P me ok pc = some a)
    (hnext : a.next.reparents = some pps) :
    (pc.reparents = none ∧ me ≠ .inl P.initproc ∧ pps = List.finRange N) ∨
      (pc.reparents = some pps ∧ a.effect.adopts = none) ∨
      ∃ pp, pc.reparents = some (pp :: pps) ∧
        (a.effect = .adopt pp P.initproc ∨
          a.effect.adopts = none ∧ (s.slot pp).parent.map .inl ≠ some me) := by
  revert h hnext
  fun_cases s.act P me ok pc <;> intro h hnext <;> cases h
  all_goals first
    | exact .inr (.inl ⟨hnext, rfl⟩)
    | (cases hnext; exact .inl ⟨rfl, ‹_›, rfl⟩)
    | (cases hnext; exact .inr (.inr ⟨_, rfl, .inl rfl⟩))
    | (cases hnext; exact .inr (.inr ⟨_, rfl, .inr ⟨rfl, ‹_›⟩⟩))
    | (cases ‹Reason κ› <;> cases hnext)
    | (cases ‹Waker N κ› <;> exact .inr (.inl ⟨hnext, rfl⟩))
    | cases hnext

end Act

/-- Where the effects on the table come from. -/
def Origin (P : Setup N κ Λ) (s : Kernel N C κ Λ) (c : Fin C) : Effect N κ → Prop
  | .sleep j _ | .tidy j | .yield j => s.current c = .inl j
  | .alloc j => (s.slot j).state = .unused
  | .free j => s.top c = .forkCopy j
  | .start j => s.top c = .forkRun j
  | .die j status => s.current c = .inl j ∧ s.top c = .exitZombie status
  | .reap q j addr =>
    s.current c = .inl q ∧ (s.slot j).state = .zombie ∧ ∃ js, s.top c = .waitVisit addr j js
  | .run j => (s.slot j).state = .runnable
  | .adopt j q => s.current c = .inl q ∧ s.top c = .forkParent j ∨
      q = P.initproc ∧ (s.slot j).parent.map .inl = some (s.current c) ∧
        ∃ status pps, s.top c = .exitReparent status (j :: pps)
  | .none | .wake _ _ | .kill _ | .setCond _ _ | .see _ _ _ => True

theorem origin_of_act {ok : Bool} {a : Action N κ Λ}
    (hact : s.Acts P c ok a) : s.Origin P c a.effect := by
  have hrow := row_of_act hact
  generalize htop : s.top c = pc, hcur : s.current c = me at hrow
  cases hrow with
  | quiet heffect hswtch =>
    rw [heffect]
    trivial
  | sleep p w | tidy p w | yield p => exact hcur
  | alloc me j js h | run me j js h => exact h
  | free me np | start me np => exact htop
  | die p status => exact ⟨hcur, htop⟩
  | reap p addr j js ok h hcopy => exact ⟨hcur, h, js, htop⟩
  | adopt p np => exact .inl ⟨hcur, htop⟩
  | reparent me status pp pps h => exact .inr ⟨rfl, hcur ▸ h, status, pps, htop⟩
  | wake | kill | raise | done | seeTrue | seeFalse | leave => trivial

namespace Family

variable [DecidableEq κ] [DecidableEq Λ] {a : Action N κ Λ} {ok : Bool} (hf : Family P s)
  (hs : Disciplined P s)

omit [DecidableEq κ] hf in
include hs in
/-- A process that executes is alive, unless it is at the end of `kexit`. -/
theorem alive_of_current (h : s.current c = .inl p) (htop : (s.top c).isExit = false) :
    (s.slot p).state = .running := by
  rcases hs.state_of_on (on_of_current h) with hr | ⟨-, hth⟩
  · exact hr
  · rw [top, h, hth] at htop
    cases htop

omit hf hs in
/-- A parent that a slot has after a step is an old one or has just adopted it. -/
theorem parent_perform {j q : Fin N} (h : ((s.perform c a).slot j).parent = some q) :
    (s.slot j).parent = some q ∨ a.effect = .adopt j q := by
  have hch : SlotChange s j a.effect ((s.perform c a).slot j) := slotChange s a.effect j
  generalize (s.perform c a).slot j = sl at h hch
  generalize a.effect = e at hch
  cases hch with
  | keep hstate hdata => exact .inl (hdata.1.symm.trans h)
  | sleep ch | yield | alloc | start | die status | run => exact .inl h
  | free | reap q addr => cases h
  | adopt q' =>
    cases h
    exact .inr rfl

include hs

omit hf in
/-- A process that is alive stays so until it exits. -/
theorem alive_perform (hact : s.Acts P c ok a) {q : Fin N} (h : (s.slot q).state.isAlive = true) :
    ((s.perform c a).slot q).state.isAlive = true ∨ ∃ status, a.effect = .die q status := by
  have horigin := origin_of_act hact
  have hch : SlotChange s q a.effect ((s.perform c a).slot q) := slotChange s a.effect q
  generalize (s.perform c a).slot q = sl at hch
  generalize a.effect = e at horigin hch
  cases hch with
  | keep hstate hdata =>
    rcases hstate with hst | ⟨-, hst⟩
    · rw [hst]
      exact .inl h
    · rw [hst]
      exact .inl rfl
  | sleep ch | yield | start | run => exact .inl rfl
  | adopt q' => exact .inl h
  | die status => exact .inr ⟨status, rfl⟩
  | alloc =>
    rw [show (s.slot q).state = .unused from horigin] at h
    cases h
  | free =>
    have htop : s.top c = .forkCopy q := horigin
    obtain ⟨hused, -⟩ := hs.used_of_forks (j := q) (by rw [htop]; rfl)
    rw [hused] at h
    cases h
  | reap q' addr =>
    rw [show (s.slot q).state = .zombie from horigin.2.1] at h
    cases h

include hf

omit [DecidableEq κ] in
/-- A process that is about to become a zombie has no children, and is not the first one. -/
theorem of_die (hact : s.Acts P c ok a) {q : Fin N}
    {status : BitVec 32} (h : a.effect = .die q status) :
    q ≠ P.initproc ∧ ∀ j, (s.slot j).parent ≠ some q := by
  have horigin := origin_of_act hact
  rw [h] at horigin
  obtain ⟨hcur, htop⟩ := horigin
  have hth := hs.thread_eq htop (by rw [hcur]; rfl)
  rw [hcur] at hth
  have hnone : (s.thread (.inl q)).pc.reparents = some [] := by
    rw [hth]
    rfl
  refine ⟨hf.not_init q (by rw [hnone]; nofun), fun j hj ↦ ?_⟩
  cases hf.reparents q [] hnone j hj

theorem init_alive_perform (hact : s.Acts P c ok a) :
    ((s.perform c a).slot P.initproc).state.isAlive = true := by
  refine (alive_perform hs hact hf.init_alive).resolve_right ?_
  rintro ⟨status, heff⟩
  exact (hf.of_die hs hact heff).1 rfl

theorem parent_alive_perform (hact : s.Acts P c ok a) (j q : Fin N)
    (h : ((s.perform c a).slot j).parent = some q) :
    ((s.perform c a).slot q).state.isAlive = true := by
  rcases parent_perform h with hold | heff
  · refine (alive_perform hs hact (hf.parent_alive j q hold)).resolve_right ?_
    rintro ⟨status, heff⟩
    exact (hf.of_die hs hact heff).2 j hold
  · have halive : (s.slot q).state.isAlive = true := by
      have horigin := origin_of_act hact
      rw [heff] at horigin
      rcases horigin with ⟨hcur, htop⟩ | ⟨rfl, -⟩
      · rw [alive_of_current hs hcur (by rw [htop]; rfl)]
        rfl
      · exact hf.init_alive
    refine (alive_perform hs hact halive).resolve_right ?_
    rintro ⟨status, hdie⟩
    rw [heff] at hdie
    cases hdie

theorem unused_parent_perform (hact : s.Acts P c ok a) (j : Fin N)
    (h : ((s.perform c a).slot j).state = .unused) : ((s.perform c a).slot j).parent = none := by
  have horigin := origin_of_act hact
  have hch : SlotChange s j a.effect ((s.perform c a).slot j) := slotChange s a.effect j
  generalize (s.perform c a).slot j = sl at h hch
  generalize a.effect = e at horigin hch
  cases hch with
  | keep hstate hdata =>
    rw [hdata.1]
    rcases hstate with hst | ⟨-, hst⟩
    · exact hf.unused_parent j (hst.symm.trans h)
    · cases hst.symm.trans h
  | sleep ch | yield | alloc | start | die status | run => cases h
  | free | reap q addr => rfl
  | adopt q =>
    have hunused : (s.slot j).state = .unused := h
    rcases horigin with ⟨hcur, htop⟩ | ⟨-, hparent, -⟩
    · obtain ⟨hused, -⟩ := hs.used_of_forks (j := j) (by rw [htop]; rfl)
      cases hunused.symm.trans hused
    · rw [hf.unused_parent j hunused] at hparent
      cases hparent

theorem has_parent_perform (hact : s.Acts P c ok a) (j : Fin N)
    (hj : j ≠ P.initproc) (hunused : ((s.perform c a).slot j).state ≠ .unused)
    (hused : ((s.perform c a).slot j).state ≠ .used) :
    ((s.perform c a).slot j).parent ≠ none := by
  have horigin := origin_of_act hact
  have hch : SlotChange s j a.effect ((s.perform c a).slot j) := slotChange s a.effect j
  generalize (s.perform c a).slot j = sl at hunused hused hch
  generalize a.effect = e at horigin hch
  have hold : (s.slot j).state ≠ .unused → (s.slot j).state ≠ .used →
      (s.slot j).parent ≠ none := hf.has_parent j hj
  cases hch with
  | keep hstate hdata =>
    rw [hdata.1]
    rcases hstate with hst | ⟨hst, -⟩
    · exact hold (hst ▸ hunused) (hst ▸ hused)
    · exact hold (by rw [hst]; nofun) (by rw [hst]; nofun)
  | sleep ch | yield =>
    rcases hs.state_of_on (on_of_current horigin) with hst | ⟨hst, -⟩
    · exact hold (by rw [hst]; nofun) (by rw [hst]; nofun)
    · exact hold (by rw [hst]; nofun) (by rw [hst]; nofun)
  | die status =>
    rcases hs.state_of_on (on_of_current horigin.1) with hst | ⟨hst, -⟩
    · exact hold (by rw [hst]; nofun) (by rw [hst]; nofun)
    · exact hold (by rw [hst]; nofun) (by rw [hst]; nofun)
  | run =>
    have hst : (s.slot j).state = .runnable := horigin
    exact hold (by rw [hst]; nofun) (by rw [hst]; nofun)
  | alloc => exact absurd rfl hused
  | free | reap q addr => exact absurd rfl hunused
  | adopt q => nofun
  | start =>
    have htop : s.top c = .forkRun j := horigin
    obtain ⟨q, -, hth⟩ := hs.proc_of_top (by rw [htop]; rintro (d | d) <;> exact ⟨rfl, rfl⟩)
    have hparent := hf.published q j (by rw [hth, htop]; rfl)
    show (s.slot j).parent ≠ none
    rw [hparent]
    nofun

omit [DecidableEq κ] hf hs in
theorem forks_of_published {pc : Pc N κ} {np : Fin N} (h : pc.published = some np) :
    pc.forks = some np := by
  cases pc <;> first | exact h | cases h

theorem published_perform (hact : s.Acts P c ok a) (q np : Fin N)
    (h : ((s.perform c a).thread (.inl q)).pc.published = some np) :
    ((s.perform c a).slot np).parent = some q := by
  -- The parent was there before, or is set in this step.
  have hold : (s.slot np).parent = some q ∧ (s.thread (.inl q)).pc.published = some np ∨
      a.effect = .adopt np q := by
    rcases Disciplined.pc_perform s c a q with ⟨hpc, -⟩ | ⟨-, -, hth⟩ | ⟨hcur, hth, hnew⟩
    · rw [hpc] at h
      exact .inl ⟨hf.published q np h, h⟩
    · rw [hth] at h
      cases h
    · rw [hnew] at h
      rcases published_of_act hact h with hpc | ⟨q', hq', heff⟩
      · have hpub : (s.thread (.inl q)).pc.published = some np := by rw [hth]; exact hpc
        exact .inl ⟨hf.published q np hpub, hpub⟩
      · rw [hcur] at hq'
        cases hq'
        exact .inr heff
  rcases hold with ⟨hparent, hpub⟩ | heff
  · have hforks := forks_of_published hpub
    have hused := hs.forks_used q np hforks
    have horigin := origin_of_act hact
    have hch : SlotChange s np a.effect ((s.perform c a).slot np) := slotChange s a.effect np
    generalize (s.perform c a).slot np = sl at hch
    generalize a.effect = e at horigin hch
    cases hch with
    | keep hstate hdata => exact hdata.1.trans hparent
    | sleep ch | yield | alloc | start | die status | run => exact hparent
    | free =>
      have htop : s.top c = .forkCopy np := horigin
      obtain ⟨r, -, hth⟩ := hs.proc_of_top (by rw [htop]; rintro (d | d) <;> exact ⟨rfl, rfl⟩)
      have hr : r = q := hs.forks_inj r q np (by rw [hth, htop]; rfl) hforks
      rw [← hr, hth, htop] at hpub
      cases hpub
    | reap r addr => cases hused.symm.trans horigin.2.1
    | adopt r =>
      rcases horigin with ⟨hcur, htop⟩ | ⟨-, hmap, status, pps, htop⟩
      · have hth := hs.thread_eq htop (by rw [hcur]; rfl)
        rw [hcur] at hth
        exact congrArg some (hs.forks_inj r q np (by rw [hth]; rfl) hforks)
      · rw [hparent, map_some, some_inj] at hmap
        have hth := hs.thread_eq htop (by rw [← hmap]; rfl)
        rw [← hmap] at hth
        rw [hth] at hpub
        cases hpub
  · show (s.slotsAfter a.effect np).parent = some q
    rw [heff]
    show (update s.slot np _ np).parent = some q
    rw [update_self]

omit hs in
theorem not_init_perform (hact : s.Acts P c ok a) (q : Fin N)
    (h : ((s.perform c a).thread (.inl q)).pc.reparents ≠ none) : q ≠ P.initproc := by
  rcases Disciplined.pc_perform s c a q with ⟨hpc, -⟩ | ⟨-, -, hth⟩ | ⟨hcur, hth, hnew⟩
  · exact hf.not_init q (hpc ▸ h)
  · rw [hth] at h
    exact absurd rfl h
  · rw [hnew] at h
    obtain ⟨pps, hpps⟩ := ne_none_iff_exists'.1 h
    rcases reparents_of_act hact hpps with ⟨-, hme, -⟩ | ⟨hpc, -⟩ | ⟨pp, hpc, -⟩
    · rintro rfl
      exact hme hcur
    · exact hf.not_init q (by rw [hth, hpc]; nofun)
    · exact hf.not_init q (by rw [hth, hpc]; nofun)

theorem reparents_perform (hact : s.Acts P c ok a) (q : Fin N)
    (pps : List (Fin N)) (h : ((s.perform c a).thread (.inl q)).pc.reparents = some pps) (j : Fin N)
    (hj : ((s.perform c a).slot j).parent = some q) : j ∈ pps := by
  have hinit : q ≠ P.initproc := hf.not_init_perform hact q (by rw [h]; nofun)
  rcases Disciplined.pc_perform s c a q with ⟨hpc, -⟩ | ⟨-, -, hth⟩ | ⟨hcur, hth, hnew⟩
  · rw [hpc] at h
    rcases parent_perform hj with hold | heff
    · exact hf.reparents q pps h j hold
    · have horigin := origin_of_act hact
      rw [heff] at horigin
      rcases horigin with ⟨hcur, htop⟩ | ⟨hq, -⟩
      · have hth := hs.thread_eq htop (by rw [hcur]; rfl)
        rw [hcur] at hth
        rw [hth] at h
        cases h
      · exact absurd hq hinit
  · rw [hth] at h
    cases h
  · rw [hnew] at h
    have hold : a.effect.adopts = none → (s.slot j).parent = some q := by
      intro hnone
      refine (parent_perform hj).resolve_right fun heff ↦ ?_
      rw [heff] at hnone
      cases hnone
    rcases reparents_of_act hact h with ⟨-, -, rfl⟩ | ⟨hpc, hnone⟩ | ⟨pp, hpc, heff | ⟨hnone, hpp⟩⟩
    · exact List.mem_finRange j
    · exact hf.reparents q pps (by rw [hth]; exact hpc) j (hold hnone)
    · -- The child that has just been handed over is no longer one.
      rcases parent_perform hj with hparent | hadopt
      · refine (List.mem_cons.1 (hf.reparents q _ (by rw [hth]; exact hpc) j
          hparent)).resolve_left ?_
        rintro rfl
        change (s.slotsAfter a.effect j).parent = some q at hj
        rw [heff] at hj
        change (update s.slot j _ j).parent = some q at hj
        rw [update_self] at hj
        exact hinit (some_inj.1 hj).symm
      · rw [heff] at hadopt
        cases hadopt
        exact absurd rfl hinit
    · refine (List.mem_cons.1
        (hf.reparents q _ (by rw [hth]; exact hpc) j (hold hnone))).resolve_left ?_
      rintro rfl
      rw [hold hnone, hcur] at hpp
      exact hpp rfl

theorem perform (hact : s.Acts P c ok a) : Family P (s.perform c a) where
  init_alive := hf.init_alive_perform hs hact
  parent_alive := hf.parent_alive_perform hs hact
  unused_parent := hf.unused_parent_perform hs hact
  has_parent := hf.has_parent_perform hs hact
  published := hf.published_perform hs hact
  not_init := hf.not_init_perform hact
  reparents := hf.reparents_perform hs hact

omit [DecidableEq κ] [DecidableEq Λ] hs in
theorem divert {th : Thread N κ} (hpc : th.pc = (s.thread (s.current c)).pc ∨
      th.pc.published = none ∧ th.pc.reparents = none) : Family P (s.divert c th) := by
  have hthread := fun q ↦ divert_pc th (c := c) (R := fun _ pc ↦
    pc.published = none ∧ pc.reparents = none) hpc (.inl q)
  refine ⟨hf.init_alive, hf.parent_alive, hf.unused_parent, hf.has_parent, fun q np h ↦ ?_,
    fun q h ↦ ?_, fun q pps h ↦ ?_⟩
  · rcases hthread q with hq | ⟨hq, -⟩
    · exact hf.published q np (hq ▸ h)
    · cases hq.symm.trans h
  · rcases hthread q with hq | ⟨-, hq⟩
    · exact hf.not_init q (hq ▸ h)
    · exact absurd hq h
  · rcases hthread q with hq | ⟨-, hq⟩
    · exact hf.reparents q pps (hq ▸ h)
    · cases hq.symm.trans h

theorem step {e : KernelEvent C κ} (h : s.step P e = some t) : Family P t := by
  cases step_cases h with
  | exec hact hcan => exact hf.perform hs hact
  | call f hon huser =>
    refine hf.divert (.inr ?_)
    cases f <;> exact ⟨rfl, rfl⟩
  | interrupt | preempt => exact hf.divert (.inl rfl)

end Family

end Kernel

end Xv6

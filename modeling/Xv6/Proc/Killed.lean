import Xv6.Proc.Lifecycle

/-!
# Who is killed

`p->killed` is in a slot that is used again and again. It is cleared in `freeproc` only, and `kkill`
sets it in the first slot with the given pid, whatever the state of that slot. The pid of an empty
slot is 0: so `kkill(0)` finds an empty slot, and the next process that is born in it is born killed
(`kkill_zero_kills_newborn`). Without a call of `kkill(0)`, a process is killed only if `kkill` was
called with its pid, or a fault of its own.

Beside the steps of the kernel there is the one of `usertrap` that calls `setkilled`, in a process
that comes from user space with a fault.
-/

namespace Xv6

open Function Option

variable {N C : ℕ} {κ Λ : Type}

/-- An event of the kernel, or a fault of the process on a CPU. -/
inductive FaultEvent (C : ℕ) (κ : Type)
  | kernel (e : KernelEvent C κ)
  /-- `setkilled(p)` in `usertrap`. -/
  | fault (c : Fin C)
  deriving DecidableEq

/-- What can be seen of the slots. -/
inductive KillObs (N : ℕ)
  /-- `allocproc` gives slot `j` the pid. -/
  | born (j : Fin N) (pid : BitVec 32)
  /-- `kkill(pid)` finds slot `j`, and returns 0. -/
  | hit (j : Fin N) (pid : BitVec 32)
  /-- `setkilled` is called for slot `j`. -/
  | fault (j : Fin N)
  deriving DecidableEq

/-- What `setkilled` does to a slot. -/
def Slot.setkilled (sl : Slot N) : Slot N := { sl with killed := true }

/-- The argument of `kkill`. -/
def Pc.kills : Pc N κ → Option (BitVec 32)
  | kill pid _ => some pid
  | killVisit pid _ _ => some pid
  | _ => none

/-- Not a call of `kkill(0)`. -/
def FaultEvent.KillsSome : FaultEvent C κ → Prop
  | kernel (.call _ (.kkill pid)) => pid ≠ 0
  | _ => True

namespace Kernel

section Steps

variable [DecidableEq κ] [DecidableEq Λ] (P : Setup N κ Λ) (s : Kernel N C κ Λ)

/-- One step of the kernel, or `setkilled(p)` for the process on `c`. -/
def faultStep : FaultEvent C κ → Option (Kernel N C κ Λ)
  | .kernel e => s.step P e
  | .fault c =>
    (s.on c).bind fun p ↦
      if s.thread (.inl p) = ⟨.user, none⟩ ∧ s.lock (.proc p) = none then
        some { s with slot := update s.slot p (s.slot p).setkilled }
      else none

omit [DecidableEq κ] [DecidableEq Λ] in
/-- What an event shows. -/
def killObs : FaultEvent C κ → Option (KillObs N)
  | .kernel (.exec c ok) =>
    (s.act P (s.current c) ok (s.top c)).bind fun a ↦
      match a.effect with
      | .alloc j => some (.born j s.nextpid)
      | .kill j => (s.top c).kills.map (.hit j)
      | _ => none
  | .kernel _ => none
  | .fault c => (s.on c).map .fault

end Steps

/-- The process in slot `j` was targeted: after `allocproc` assigned its pid, `kkill` was called
with this pid and found it, or `setkilled` was called for it. -/
def Targeted (tr : List (KillObs N)) (j : Fin N) (pid : BitVec 32) : Prop :=
  ∃ before o since, tr = before ++ o :: since ∧ (o = .hit j pid ∨ o = .fault j) ∧
    ∀ pid', .born j pid' ∉ since

theorem Targeted.append {tr new : List (KillObs N)} {j : Fin N} {pid : BitVec 32}
    (h : Targeted tr j pid) (hnew : ∀ pid', .born j pid' ∉ new) : Targeted (tr ++ new) j pid := by
  obtain ⟨before, o, since, rfl, ho, hsince⟩ := h
  refine ⟨before, o, since ++ new, by simp, ho, fun pid' hmem ↦ ?_⟩
  rcases List.mem_append.1 hmem with hmem | hmem
  · exact hsince pid' hmem
  · exact hnew pid' hmem

theorem targeted_concat {tr : List (KillObs N)} {j : Fin N} {pid : BitVec 32} {o : KillObs N}
    (ho : o = .hit j pid ∨ o = .fault j) : Targeted (tr ++ [o]) j pid :=
  ⟨tr, o, [], rfl, ho, fun _ ↦ List.not_mem_nil⟩

/-- Empty slots are not killed, and killed processes were targeted. -/
structure Aimed (tr : List (KillObs N)) (s : Kernel N C κ Λ) : Prop where
  empty : ∀ j, (s.slot j).state = .unused → (s.slot j).killed = false ∧ (s.slot j).pid = 0
  targeted : ∀ j, (s.slot j).killed = true → Targeted tr j (s.slot j).pid
  aim : ∀ me pid, (s.thread me).pc.kills = some pid ∨
    (∃ pc, (s.thread me).intr = some pc ∧ pc.kills = some pid) → pid ≠ 0

variable {P : Setup N κ Λ} {s t : Kernel N C κ Λ} {tr : List (KillObs N)}

theorem aimed_boot (cond : κ → Bool) : Aimed [] (boot P C cond) := by
  refine ⟨fun j hj ↦ ?_, fun j hj ↦ ?_, fun me pid hpc ↦ ?_⟩
  · by_cases hinit : j = P.initproc
    · subst hinit
      simp [boot] at hj
    · simp [boot, hinit, Slot.free]
  · by_cases hinit : j = P.initproc
    · subst hinit
      simp [boot, Slot.free] at hj
    · simp [boot, hinit, Slot.free] at hj
  · rcases me with q | c
    · by_cases hq : q = P.initproc <;> simp [boot, hq, Pc.kills] at hpc
    · simp [boot, Pc.kills] at hpc

section Act

variable {me : Fin N ⊕ Fin C} {ok : Bool} {pc : Pc N κ} {a : Action N κ Λ}

theorem kills_of_act {pid : BitVec 32} (h : s.act P me ok pc = some a)
    (hnext : a.next.kills = some pid) : pc.kills = some pid := by
  revert h hnext
  fun_cases s.act P me ok pc <;> intro h hnext <;> cases h
  all_goals first
    | exact hnext
    | (cases ‹Reason κ› <;> cases hnext)
    | (cases ‹Waker N κ› <;> cases hnext)
    | cases hnext

/-- The step in which `kkill` returns 0. -/
theorem found_of_act {pid : BitVec 32} (h : s.act P me ok pc = some a) (hpc : pc.kills = some pid)
    (hret : a.ret = some 0) : ∃ j js, pc = .killVisit pid j js ∧ (s.slot j).pid = pid := by
  revert h hpc hret
  fun_cases s.act P me ok pc <;> intro h hpc hret <;> cases h <;> cases hpc
  all_goals first
    | exact ⟨_, _, rfl, rfl⟩
    | cases hret

end Act

/-! ### Steps -/

namespace Aimed

variable [DecidableEq κ] [DecidableEq Λ] {c : Fin C} {ok : Bool} {a : Action N κ Λ}

omit [DecidableEq κ] [DecidableEq Λ] in
theorem top_ne (h : Aimed tr s) {pid : BitVec 32} (hpc : (s.top c).kills = some pid) : pid ≠ 0 := by
  refine h.aim (s.current c) pid ?_
  rw [top] at hpc
  cases hintr : (s.thread (s.current c)).intr with
  | none =>
    rw [Thread.top_of_none hintr] at hpc
    exact .inl hpc
  | some pc =>
    rw [Thread.top_of_some hintr] at hpc
    exact .inr ⟨pc, rfl, hpc⟩

omit [DecidableEq κ] [DecidableEq Λ] in
theorem killObs_exec (hact : s.Acts P c ok a) :
    s.killObs P (.kernel (.exec c ok)) = match a.effect with
      | .alloc j => some (.born j s.nextpid)
      | .kill j => (s.top c).kills.map (.hit j)
      | _ => none := by
  rw [killObs, hact, bind_some]

omit [DecidableEq κ] [DecidableEq Λ] in
theorem effect_of_born (hact : s.Acts P c ok a) {j : Fin N}
    {pid : BitVec 32} (h : .born j pid ∈ (s.killObs P (.kernel (.exec c ok))).toList) :
    a.effect = .alloc j := by
  rw [killObs_exec hact, mem_toList] at h
  cases heff : a.effect <;> rw [heff] at h
  case alloc i =>
    cases h
    rfl
  case kill i =>
    obtain ⟨pid, -, hpid⟩ := map_eq_some_iff.1 h
    cases hpid
  all_goals cases h

omit [DecidableEq κ] [DecidableEq Λ] in
/-- `kkill` marks a slot that has the pid it was called with. -/
theorem hit_of_kill (hact : s.Acts P c ok a) {j : Fin N}
    (heff : a.effect = .kill j) : (s.top c).kills = some (s.slot j).pid ∧
      s.killObs P (.kernel (.exec c ok)) = some (.hit j (s.slot j).pid) := by
  have hkills : (s.top c).kills = some (s.slot j).pid := by
    have hrow := row_of_act hact
    generalize s.top c = pc, s.current c = me at hrow
    cases hrow with
    | kill me i js =>
      cases heff
      rfl
    | quiet heffect =>
      rw [heffect] at heff
      cases heff
    | _ => cases heff
  refine ⟨hkills, ?_⟩
  rw [killObs_exec hact, heff]
  dsimp only
  rw [hkills]
  rfl

theorem aim_perform (h : Aimed tr s) (hact : s.Acts P c ok a)
    (me : Fin N ⊕ Fin C) (pid : BitVec 32) (hpc : ((s.perform c a).thread me).pc.kills = some pid ∨
      ∃ pc, ((s.perform c a).thread me).intr = some pc ∧ pc.kills = some pid) : pid ≠ 0 := by
  revert hpc pid
  refine Disciplined.thread_perform (Q := fun _ th ↦ ∀ pid, (th.pc.kills = some pid ∨
    ∃ pc, th.intr = some pc ∧ pc.kills = some pid) → pid ≠ 0) h.aim ?_ ?_ me
  · rintro j pid (hpc | ⟨pc, hpc, -⟩) <;> cases hpc
  · intro pid hpc
    rcases (s.thread (s.current c)).goto_cases a.next with ⟨-, hth⟩ | ⟨-, -, hth⟩ | ⟨-, -, hth⟩
    · rw [hth] at hpc
      rcases hpc with hpc | ⟨pc, hpc, -⟩
      · exact h.top_ne (kills_of_act hact hpc)
      · cases hpc
    · rw [hth] at hpc
      rcases hpc with hpc | ⟨pc, hpc, -⟩
      · exact h.aim _ pid (.inl hpc)
      · cases hpc
    · rw [hth] at hpc
      rcases hpc with hpc | ⟨pc, hpc, hkills⟩
      · exact h.aim _ pid (.inl hpc)
      · cases hpc
        exact h.top_ne (kills_of_act hact hkills)

/-- What `Aimed` says about one slot. -/
def AimedAt (tr : List (KillObs N)) (j : Fin N) (sl : Slot N) : Prop :=
  (sl.state = .unused → sl.killed = false ∧ sl.pid = 0) ∧
    (sl.killed = true → Targeted tr j sl.pid)

omit [DecidableEq κ] [DecidableEq Λ] in
theorem slot_perform (h : Aimed tr s) (hact : s.Acts P c ok a) {j : Fin N} {sl : Slot N}
    (hch : SlotChange s j a.effect sl) :
    AimedAt (tr ++ (s.killObs P (.kernel (.exec c ok))).toList) j sl := by
  have hkeep : (sl.state = .unused → (s.slot j).state = .unused) →
      sl.killed = (s.slot j).killed → sl.pid = (s.slot j).pid → a.effect ≠ .alloc j →
      AimedAt (tr ++ (s.killObs P (.kernel (.exec c ok))).toList) j sl := by
    intro hstate hkilled hpid hne
    rw [AimedAt, hkilled, hpid]
    refine ⟨fun hj ↦ h.empty j (hstate hj), fun hj ↦ (h.targeted j hj).append fun pid' hmem ↦ ?_⟩
    exact hne (effect_of_born hact hmem)
  generalize heff : a.effect = e at hch hkeep
  cases hch with
  | keep hstate hdata hkilled =>
    rcases hkilled with rfl | ⟨hkilled, hne⟩
    · -- an empty slot has pid 0, which is not what `kkill` looks for
      obtain ⟨hkills, hobs⟩ := hit_of_kill hact heff
      rw [AimedAt, hobs, hdata.2.1]
      refine ⟨fun hj ↦ ?_, fun _ ↦ targeted_concat (.inl rfl)⟩
      rcases hstate with hst | ⟨-, hst⟩
      · rw [hst] at hj
        exact absurd (h.empty j hj).2 (h.top_ne hkills)
      · rw [hst] at hj
        cases hj
    · refine hkeep (fun hj ↦ ?_) hkilled hdata.2.1 hne
      rcases hstate with hst | ⟨-, hst⟩
      · exact hst.symm.trans hj
      · cases hst.symm.trans hj
  | adopt q => exact hkeep id rfl rfl nofun
  | sleep ch | yield | start | die status | run => exact hkeep nofun rfl rfl nofun
  | alloc =>
    refine ⟨nofun, fun hj ↦ ?_⟩
    rw [(h.empty j (unused_of_alloc hact heff)).1] at hj
    cases hj
  | free | reap q addr => exact ⟨fun _ ↦ ⟨rfl, rfl⟩, nofun⟩

theorem perform (h : Aimed tr s) (hact : s.Acts P c ok a) :
    Aimed (tr ++ (s.killObs P (.kernel (.exec c ok))).toList) (s.perform c a) :=
  ⟨fun j ↦ (h.slot_perform hact (slotChange s a.effect j)).1,
    fun j ↦ (h.slot_perform hact (slotChange s a.effect j)).2,
    fun me pid ↦ h.aim_perform hact me pid⟩

omit [DecidableEq κ] [DecidableEq Λ] in
/-- A call, or an interrupt. -/
theorem divert (h : Aimed tr s) {th : Thread N κ}
    (hth : ∀ pid, th.pc.kills = some pid ∨ (∃ pc, th.intr = some pc ∧ pc.kills = some pid) →
      pid ≠ 0) : Aimed tr (s.divert c th) := by
  refine ⟨h.empty, h.targeted, fun me pid hpc ↦ ?_⟩
  by_cases hme : me = s.current c
  · subst hme
    rw [divert_thread_self] at hpc
    exact hth pid hpc
  · rw [divert_thread_of_ne th hme] at hpc
    exact h.aim me pid hpc

theorem kernelStep (h : Aimed tr s) {e : KernelEvent C κ} (hkills : (FaultEvent.kernel e).KillsSome)
    (hs : s.step P e = some t) : Aimed (tr ++ (s.killObs P (.kernel e)).toList) t := by
  cases step_cases hs with
  | exec hact hcan => exact h.perform hact
  | @call c p f hon huser =>
    show Aimed (tr ++ []) (s.divert c ⟨f.pc, none⟩)
    rw [List.append_nil]
    refine h.divert fun pid hpc ↦ ?_
    rcases hpc with hpc | ⟨pc, hpc, -⟩
    · cases f <;> cases hpc
      exact hkills
    · cases hpc
  | interrupt c hnoff | preempt c hnoff =>
    refine (List.append_nil tr).symm ▸ h.divert fun pid hpc ↦ ?_
    rcases hpc with hpc | ⟨pc, hpc, hkills⟩
    · exact h.aim _ pid (.inl hpc)
    · cases hpc
      cases hkills

end Aimed

/-- `setkilled` changes nothing that the lock discipline is about. -/
theorem Disciplined.setkilled [DecidableEq Λ] (hs : Disciplined P s) (p : Fin N) :
    Disciplined P { s with slot := update s.slot p (s.slot p).setkilled } := by
  have hslot : ∀ q, (update s.slot p (s.slot p).setkilled q).state =
      (s.slot q).state ∧ (update s.slot p (s.slot p).setkilled q).chan =
      (s.slot q).chan := by
    intro q
    rcases eq_or_ne q p with rfl | hqp
    · rw [update_self]
      exact ⟨rfl, rfl⟩
    · rw [update_of_ne hqp]
      exact ⟨rfl, rfl⟩
  refine ⟨hs.lock_iff, hs.noff_eq, hs.buried, hs.base, hs.handler, fun q ↦ ?_, hs.on_inj, hs.back,
    fun q np hq ↦ ?_, hs.forks_inj⟩
  · have hplace := hs.place q
    dsimp only
    rw [(hslot q).1]
    generalize (s.slot q).state = state at hplace
    cases hplace with
    | unused hoff hth => exact .unused hoff hth
    | used hoff hth => exact .used hoff hth
    | sleeping w hoff hth hchan => exact .sleeping w hoff hth ((hslot q).2.trans hchan)
    | woken w hoff hth => exact .woken w hoff hth
    | ready hoff htop hpc => exact .ready hoff htop hpc
    | running c hon hpc => exact .running c hon hpc
    | dying c hon hth => exact .dying c hon hth
    | dead hoff hth => exact .dead hoff hth
  · exact (hslot np).1.trans (hs.forks_used q np hq)

variable [DecidableEq κ] [DecidableEq Λ]

theorem faultStep_sound (hs : Disciplined P s) (h : Aimed tr s) {e : FaultEvent C κ}
    (hkills : e.KillsSome) (ht : s.faultStep P e = some t) :
    Disciplined P t ∧ Aimed (tr ++ (s.killObs P e).toList) t := by
  cases e with
  | kernel e => exact ⟨hs.step ht, h.kernelStep hkills ht⟩
  | fault c =>
    obtain ⟨p, hp, ht⟩ := bind_eq_some_iff.1 ht
    rw [ite_none_right_eq_some, some_inj] at ht
    obtain ⟨-, rfl⟩ := ht
    have hstate : (s.slot p).state ≠ .unused := by
      rcases hs.state_of_on hp with hr | ⟨hz, -⟩
      · rw [hr]
        nofun
      · rw [hz]
        nofun
    rw [killObs, hp]
    refine ⟨hs.setkilled p, fun j hj ↦ ?_, fun j hj ↦ ?_, h.aim⟩
    · rcases eq_or_ne j p with rfl | hjp
      · have hslot : update s.slot j (s.slot j).setkilled j = (s.slot j).setkilled :=
          update_self ..
        dsimp only at hj
        rw [hslot] at hj
        exact absurd hj hstate
      · have hslot : update s.slot p (s.slot p).setkilled j = s.slot j :=
          update_of_ne hjp ..
        dsimp only at hj ⊢
        rw [hslot] at hj ⊢
        exact h.empty j hj
    · rcases eq_or_ne j p with rfl | hjp
      · exact targeted_concat (.inr rfl)
      · have hslot : update s.slot p (s.slot p).setkilled j = s.slot j :=
          update_of_ne hjp ..
        dsimp only at hj ⊢
        rw [hslot] at hj ⊢
        exact (h.targeted j hj).append fun pid' hmem ↦ by simp at hmem

theorem aimed_run {cond : κ → Bool} {es : List (FaultEvent C κ)} (hkills : ∀ e ∈ es, e.KillsSome)
    (h : runSteps (faultStep P) (boot P C cond) es = some s) : Disciplined P s ∧
      Aimed (observations (faultStep P) (killObs P) (boot P C cond) es) s := by
  revert hkills
  refine runSteps_traceInvariant (I := fun es s ↦ (∀ e ∈ es, e.KillsSome) → Disciplined P s ∧
    Aimed (observations (faultStep P) (killObs P) (boot P C cond) es) s)
    (fun _ ↦ ⟨disciplined_boot cond, aimed_boot cond⟩) (fun es r e t hr ih ht hkills ↦ ?_) h
  obtain ⟨hs, haimed⟩ := ih fun e he ↦ hkills e (List.mem_append_left _ he)
  rw [observations_concat hr]
  exact faultStep_sound hs haimed (hkills e (by simp)) ht

/-- **Only those who are targeted are killed**, if nobody calls `kkill(0)`. A process that is killed
was found by `kkill` under its own pid since it was born, or has had a fault; a slot is not killed
when a process is born in it; and `kkill` returns 0 only if it has found a process that is not
`UNUSED`. -/
theorem killed_sound {cond : κ → Bool} {es : List (FaultEvent C κ)}
    (h : runSteps (faultStep P) (boot P C cond) es = some s) (hkills : ∀ e ∈ es, e.KillsSome) :
    (∀ j, (s.slot j).killed = true →
      Targeted (observations (faultStep P) (killObs P) (boot P C cond) es) j (s.slot j).pid) ∧
    (∀ e t j pid, s.faultStep P e = some t → s.killObs P e = some (.born j pid) →
      (t.slot j).killed = false ∧ (t.slot j).pid = pid) ∧
    ∀ c ok a pid, s.act P (s.current c) ok (s.top c) = some a → (s.top c).kills = some pid →
      a.ret = some 0 → ∃ j, (s.slot j).state ≠ .unused ∧ (s.slot j).pid = pid := by
  obtain ⟨-, haimed⟩ := aimed_run hkills h
  refine ⟨haimed.targeted, fun e t j pid ht hborn ↦ ?_, fun c ok a pid hact hpc hret ↦ ?_⟩
  · cases e with
    | fault c =>
      rw [killObs] at hborn
      obtain ⟨p, -, hp⟩ := Option.map_eq_some_iff.1 hborn
      cases hp
    | kernel e =>
      cases e with
      | exec c ok =>
        obtain ⟨a, hact, -, -, rfl⟩ := exec_eq_some ht
        have heff := Aimed.effect_of_born hact (by rw [hborn]; exact List.mem_singleton_self _)
        have hslot : (s.perform c a).slot j =
            { s.slot j with pid := s.nextpid, state := .used } := by
          show s.slotsAfter a.effect j = _
          rw [heff]
          exact update_self ..
        rw [Aimed.killObs_exec hact, heff] at hborn
        cases hborn
        rw [hslot]
        exact ⟨(haimed.empty j (unused_of_alloc hact heff)).1, rfl⟩
      | call c f => cases hborn
      | interrupt c k => cases hborn
      | preempt c => cases hborn
  · obtain ⟨j, js, htop, hpid⟩ := found_of_act hact hpc hret
    refine ⟨j, fun hj ↦ ?_, hpid⟩
    exact haimed.top_ne hpc (hpid.symm.trans (haimed.empty j hj).2)

/-- The first process kills itself, on CPU `c`. -/
def killsItself (c : Fin 1) : List (FaultEvent 1 Unit) :=
  (instrs c 3 ++ [KernelEvent.call c (.kkill 1)] ++ instrs c 2).map .kernel

theorem killed_sound_killsItself :
    ∃ s, runSteps (faultStep (oneCond 0)) (boot (oneCond (0 : Fin 2)) 1 fun _ ↦ false)
        (killsItself 0) = some s ∧ (s.slot 0).killed = true ∧
      Targeted (observations (faultStep (oneCond 0)) (killObs (oneCond 0))
        (boot (oneCond (0 : Fin 2)) 1 fun _ ↦ false) (killsItself 0)) 0 (s.slot 0).pid := by
  have hrun : ∃ s ∈ runSteps (faultStep (oneCond 0)) (boot (oneCond (0 : Fin 2)) 1 fun _ ↦ false)
      (killsItself 0), (s.slot 0).killed = true := by decide +kernel
  obtain ⟨s, hs, hkilled⟩ := hrun
  have hkills : ∀ e ∈ killsItself 0, e.KillsSome := by
    simp [killsItself, instrs, FaultEvent.KillsSome]
  exact ⟨s, hs, hkilled, (killed_sound hs hkills).1 0 hkilled⟩

/-- The first process calls `kkill(0)`, which returns 0, and then `kfork`. -/
def killsNobody (c : Fin 1) : List (FaultEvent 1 Unit) :=
  (instrs c 3 ++ [KernelEvent.call c (.kkill 0)] ++ instrs c 4 ++ [KernelEvent.call c .kfork] ++
    instrs c 4).map .kernel

/-- **`kkill(0)` kills a process that is not yet born.** The call finds an empty slot, where no
process has pid 0; then process 2 is born killed, and nobody has called `kkill(2)`. -/
theorem kkill_zero_kills_newborn :
    ∃ s, runSteps (faultStep (oneCond 0)) (boot (oneCond (0 : Fin 2)) 1 fun _ ↦ false)
        (killsNobody 0) = some s ∧ (s.slot 1).state = .used ∧ (s.slot 1).pid = 2 ∧
      (s.slot 1).killed = true ∧
      observations (faultStep (oneCond 0)) (killObs (oneCond 0))
        (boot (oneCond (0 : Fin 2)) 1 fun _ ↦ false) (killsNobody 0) = [.hit 1 0, .born 1 2] ∧
      ¬Targeted (observations (faultStep (oneCond 0)) (killObs (oneCond 0))
        (boot (oneCond (0 : Fin 2)) 1 fun _ ↦ false) (killsNobody 0)) 1 2 := by
  have hrun : (∃ s ∈ runSteps (faultStep (oneCond 0)) (boot (oneCond (0 : Fin 2)) 1 fun _ ↦ false)
        (killsNobody 0), (s.slot 1).state = .used ∧ (s.slot 1).pid = 2 ∧ (s.slot 1).killed = true) ∧
      observations (faultStep (oneCond 0)) (killObs (oneCond 0))
        (boot (oneCond (0 : Fin 2)) 1 fun _ ↦ false) (killsNobody 0) = [.hit 1 0, .born 1 2] := by
    decide +kernel
  obtain ⟨⟨s, hs, hstate, hpid, hkilled⟩, hobs⟩ := hrun
  refine ⟨s, hs, hstate, hpid, hkilled, hobs, ?_⟩
  rw [hobs]
  rintro ⟨before, o, since, htr, ho, -⟩
  have hmem : o ∈ [KillObs.hit 1 0, .born 1 2] := by
    rw [htr]
    simp
  simp only [List.mem_cons, List.not_mem_nil, or_false] at hmem
  rcases hmem with rfl | rfl <;> simp at ho

end Kernel

end Xv6

import Mathlib.Data.Finset.Card
import Xv6.Proc.Model

/-!
# What the instructions do

Every fact about single instructions that the invariants of the system need, each proved once by
going through all of them: which spinlocks a CPU holds at an instruction, and how that changes with
the next one (`Kernel.changes_of_act`); which instructions touch the process table, the
conditions or the CPU, and how (`Kernel.row_of_act`); and that handlers, processes and schedulers
stay in their own code.
-/

namespace Xv6

open Finset

variable {N C : ℕ} {κ Λ : Type}

/-- The lock under which `wakeup` is called. -/
def Waker.lock (P : Setup N κ Λ) : Waker N κ → Lock N Λ
  | raise k => .cond (P.lk k)
  | reparent _ _ | exit _ _ => .wait

namespace Pc

/-- `ls` and, for the thread of `p`, also `p->lock`. -/
def withOwn [DecidableEq Λ] (ls : Finset (Lock N Λ)) : Fin N ⊕ Fin C → Finset (Lock N Λ)
  | .inl p => insert (.proc p) ls
  | .inr _ => ls

/-- The locks that a CPU holds when it executes the thread `me` at `pc`. -/
def holds [DecidableEq Λ] (P : Setup N κ Λ) (me : Fin N ⊕ Fin C) : Pc N κ → Finset (Lock N Λ)
  | user | condLock _ | sleepRelock _ | raiseLock _ | kill _ _ | yieldLock | alloc _ | forkWait _
  | forkLock _ | exitWait _ | exited | waitLock _ | sched _ => ∅
  | condTest k | condDone k | raise k | raiseUnlock k => {.cond (P.lk k)}
  | sleepLock w => {w.lock P}
  | sleepUnlock w => withOwn {w.lock P} me
  | sleepSwtch _ | sleepTidy _ | yieldSwtch | yieldUnlock | exitSwtch => withOwn ∅ me
  | wakeup y _ => {y.lock P}
  | wakeupVisit y j _ => {.proc j, y.lock P}
  | killVisit _ j _ | allocVisit j _ | forkCopy j | forkRun j | schedVisit j _ | schedBack j _ =>
    {.proc j}
  | allocPid j => {.pid, .proc j}
  | forkParent _ | exitReparent _ _ | exitLock _ | waitScan _ _ _ | waitKilled _ | waitUnlock =>
    {.wait}
  | exitZombie _ | waitCheck _ => withOwn {.wait} me
  | waitVisit _ j _ => {.proc j, .wait}

/-- The slot that `kfork` is filling. -/
def forks : Pc N κ → Option (Fin N)
  | allocPid np | forkCopy np | forkWait np | forkParent np | forkLock np | forkRun np => some np
  | _ => none

/-- Instructions of the scheduler. -/
def isSched : Pc N κ → Bool
  | sched _ | schedVisit _ _ | schedBack _ _ => true
  | _ => false

/-- Instructions of a handler that makes a condition true. -/
def isRaise : Pc N κ → Bool
  | raiseLock _ | raise _ | raiseUnlock _ | wakeup (.raise _) _ | wakeupVisit (.raise _) _ _ => true
  | _ => false

/-- Instructions of `yield`. -/
def isYield : Pc N κ → Bool
  | yieldLock | yieldSwtch | yieldUnlock => true
  | _ => false

/-- The end of `kexit`. -/
def isExit : Pc N κ → Bool
  | exitSwtch | exited => true
  | _ => false

/-- Where a process can wait for a CPU, or be when it has ended. -/
def isParked : Pc N κ → Bool
  | sleepTidy _ | yieldUnlock | exited => true
  | _ => false

/-- What the thread `me` executes outside handlers. -/
def isBase : Fin N ⊕ Fin C → Pc N κ → Bool
  | .inl _, pc => !pc.isSched
  | .inr _, pc => pc.isSched

/-- What the thread `me` executes in handlers. -/
def isHandler : Fin N ⊕ Fin C → Pc N κ → Bool
  | .inl _, pc => pc.isRaise || pc.isYield
  | .inr _, pc => pc.isRaise

theorem not_isHandler_of_forks {pc : Pc N κ} {np : Fin N} (h : pc.forks = some np)
    (me : Fin N ⊕ Fin C) : pc.isHandler me = false ∧ pc.isSched = false := by
  cases pc with
  | allocPid | forkCopy | forkWait | forkParent | forkLock | forkRun =>
    cases me <;> exact ⟨rfl, rfl⟩
  | _ => cases h

end Pc

/-- What a lock operation does to the set of locks held. -/
def LockOp.Changes [DecidableEq Λ] (old new : Finset (Lock N Λ)) : LockOp N Λ → Prop
  | none => new = old
  | acquire l => new = insert l old
  | release l => l ∈ old ∧ old.erase l = new

/-- The slot that an effect changes. -/
def Effect.target : Effect N κ → Option (Fin N)
  | none | setCond _ _ | see _ _ _ => .none
  | wake j _ | kill j | sleep j _ | tidy j | yield j | alloc j | free j | reap _ j _ | adopt j _
  | start j | die j _ | run j => some j

theorem Slot.state_wake (sl : Slot N) (ch : Option (Chan N)) :
    (sl.wake ch).state = sl.state ∨ sl.state = .sleeping ∧ (sl.wake ch).state = .runnable := by
  rw [wake]
  split_ifs with h
  · exact .inr ⟨h.1, rfl⟩
  · exact .inl rfl

theorem Slot.chan_wake (sl : Slot N) (ch : Option (Chan N)) : (sl.wake ch).chan = sl.chan := by
  rw [wake]
  split_ifs <;> rfl

theorem Slot.state_kill (sl : Slot N) :
    sl.kill.state = sl.state ∨ sl.state = .sleeping ∧ sl.kill.state = .runnable := by
  rw [kill]
  split_ifs with h
  · exact .inr ⟨h, rfl⟩
  · exact .inl rfl

theorem Slot.chan_kill (sl : Slot N) : sl.kill.chan = sl.chan := by
  rw [kill]
  split_ifs <;> rfl

namespace Kernel

theorem slotsAfter_of_ne {s : Kernel N C κ Λ} {e : Effect N κ} {q : Fin N} (h : e.target ≠ some q) :
    s.slotsAfter e q = s.slot q := by
  cases e with
  | none | setCond k b | see p k b => rfl
  | wake j ch | kill j | sleep j ch | tidy j | yield j | alloc j | free j | reap p j addr
  | adopt j p | start j | die j st | run j =>
    exact Function.update_of_ne (fun hqj ↦ h (congrArg some hqj.symm)) _ _

theorem slotsAfter_self {s : Kernel N C κ Λ} {e : Effect N κ} {q : Fin N} {sl : Slot N}
    (h : s.slotsAfter e = Function.update s.slot q sl) : s.slotsAfter e q = sl := by
  rw [h, Function.update_self]

variable [DecidableEq Λ] {P : Setup N κ Λ} {s t : Kernel N C κ Λ} {me : Fin N ⊕ Fin C} {ok : Bool}
    {pc : Pc N κ}
  {a : Action N κ Λ}

theorem changes_of_act (h : s.act P me ok pc = some a) (hstay : a.swtch = .stay) :
    a.lock.Changes (pc.holds P me) (a.next.holds P me) := by
  revert h
  fun_cases s.act P me ok pc <;> intro h <;> cases h
  all_goals first
    | (cases hstay; done)
    | rfl
    | (cases ‹Reason κ› <;>
        first | rfl | simp [LockOp.Changes, Pc.holds, Pc.withOwn, Reason.lock, erase_insert_of_ne])
    | (cases ‹Waker N κ› <;> first | rfl | simp [LockOp.Changes, Pc.holds, Waker.lock])
    | simp [LockOp.Changes, Pc.holds, Pc.withOwn, Reason.lock, erase_insert_of_ne]

/-- The instructions that have an effect or switch to another thread, and the others. -/
inductive Row (P : Setup N κ Λ) (s : Kernel N C κ Λ) : Fin N ⊕ Fin C → Pc N κ → Action N κ Λ → Prop
  | quiet {me : Fin N ⊕ Fin C} {pc : Pc N κ} {a : Action N κ Λ} (heffect : a.effect = .none)
      (hswtch : a.swtch = .stay) : Row P s me pc a
  | wake (me : Fin N ⊕ Fin C) (y : Waker N κ) (j : Fin N) (js : List (Fin N)) :
      Row P s me (.wakeupVisit y j js)
        { lock := .release (.proc j), effect := .wake j (y.chan P), next := .wakeup y js }
  | kill (me : Fin N ⊕ Fin C) (j : Fin N) (js : List (Fin N)) :
      Row P s me (.killVisit (s.slot j).pid j js)
        { lock := .release (.proc j), effect := .kill j, next := .user, ret := some 0 }
  | raise (me : Fin N ⊕ Fin C) (k : κ) :
      Row P s me (.raise k)
        { effect := .setCond k true, next := .wakeup (.raise k) (others me) }
  | done (me : Fin N ⊕ Fin C) (k : κ) (ok : Bool) :
      Row P s me (.condDone k)
        { lock := .release (.cond (P.lk k)), effect := .setCond k (s.cond k && ok), next := .user }
  | seeTrue (p : Fin N) (k : κ) (h : s.cond k = true) :
      Row P s (.inl p) (.condTest k) { effect := .see p k true, next := .condDone k }
  | seeFalse (p : Fin N) (k : κ) (h : s.cond k = false) :
      Row P s (.inl p) (.condTest k) { effect := .see p k false, next := .sleepLock (.cond k) }
  | sleep (p : Fin N) (w : Reason κ) :
      Row P s (.inl p) (.sleepSwtch w)
        { effect := .sleep p (w.chan P p), next := .sleepTidy w, swtch := .toScheduler }
  | tidy (p : Fin N) (w : Reason κ) :
      Row P s (.inl p) (.sleepTidy w)
        { lock := .release (.proc p), effect := .tidy p, next := .sleepRelock w }
  | yield (p : Fin N) :
      Row P s (.inl p) .yieldSwtch
        { effect := .yield p, next := .yieldUnlock, swtch := .toScheduler }
  | alloc (me : Fin N ⊕ Fin C) (j : Fin N) (js : List (Fin N)) (h : (s.slot j).state = .unused) :
      Row P s me (.allocVisit j js)
        { lock := .acquire .pid, effect := .alloc j, next := .allocPid j }
  | free (me : Fin N ⊕ Fin C) (np : Fin N) :
      Row P s me (.forkCopy np)
        { lock := .release (.proc np), effect := .free np, next := .user, ret := some (-1) }
  | adopt (p np : Fin N) :
      Row P s (.inl p) (.forkParent np)
        { lock := .release .wait, effect := .adopt np p, next := .forkLock np }
  | start (me : Fin N ⊕ Fin C) (np : Fin N) :
      Row P s me (.forkRun np)
        { lock := .release (.proc np), effect := .start np, next := .user
          ret := some (s.slot np).pid }
  | reparent (me : Fin N ⊕ Fin C) (status : BitVec 32) (pp : Fin N) (pps : List (Fin N))
      (h : (s.slot pp).parent.map .inl = some me) :
      Row P s me (.exitReparent status (pp :: pps))
        { effect := .adopt pp P.initproc, next := .wakeup (.reparent status pps) (others me) }
  | die (p : Fin N) (status : BitVec 32) :
      Row P s (.inl p) (.exitZombie status)
        { lock := .release .wait, effect := .die p status, next := .exitSwtch }
  | leave (p : Fin N) :
      Row P s (.inl p) .exitSwtch { next := .exited, swtch := .toScheduler }
  | reap (p : Fin N) (addr : BitVec 64) (j : Fin N) (js : List (Fin N)) (ok : Bool)
      (h : (s.slot j).state = .zombie) (hcopy : addr = 0 ∨ ok = true) :
      Row P s (.inl p) (.waitVisit addr j js)
        { lock := .release (.proc j), effect := .reap p j addr, next := .waitUnlock
          ret := some (s.slot j).pid }
  | run (me : Fin N ⊕ Fin C) (j : Fin N) (js : List (Fin N)) (h : (s.slot j).state = .runnable) :
      Row P s me (.schedVisit j js)
        { effect := .run j, next := .schedBack j js, swtch := .toProc j }

omit [DecidableEq Λ] in
theorem row_of_act (h : s.act P me ok pc = some a) : Row P s me pc a := by
  revert h
  fun_cases s.act P me ok pc <;> intro h <;> cases h
  all_goals first
    | exact .quiet rfl rfl
    | exact .wake _ _ _ _
    | exact .kill _ _ _
    | exact .raise _ _
    | exact .done _ _ _
    | exact .seeTrue _ _ ‹_›
    | exact .seeFalse _ _ (Bool.eq_false_of_not_eq_true ‹_›)
    | exact .sleep _ _
    | exact .tidy _ _
    | exact .yield _
    | exact .alloc _ _ _ ‹_›
    | exact .free _ _
    | exact .adopt _ _
    | exact .start _ _
    | exact .reparent _ _ _ _ ‹_›
    | exact .die _ _
    | exact .leave _
    | exact .reap _ _ _ _ _ ‹_› ‹_›
    | exact .run _ _ _ ‹_›

/-- A step of a process that calls `sched`. -/
inductive Leaves (P : Setup N κ Λ) (p : Fin N) : Pc N κ → Effect N κ → Pc N κ → Prop
  | sleep (w : Reason κ) : Leaves P p (.sleepSwtch w) (.sleep p (w.chan P p)) (.sleepTidy w)
  | yield : Leaves P p .yieldSwtch (.yield p) .yieldUnlock
  | exit : Leaves P p .exitSwtch .none .exited

theorem Leaves.holds_eq {p : Fin N} {e : Effect N κ} {next : Pc N κ} (h : Leaves P p pc e next) :
    pc.holds P (.inl p : Fin N ⊕ Fin C) = {.proc p} := by
  cases h <;> rfl

omit [DecidableEq Λ] in
theorem swtch_cases (h : s.act P me ok pc = some a) :
    a.swtch = .stay ∨
      (∃ p, me = .inl p ∧ a.swtch = .toScheduler ∧ a.lock = .none ∧ Leaves P p pc a.effect a.next) ∨
      ∃ j js, pc = .schedVisit j js ∧ (s.slot j).state = .runnable ∧ a.swtch = .toProc j ∧
        a.lock = .none ∧ a.effect = .run j ∧ a.next = .schedBack j js := by
  cases row_of_act h with
  | quiet heffect hswtch => exact .inl hswtch
  | sleep p w => exact .inr (.inl ⟨p, rfl, rfl, rfl, .sleep w⟩)
  | yield p => exact .inr (.inl ⟨p, rfl, rfl, rfl, .yield⟩)
  | leave p => exact .inr (.inl ⟨p, rfl, rfl, rfl, .exit⟩)
  | run me j js hstate => exact .inr (.inr ⟨j, js, rfl, hstate, rfl, rfl, rfl, rfl⟩)
  | _ => exact .inl rfl

omit [DecidableEq Λ] in
theorem isBase_of_act (h : s.act P me ok pc = some a) (hbase : pc.isBase me = true) :
    a.next.isBase me = true := by
  revert h hbase
  fun_cases s.act P me ok pc <;> intro h hbase <;> cases h
  all_goals first
    | exact hbase
    | (cases ‹Fin N ⊕ Fin C› <;> first | rfl | exact hbase)
    | (cases ‹Reason κ› <;> cases ‹Fin N ⊕ Fin C› <;> first | rfl | exact hbase)
    | (cases ‹Waker N κ› <;> cases ‹Fin N ⊕ Fin C› <;> first | rfl | exact hbase)

omit [DecidableEq Λ] in
theorem isHandler_of_act (h : s.act P me ok pc = some a) (hhandler : pc.isHandler me = true) :
    a.next.isHandler me = true ∨ a.next = .user := by
  revert h hhandler
  fun_cases s.act P me ok pc <;> intro h hhandler <;> cases h
  all_goals first
    | exact .inr rfl
    | exact .inl hhandler
    | (cases ‹Fin N ⊕ Fin C› <;> first | exact .inl rfl | cases hhandler)
    | (cases ‹Waker N κ› <;> cases ‹Fin N ⊕ Fin C› <;> first | exact .inl rfl | cases hhandler)

omit [DecidableEq Λ] in
theorem forks_of_act (h : s.act P me ok pc = some a) {np : Fin N}
    (hforks : a.next.forks = some np) : pc.forks = some np ∨ a.effect = .alloc np := by
  revert h hforks
  fun_cases s.act P me ok pc <;> intro h hforks <;> cases h
  all_goals first
    | exact .inl hforks
    | (cases hforks; first | exact .inr rfl | done)
    | (cases ‹Reason κ› <;> cases hforks)
    | (cases ‹Waker N κ› <;> cases hforks)

omit [DecidableEq Λ] in
theorem isExit_of_act (h : s.act P me ok pc = some a) (hstay : a.swtch = .stay) :
    a.next.isExit = false ∨ ∃ p status, me = .inl p ∧ a.effect = .die p status := by
  revert h hstay
  fun_cases s.act P me ok pc <;> intro h hstay <;> cases h
  all_goals first
    | exact .inl rfl
    | (cases ‹Reason κ› <;> exact .inl rfl)
    | (cases ‹Waker N κ› <;> exact .inl rfl)
    | exact .inr ⟨_, _, rfl, rfl⟩
    | cases hstay

end Kernel

end Xv6

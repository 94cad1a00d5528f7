import Mathlib.Data.Fintype.Sum
import Mathlib.Data.List.FinRange
import Mathlib.Logic.Function.Basic
import Xv6.Library.Run

/-!
# Processes, sleep and wakeup

`kernel/proc.c` on `C` CPUs with a table of `N` slots: the scheduler, `sched`, `yield`, `sleep`,
`wakeup`, `kkill`, `kfork`, `kexit` and `kwait`. The rest of the kernel is there through what it
does with `sleep` and `wakeup`: it waits for conditions `k : κ`, each of which has a spinlock and a
channel (several conditions may share either), with `acquire(lk); while (!cond) sleep(chan, lk); …;
release(lk)`, and makes them true with `acquire(lk); cond = 1; wakeup(chan); release(lk)`, in
processes and in interrupt handlers.

A thread is a process or the scheduler of a CPU. It has a program counter and, when an interrupt has
come in, the program counter of the handler. A step acquires or releases at most one spinlock,
together with what the thread does to the memory this lock protects; a context switch moves the CPU
to another thread and leaves the locks with the CPU, as `swtch` does. Interrupts come in only while
`noff` is `0`. A panic is a thread without a next step.

The locks that the code takes under `p->lock` and gives back before it takes another one, those of
the allocator, the file table and the inode table, are left out; `pid_lock` is one of this kind too,
and is there for `nextpid`.
-/

namespace Xv6

/-- `enum procstate`. -/
inductive ProcState
  | unused | used | sleeping | runnable | running | zombie
  deriving DecidableEq

/-- What one can sleep on: the address of a slot, or another address. -/
inductive Chan (N : ℕ)
  | proc (p : Fin N)
  | other (a : ℕ)
  deriving DecidableEq

/-- The spinlocks: `p->lock`, `wait_lock`, `pid_lock`, and the locks of the conditions. -/
inductive Lock (N : ℕ) (Λ : Type)
  | proc (p : Fin N)
  | wait
  | pid
  | cond (l : Λ)
  deriving DecidableEq

/-- The conditions of the rest of the kernel, and the first process. -/
structure Setup (N : ℕ) (κ Λ : Type) where
  lk : κ → Λ
  chan : κ → Chan N
  initproc : Fin N

/-- Why a process calls `sleep`: for a condition, or for a child in `kwait(addr)`. -/
inductive Reason (κ : Type)
  | cond (k : κ)
  | child (addr : BitVec 64)
  deriving DecidableEq

/-- Who calls `wakeup`: who has made a condition true, `reparent` in `kexit(status)` before it goes
on with `pps`, and `kexit(status)` for the parent. -/
inductive Waker (N : ℕ) (κ : Type)
  | raise (k : κ)
  | reparent (status : BitVec 32) (pps : List (Fin N))
  | exit (status : BitVec 32) (parent : Option (Fin N))
  deriving DecidableEq

/-- Program counters. A list of slots is what a loop over the table has still before it. -/
inductive Pc (N : ℕ) (κ : Type)
  /-- In user space. A handler that gets here returns. -/
  | user
  /-- Waiting for `k`: `acquire(lk)`. -/
  | condLock (k : κ)
  /-- `while (!cond)`. -/
  | condTest (k : κ)
  /-- What is done after the loop, and `release(lk)`. -/
  | condDone (k : κ)
  /-- `sleep`: `acquire(&p->lock)`. -/
  | sleepLock (w : Reason κ)
  /-- `release(lk)`. -/
  | sleepUnlock (w : Reason κ)
  /-- `p->chan = chan; p->state = SLEEPING; sched()`. -/
  | sleepSwtch (w : Reason κ)
  /-- `p->chan = 0; release(&p->lock)`. -/
  | sleepTidy (w : Reason κ)
  /-- `acquire(lk)`. -/
  | sleepRelock (w : Reason κ)
  /-- Making `k` true: `acquire(lk)`. -/
  | raiseLock (k : κ)
  | raise (k : κ)
  /-- `release(lk)`. -/
  | raiseUnlock (k : κ)
  /-- `wakeup`: `acquire(&p->lock)`. -/
  | wakeup (y : Waker N κ) (js : List (Fin N))
  | wakeupVisit (y : Waker N κ) (j : Fin N) (js : List (Fin N))
  /-- `kkill`: `acquire(&p->lock)`. -/
  | kill (pid : BitVec 32) (js : List (Fin N))
  | killVisit (pid : BitVec 32) (j : Fin N) (js : List (Fin N))
  /-- `yield`: `acquire(&p->lock)`. -/
  | yieldLock
  /-- `p->state = RUNNABLE; sched()`. -/
  | yieldSwtch
  /-- `release(&p->lock)`, also at the beginning of `forkret`. -/
  | yieldUnlock
  /-- `allocproc`: `acquire(&p->lock)`. -/
  | alloc (js : List (Fin N))
  | allocVisit (j : Fin N) (js : List (Fin N))
  /-- `allocpid`: `release(&pid_lock)`. -/
  | allocPid (np : Fin N)
  /-- The rest of `allocproc` and the copy of the parent in `kfork`; `release(&np->lock)`. -/
  | forkCopy (np : Fin N)
  /-- `acquire(&wait_lock)`. -/
  | forkWait (np : Fin N)
  /-- `np->parent = p; release(&wait_lock)`. -/
  | forkParent (np : Fin N)
  /-- `acquire(&np->lock)`. -/
  | forkLock (np : Fin N)
  /-- `np->state = RUNNABLE; release(&np->lock)`. -/
  | forkRun (np : Fin N)
  /-- `kexit`: `acquire(&wait_lock)`. -/
  | exitWait (status : BitVec 32)
  /-- The loop of `reparent`, and then `wakeup(p->parent)`. -/
  | exitReparent (status : BitVec 32) (pps : List (Fin N))
  /-- `acquire(&p->lock)`. -/
  | exitLock (status : BitVec 32)
  /-- `p->xstate = status; p->state = ZOMBIE; release(&wait_lock)`. -/
  | exitZombie (status : BitVec 32)
  /-- `sched()`. -/
  | exitSwtch
  | exited
  /-- `kwait`: `acquire(&wait_lock)`. -/
  | waitLock (addr : BitVec 64)
  /-- The loop over the table: `acquire(&pp->lock)` for a child. -/
  | waitScan (addr : BitVec 64) (js : List (Fin N)) (havekids : Bool)
  | waitVisit (addr : BitVec 64) (j : Fin N) (js : List (Fin N))
  /-- `killed(p)`. -/
  | waitKilled (addr : BitVec 64)
  | waitCheck (addr : BitVec 64)
  /-- `release(&wait_lock)`. -/
  | waitUnlock
  /-- `scheduler`: `acquire(&p->lock)`. -/
  | sched (js : List (Fin N))
  | schedVisit (j : Fin N) (js : List (Fin N))
  /-- Behind `swtch`: `release(&p->lock)`. -/
  | schedBack (j : Fin N) (js : List (Fin N))
  deriving DecidableEq

/-- A slot of the process table. -/
structure Slot (N : ℕ) where
  state : ProcState
  chan : Option (Chan N)
  killed : Bool
  pid : BitVec 32
  parent : Option (Fin N)
  xstate : BitVec 32
  deriving DecidableEq

/-- A thread: where it is, and where its interrupt handler is. -/
structure Thread (N : ℕ) (κ : Type) where
  pc : Pc N κ
  intr : Option (Pc N κ)
  deriving DecidableEq

/-- The instruction the thread executes next. -/
def Thread.top {N : ℕ} {κ : Type} (th : Thread N κ) : Pc N κ := th.intr.getD th.pc

/-- The whole system. -/
structure Kernel (N C : ℕ) (κ Λ : Type) where
  slot : Fin N → Slot N
  thread : Fin N ⊕ Fin C → Thread N κ
  lock : Lock N Λ → Option (Fin C)
  noff : Fin C → ℕ
  /-- The process on whose kernel stack a CPU executes, which is also `c->proc`. -/
  on : Fin C → Option (Fin N)
  cond : κ → Bool
  nextpid : BitVec 32
  /-- What the last evaluation of a condition by a process gave. -/
  last : Fin N → κ → Bool
  /-- What the last system call of a process returned. -/
  ret : Fin N → BitVec 32
  /-- The exit status that `kwait` has copied out last, and where to. -/
  copied : Fin N → Option (BitVec 64 × BitVec 32)

/-- What a step does to a spinlock. -/
inductive LockOp (N : ℕ) (Λ : Type)
  | none
  | acquire (l : Lock N Λ)
  | release (l : Lock N Λ)

/-- What a step does to the rest of the memory. -/
inductive Effect (N : ℕ) (κ : Type)
  | none
  | wake (j : Fin N) (chan : Option (Chan N))
  | kill (j : Fin N)
  | setCond (k : κ) (b : Bool)
  | see (p : Fin N) (k : κ) (b : Bool)
  | sleep (p : Fin N) (chan : Chan N)
  | tidy (p : Fin N)
  | yield (p : Fin N)
  | alloc (j : Fin N)
  | free (j : Fin N)
  | reap (p j : Fin N) (addr : BitVec 64)
  | adopt (j q : Fin N)
  | start (j : Fin N)
  | die (p : Fin N) (status : BitVec 32)
  | run (j : Fin N)

/-- Which thread the CPU executes next. -/
inductive Swtch (N : ℕ)
  | stay
  | toScheduler
  | toProc (j : Fin N)

/-- One step of a thread. -/
structure Action (N : ℕ) (κ Λ : Type) where
  lock : LockOp N Λ := .none
  effect : Effect N κ := .none
  next : Pc N κ
  swtch : Swtch N := .stay
  ret : Option (BitVec 32) := none

/-- A system call, as far as it is modelled. -/
inductive Call (κ : Type)
  | await (k : κ)
  | raise (k : κ)
  | kkill (pid : BitVec 32)
  | yield
  | kfork
  | kexit (status : BitVec 32)
  | kwait (addr : BitVec 64)
  deriving DecidableEq

/-- What can happen next. -/
inductive KernelEvent (C : ℕ) (κ : Type)
  /-- The process on `c` leaves user space. -/
  | call (c : Fin C) (f : Call κ)
  /-- `c` executes an instruction; `ok` says whether memory can be allocated or copied out, and
  whether a condition is used up. -/
  | exec (c : Fin C) (ok : Bool)
  /-- An interrupt on `c` whose handler makes `k` true. -/
  | interrupt (c : Fin C) (k : κ)
  /-- A timer interrupt on `c` in a process. -/
  | preempt (c : Fin C)
  deriving DecidableEq

section Parameters

variable {N C : ℕ} {κ Λ : Type}

/-- The lock that `sleep` is called with. -/
def Reason.lock (P : Setup N κ Λ) : Reason κ → Lock N Λ
  | cond k => .cond (P.lk k)
  | child _ => .wait

/-- The channel that `sleep` is called with. -/
def Reason.chan (P : Setup N κ Λ) (p : Fin N) : Reason κ → Chan N
  | cond k => P.chan k
  | child _ => .proc p

/-- The channel that `wakeup` is called with. -/
def Waker.chan (P : Setup N κ Λ) : Waker N κ → Option (Chan N)
  | raise k => some (P.chan k)
  | reparent _ _ => some (.proc P.initproc)
  | exit _ parent => parent.map .proc

/-- Where `wakeup` returns to. -/
def Waker.back : Waker N κ → Pc N κ
  | raise k => .raiseUnlock k
  | reparent status pps => .exitReparent status pps
  | exit status _ => .exitLock status

/-- Where the loop after `sleep` goes on. -/
def Reason.loop : Reason κ → Pc N κ
  | cond k => .condTest k
  | child addr => .waitScan addr (List.finRange N) false

/-- The first instruction of a call. -/
def Call.pc : Call κ → Pc N κ
  | await k => .condLock k
  | raise k => .raiseLock k
  | kkill pid => .kill pid (List.finRange N)
  | yield => .yieldLock
  | kfork => .alloc (List.finRange N)
  | kexit status => .exitWait status
  | kwait addr => .waitLock addr

/-- The slots that `wakeup` visits when thread `me` calls it: all except `myproc()`. -/
def others (me : Fin N ⊕ Fin C) : List (Fin N) := (List.finRange N).filter fun j ↦ .inl j ≠ me

/-- The empty slot that `freeproc` leaves. -/
def Slot.free : Slot N := ⟨.unused, none, false, 0, none, 0⟩

/-- `if (p->state == SLEEPING && p->chan == chan) p->state = RUNNABLE`. -/
def Slot.wake (sl : Slot N) (chan : Option (Chan N)) : Slot N :=
  if sl.state = .sleeping ∧ sl.chan = chan then { sl with state := .runnable } else sl

/-- What `kkill` does to the process it has found. -/
def Slot.kill (sl : Slot N) : Slot N :=
  if sl.state = .sleeping then { sl with killed := true, state := .runnable }
  else { sl with killed := true }

/-- The thread goes on at `pc`; a handler that has ended is left. -/
def Thread.goto [DecidableEq κ] (th : Thread N κ) (pc : Pc N κ) : Thread N κ :=
  match th.intr with
  | none => { th with pc := pc }
  | some _ => { th with intr := if pc = .user then none else some pc }

end Parameters

namespace Kernel

variable {N C : ℕ} {κ Λ : Type} (P : Setup N κ Λ) (s : Kernel N C κ Λ)

/-- The thread that `c` executes. -/
def current (c : Fin C) : Fin N ⊕ Fin C := (s.on c).elim (.inr c) .inl

/-- What the thread `me` does at a program counter. -/
def act (me : Fin N ⊕ Fin C) (ok : Bool) : Pc N κ → Option (Action N κ Λ)
  | .user => none
  | .condLock k => some { lock := .acquire (.cond (P.lk k)), next := .condTest k }
  | .condTest k =>
    match me with
    | .inl p =>
      if s.cond k then some { effect := .see p k true, next := .condDone k }
      else some { effect := .see p k false, next := .sleepLock (.cond k) }
    | .inr _ => none
  | .condDone k => some
      { lock := .release (.cond (P.lk k))
        effect := .setCond k (s.cond k && ok)
        next := .user }
  | .sleepLock w =>
    match me with
    | .inl p => some { lock := .acquire (.proc p), next := .sleepUnlock w }
    | .inr _ => none
  | .sleepUnlock w =>
    match me with
    | .inl _ => some { lock := .release (w.lock P), next := .sleepSwtch w }
    | .inr _ => none
  | .sleepSwtch w =>
    match me with
    | .inl p => some
        { effect := .sleep p (w.chan P p), next := .sleepTidy w, swtch := .toScheduler }
    | .inr _ => none
  | .sleepTidy w =>
    match me with
    | .inl p => some { lock := .release (.proc p), effect := .tidy p, next := .sleepRelock w }
    | .inr _ => none
  | .sleepRelock w => some { lock := .acquire (w.lock P), next := w.loop }
  | .raiseLock k => some { lock := .acquire (.cond (P.lk k)), next := .raise k }
  | .raise k => some { effect := .setCond k true, next := .wakeup (.raise k) (others me) }
  | .raiseUnlock k => some { lock := .release (.cond (P.lk k)), next := .user }
  | .wakeup y [] => some { next := y.back }
  | .wakeup y (j :: js) => some { lock := .acquire (.proc j), next := .wakeupVisit y j js }
  | .wakeupVisit y j js => some
      { lock := .release (.proc j), effect := .wake j (y.chan P), next := .wakeup y js }
  | .kill _ [] => some { next := .user, ret := some (-1) }
  | .kill pid (j :: js) => some { lock := .acquire (.proc j), next := .killVisit pid j js }
  | .killVisit pid j js =>
    if (s.slot j).pid = pid then
      some { lock := .release (.proc j), effect := .kill j, next := .user, ret := some 0 }
    else
      some { lock := .release (.proc j), next := .kill pid js }
  | .yieldLock =>
    match me with
    | .inl p => some { lock := .acquire (.proc p), next := .yieldSwtch }
    | .inr _ => none
  | .yieldSwtch =>
    match me with
    | .inl p => some { effect := .yield p, next := .yieldUnlock, swtch := .toScheduler }
    | .inr _ => none
  | .yieldUnlock =>
    match me with
    | .inl p => some { lock := .release (.proc p), next := .user }
    | .inr _ => none
  | .alloc [] => some { next := .user, ret := some (-1) }
  | .alloc (j :: js) => some { lock := .acquire (.proc j), next := .allocVisit j js }
  | .allocVisit j js =>
    if (s.slot j).state = .unused then
      some { lock := .acquire .pid, effect := .alloc j, next := .allocPid j }
    else some { lock := .release (.proc j), next := .alloc js }
  | .allocPid np => some { lock := .release .pid, next := .forkCopy np }
  | .forkCopy np =>
    if ok then some { lock := .release (.proc np), next := .forkWait np }
    else some
      { lock := .release (.proc np), effect := .free np, next := .user, ret := some (-1) }
  | .forkWait np => some { lock := .acquire .wait, next := .forkParent np }
  | .forkParent np =>
    match me with
    | .inl p => some { lock := .release .wait, effect := .adopt np p, next := .forkLock np }
    | .inr _ => none
  | .forkLock np => some { lock := .acquire (.proc np), next := .forkRun np }
  | .forkRun np => some
      { lock := .release (.proc np), effect := .start np, next := .user
        ret := some (s.slot np).pid }
  | .exitWait status =>
    -- The first process panics.
    if me = .inl P.initproc then none
    else some { lock := .acquire .wait, next := .exitReparent status (List.finRange N) }
  | .exitReparent status [] =>
    match me with
    | .inl p => some { next := .wakeup (.exit status (s.slot p).parent) (others me) }
    | .inr _ => none
  | .exitReparent status (pp :: pps) =>
    if (s.slot pp).parent.map .inl = some me then
      some { effect := .adopt pp P.initproc, next := .wakeup (.reparent status pps) (others me) }
    else
      some { next := .exitReparent status pps }
  | .exitLock status =>
    match me with
    | .inl p => some { lock := .acquire (.proc p), next := .exitZombie status }
    | .inr _ => none
  | .exitZombie status =>
    match me with
    | .inl p => some { lock := .release .wait, effect := .die p status, next := .exitSwtch }
    | .inr _ => none
  | .exitSwtch =>
    match me with
    | .inl _ => some { next := .exited, swtch := .toScheduler }
    | .inr _ => none
  | .exited => none
  | .waitLock addr => some
      { lock := .acquire .wait, next := .waitScan addr (List.finRange N) false }
  | .waitScan addr [] havekids =>
    if havekids then some { next := .waitKilled addr }
    else some { next := .waitUnlock, ret := some (-1) }
  | .waitScan addr (j :: js) havekids =>
    if (s.slot j).parent.map .inl = some me then
      some { lock := .acquire (.proc j), next := .waitVisit addr j js }
    else
      some { next := .waitScan addr js havekids }
  | .waitVisit addr j js =>
    match me with
    | .inl p =>
      if (s.slot j).state = .zombie then
        if addr = 0 ∨ ok then some
          { lock := .release (.proc j), effect := .reap p j addr, next := .waitUnlock
            ret := some (s.slot j).pid }
        else
          some { lock := .release (.proc j), next := .waitUnlock, ret := some (-1) }
      else
        some { lock := .release (.proc j), next := .waitScan addr js true }
    | .inr _ => none
  | .waitKilled addr =>
    match me with
    | .inl p => some { lock := .acquire (.proc p), next := .waitCheck addr }
    | .inr _ => none
  | .waitCheck addr =>
    match me with
    | .inl p =>
      if (s.slot p).killed then
        some { lock := .release (.proc p), next := .waitUnlock, ret := some (-1) }
      else
        some { lock := .release (.proc p), next := .sleepLock (.child addr) }
    | .inr _ => none
  | .waitUnlock => some { lock := .release .wait, next := .user }
  | .sched [] => some { next := .sched (List.finRange N) }
  | .sched (j :: js) => some { lock := .acquire (.proc j), next := .schedVisit j js }
  | .schedVisit j js =>
    if (s.slot j).state = .runnable then
      some { effect := .run j, next := .schedBack j js, swtch := .toProc j }
    else
      some { lock := .release (.proc j), next := .sched js }
  | .schedBack j js => some { lock := .release (.proc j), next := .sched js }

variable [DecidableEq κ] [DecidableEq Λ]

/-- What an effect does to the table. -/
def slotsAfter : Effect N κ → Fin N → Slot N
  | .wake j chan => Function.update s.slot j ((s.slot j).wake chan)
  | .kill j => Function.update s.slot j (s.slot j).kill
  | .sleep p chan =>
    Function.update s.slot p { s.slot p with chan := some chan, state := .sleeping }
  | .tidy p => Function.update s.slot p { s.slot p with chan := none }
  | .yield p => Function.update s.slot p { s.slot p with state := .runnable }
  -- `allocproc` leaves `killed` as it is.
  | .alloc j => Function.update s.slot j { s.slot j with pid := s.nextpid, state := .used }
  | .free j => Function.update s.slot j .free
  | .reap _ j _ => Function.update s.slot j .free
  | .adopt j q => Function.update s.slot j { s.slot j with parent := some q }
  | .start j => Function.update s.slot j { s.slot j with state := .runnable }
  | .die p status => Function.update s.slot p { s.slot p with xstate := status, state := .zombie }
  | .run j => Function.update s.slot j { s.slot j with state := .running }
  | .none | .setCond _ _ | .see _ _ _ => s.slot

/-- What an effect does to the conditions. -/
def condAfter : Effect N κ → κ → Bool
  | .setCond k b => Function.update s.cond k b
  | _ => s.cond

/-- What an effect does to the record of evaluations. -/
def lastAfter : Effect N κ → Fin N → κ → Bool
  | .see p k b => Function.update s.last p (Function.update (s.last p) k b)
  | _ => s.last

/-- `kwait` copies out the exit status, unless `addr` is `0`. -/
def copiedAfter : Effect N κ → Fin N → Option (BitVec 64 × BitVec 32)
  | .reap p j addr =>
    if addr = 0 then s.copied else Function.update s.copied p (some (addr, (s.slot j).xstate))
  | _ => s.copied

/-- `allocproc` lets the new process begin in `forkret`. -/
def threadsAfter : Effect N κ → Fin N ⊕ Fin C → Thread N κ
  | .alloc j => Function.update s.thread (.inl j) ⟨.yieldUnlock, none⟩
  | _ => s.thread

def nextpidAfter : Effect N κ → BitVec 32
  | .alloc _ => s.nextpid + 1
  | _ => s.nextpid

/-- Whether interrupts may be on: from `push_off` to the last `pop_off` they are off. -/
def mayInterrupt (c : Fin C) : Bool := s.noff c = 0

/-- `acquire` waits for the lock. `release` panics when this CPU does not hold it, and `pop_off`
when interrupts are on or there was no `push_off`. -/
def canLock (c : Fin C) : LockOp N Λ → Bool
  | .none => true
  | .acquire l => s.lock l = none
  | .release l => s.lock l = some c ∧ s.mayInterrupt c = false ∧ 1 ≤ s.noff c

def lockAfter (c : Fin C) : LockOp N Λ → Lock N Λ → Option (Fin C)
  | .none => s.lock
  | .acquire l => Function.update s.lock l (some c)
  | .release l => Function.update s.lock l none

/-- `push_off` and `pop_off`. -/
def noffAfter (c : Fin C) : LockOp N Λ → Fin C → ℕ
  | .none => s.noff
  | .acquire _ => Function.update s.noff c (s.noff c + 1)
  | .release _ => Function.update s.noff c (s.noff c - 1)

/-- `sched` panics unless `p->lock` is the only lock held, the process is not `RUNNING` any more,
and interrupts are off. -/
def canSwtch (c : Fin C) (e : Effect N κ) : Swtch N → Bool
  | .stay | .toProc _ => true
  | .toScheduler => (s.on c).any fun p ↦ s.lock (.proc p) = some c ∧ s.noff c = 1 ∧
      (s.slotsAfter e p).state ≠ .running ∧ s.mayInterrupt c = false

def onAfter (c : Fin C) : Swtch N → Fin C → Option (Fin N)
  | .stay => s.on
  | .toScheduler => Function.update s.on c none
  | .toProc j => Function.update s.on c (some j)

def retAfter (c : Fin C) : Option (BitVec 32) → Fin N → BitVec 32
  | none => s.ret
  | some v => (s.on c).elim s.ret fun p ↦ Function.update s.ret p v

/-- The system after CPU `c` has done `a`. -/
def perform (c : Fin C) (a : Action N κ Λ) : Kernel N C κ Λ where
  slot := s.slotsAfter a.effect
  thread := Function.update (s.threadsAfter a.effect) (s.current c)
    ((s.thread (s.current c)).goto a.next)
  lock := s.lockAfter c a.lock
  noff := s.noffAfter c a.lock
  on := s.onAfter c a.swtch
  cond := s.condAfter a.effect
  nextpid := s.nextpidAfter a.effect
  last := s.lastAfter a.effect
  ret := s.retAfter c a.ret
  copied := s.copiedAfter a.effect

/-- CPU `c` executes the next instruction of its thread. -/
def exec (c : Fin C) (ok : Bool) : Option (Kernel N C κ Λ) :=
  (s.act P (s.current c) ok (s.thread (s.current c)).top).bind fun a ↦
    if s.canLock c a.lock ∧ s.canSwtch c a.effect a.swtch then some (s.perform c a) else none

/-- A handler is entered at `pc`. -/
def interrupt (c : Fin C) (pc : Pc N κ) : Option (Kernel N C κ Λ) :=
  if s.mayInterrupt c ∧ (s.thread (s.current c)).intr = none then
    some { s with thread := Function.update s.thread (s.current c)
                    { s.thread (s.current c) with intr := some pc } }
  else none

/-- One step. -/
def step (s : Kernel N C κ Λ) : KernelEvent C κ → Option (Kernel N C κ Λ)
  | .call c f =>
    if s.on c ≠ none ∧ s.thread (s.current c) = ⟨.user, none⟩ then
      some { s with thread := Function.update s.thread (s.current c) ⟨f.pc, none⟩ }
    else none
  | .exec c ok => s.exec P c ok
  | .interrupt c k => s.interrupt c (.raiseLock k)
  | .preempt c => if s.on c ≠ none then s.interrupt c .yieldLock else none

omit [DecidableEq κ] [DecidableEq Λ] in
/-- After `userinit`: the first process can run, and the CPUs enter `scheduler`. -/
def boot (C : ℕ) (cond : κ → Bool) : Kernel N C κ Λ where
  slot := Function.update (fun _ ↦ .free) P.initproc
    { Slot.free with state := .runnable, pid := 1 }
  thread := Sum.elim (fun p ↦ ⟨if p = P.initproc then .yieldUnlock else .exited, none⟩)
    fun _ ↦ ⟨.sched (List.finRange N), none⟩
  lock := fun _ ↦ none
  noff := fun _ ↦ 0
  on := fun _ ↦ none
  cond := cond
  nextpid := 2
  last := fun _ _ ↦ true
  ret := fun _ ↦ 0
  copied := fun _ ↦ none

end Kernel

end Xv6

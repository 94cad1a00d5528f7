import Mathlib.Data.Fintype.Basic
import Mathlib.Logic.Function.Basic
import Xv6.Library.RingQueue
import Xv6.Library.Run

/-!
# Pipes

`kernel/pipe.c`: one pipe, and `N` processes that call `pipewrite`, `piperead` and `pipeclose` on
it and `kkill` on each other.

A step is what happens between two points at which another process can interfere. Under `pi->lock`
that is one turn of a loop, because `kkill` does not take `pi->lock` and both loops look at
`killed`. `copyin` and `copyout` of one byte are part of a turn, and the event says whether they
fail. `sleep` takes `p->lock` before it gives `pi->lock` back and keeps it until the process is off
the CPU, and `wakeup` and `kkill` take the same lock, so for everybody else the process goes from
holding `pi->lock` to `SLEEPING` in one step. `wakeup` runs under `pi->lock` everywhere in
`pipe.c`.

The bytes that writers have stored and that readers have consumed so far are recorded beside the
pipe, in the order in which that happened.
-/

namespace Xv6

/-- `PIPESIZE`. -/
abbrev pipesize : ℕ := 512

/-- `struct pipe` without its lock. -/
structure Pipe where
  data : ℕ → BitVec 8
  nread : BitVec 32
  nwrite : BitVec 32
  readopen : Bool
  writeopen : Bool

/-- A pipe after `pipealloc`; the buffer is not initialised. -/
def pipealloc (junk : ℕ → BitVec 8) : Pipe where
  data := junk
  nread := 0
  nwrite := 0
  readopen := true
  writeopen := true

/-- Where a process is in `pipewrite(pi, addr, n)` or `piperead(pi, addr, n)`. -/
inductive PipePc
  /-- Outside both. -/
  | out
  /-- In `pipewrite`, about to `acquire(&pi->lock)`, at the beginning or at the end of `sleep`; `i`
  bytes are written. -/
  | writeAcquire (i n : ℤ)
  /-- At the top of the loop of `pipewrite`, with the lock; `stored` if a byte was stored since the
  lock was taken. -/
  | write (i n : ℤ) (stored : Bool)
  /-- In `sleep(&pi->nwrite, &pi->lock)`, still with the lock. -/
  | writeSleep (i n : ℤ)
  /-- `SLEEPING` on `&pi->nwrite`. -/
  | writeAsleep (i n : ℤ)
  /-- Behind the loop of `pipewrite`, with the lock. -/
  | writeExit (i : ℤ)
  /-- In `piperead`, about to `acquire(&pi->lock)`. -/
  | readAcquire (n : ℤ)
  /-- At the top of the first loop of `piperead`, with the lock. -/
  | read (n : ℤ)
  /-- In `sleep(&pi->nread, &pi->lock)`, still with the lock. -/
  | readSleep (n : ℤ)
  /-- `SLEEPING` on `&pi->nread`. -/
  | readAsleep (n : ℤ)
  /-- At the top of the second loop of `piperead`, with the lock. -/
  | readCopy (i n : ℤ)
  /-- Behind the second loop of `piperead`, with the lock. -/
  | readExit (i : ℤ)
  deriving DecidableEq

/-- A process. -/
structure PipeProc where
  killed : Bool
  pc : PipePc
  deriving DecidableEq

/-- The pipe, its lock, and the processes. -/
structure PipeSys (N : ℕ) where
  pipe : Pipe
  /-- Who holds `pi->lock`. -/
  lock : Option (Fin N)
  proc : Fin N → PipeProc
  /-- The bytes stored by all calls of `pipewrite` so far. -/
  accepted : List (BitVec 8)
  /-- The bytes consumed by all calls of `piperead` so far. -/
  delivered : List (BitVec 8)

/-- What can happen next. -/
inductive PipeEvent (N : ℕ)
  /-- `p` calls `pipewrite(pi, addr, n)`. -/
  | callWrite (p : Fin N) (n : ℤ)
  /-- `p` calls `piperead(pi, addr, n)`. -/
  | callRead (p : Fin N) (n : ℤ)
  /-- `p` calls `pipeclose(pi, writable)`. -/
  | close (p : Fin N) (writable : Bool)
  /-- Somebody calls `kkill` with the pid of `p`. -/
  | kill (p : Fin N)
  /-- `p` takes the lock. -/
  | acquire (p : Fin N)
  /-- A turn of the loop of `pipewrite`; `ch` is what `copyin` gets, if it succeeds. -/
  | writeTurn (p : Fin N) (ch : Option (BitVec 8))
  /-- A turn of the first loop of `piperead`. -/
  | readTurn (p : Fin N)
  /-- A turn of the second loop of `piperead`; `ok` if `copyout` succeeds. -/
  | copyTurn (p : Fin N) (ok : Bool)
  /-- `p` goes to sleep. -/
  | sleep (p : Fin N)
  /-- The end of `pipewrite` or `piperead`: `wakeup`, `release`, `return`. -/
  | exit (p : Fin N)
  deriving DecidableEq

namespace PipePc

/-- `wakeup(&pi->nread)`, as far as this process is concerned. -/
def wakeReader : PipePc → PipePc
  | readAsleep n => readAcquire n
  | pc => pc

/-- `wakeup(&pi->nwrite)`, as far as this process is concerned. -/
def wakeWriter : PipePc → PipePc
  | writeAsleep i n => writeAcquire i n
  | pc => pc

end PipePc

namespace PipeSys

variable {N : ℕ} (s : PipeSys N)

/-- Move `p` to `pc`. -/
def setPc (p : Fin N) (pc : PipePc) : PipeSys N :=
  { s with proc := Function.update s.proc p { s.proc p with pc := pc } }

/-- `release(&pi->lock)`. -/
def release : PipeSys N := { s with lock := none }

/-- `wakeup(&pi->nread)`. -/
def wakeReaders : PipeSys N :=
  { s with proc := fun q ↦ { s.proc q with pc := (s.proc q).pc.wakeReader } }

/-- `wakeup(&pi->nwrite)`. -/
def wakeWriters : PipeSys N :=
  { s with proc := fun q ↦ { s.proc q with pc := (s.proc q).pc.wakeWriter } }

/-- The system after `pipealloc`. -/
def init (N : ℕ) (junk : ℕ → BitVec 8) : PipeSys N where
  pipe := pipealloc junk
  lock := none
  proc := fun _ ↦ ⟨false, .out⟩
  accepted := []
  delivered := []

/-- One turn of the loop of `pipewrite`. -/
def writeTurn (p : Fin N) (i n : ℤ) (ch : Option (BitVec 8)) : PipeSys N :=
  if i < n then
    if s.pipe.readopen = false ∨ (s.proc p).killed then
      (s.setPc p .out).release
    else if s.pipe.nwrite = s.pipe.nread + BitVec.ofNat 32 pipesize then
      s.wakeReaders.setPc p (.writeSleep i n)
    else
      match ch with
      | none => s.setPc p (.writeExit i)
      | some ch =>
        { s.setPc p (.write (i + 1) n true) with
          pipe := { s.pipe with
            data := Function.update s.pipe.data (s.pipe.nwrite.toNat % pipesize) ch
            nwrite := s.pipe.nwrite + 1 }
          accepted := s.accepted ++ [ch] }
  else
    s.setPc p (.writeExit i)

/-- One turn of the first loop of `piperead`. -/
def readTurn (p : Fin N) (n : ℤ) : PipeSys N :=
  if s.pipe.nread = s.pipe.nwrite ∧ s.pipe.writeopen then
    if (s.proc p).killed then
      (s.setPc p .out).release
    else
      s.setPc p (.readSleep n)
  else
    s.setPc p (.readCopy 0 n)

/-- One turn of the second loop of `piperead`. -/
def copyTurn (p : Fin N) (i n : ℤ) (ok : Bool) : PipeSys N :=
  if i < n then
    if s.pipe.nread = s.pipe.nwrite then
      s.setPc p (.readExit i)
    else if ok then
      { s.setPc p (.readCopy (i + 1) n) with
        pipe := { s.pipe with nread := s.pipe.nread + 1 }
        delivered := s.delivered ++ [s.pipe.data (s.pipe.nread.toNat % pipesize)] }
    else
      s.setPc p (.readExit (if i = 0 then -1 else i))
  else
    s.setPc p (.readExit i)

/-- `pipeclose`. Once both ends are closed the page is freed; nobody has a descriptor for it
then. -/
def close (writable : Bool) : PipeSys N :=
  if writable then
    wakeReaders { s with pipe := { s.pipe with writeopen := false } }
  else
    wakeWriters { s with pipe := { s.pipe with readopen := false } }

/-- `kkill`: the process is marked, and leaves `sleep` if it sleeps. -/
def kill (p : Fin N) : PipeSys N :=
  { s with proc := Function.update s.proc p ⟨true, (s.proc p).pc.wakeReader.wakeWriter⟩ }

/-- One step. -/
def step (s : PipeSys N) : PipeEvent N → Option (PipeSys N)
  | .callWrite p n => if (s.proc p).pc = .out then some (s.setPc p (.writeAcquire 0 n)) else none
  | .callRead p n => if (s.proc p).pc = .out then some (s.setPc p (.readAcquire n)) else none
  | .close p writable =>
    if (s.proc p).pc = .out ∧ s.lock = none then some (s.close writable) else none
  | .kill p => some (s.kill p)
  | .acquire p =>
    if s.lock = none then
      match (s.proc p).pc with
      | .writeAcquire i n => some { s.setPc p (.write i n false) with lock := some p }
      | .readAcquire n => some { s.setPc p (.read n) with lock := some p }
      | _ => none
    else none
  | .writeTurn p ch =>
    match (s.proc p).pc with
    | .write i n _ => some (s.writeTurn p i n ch)
    | _ => none
  | .readTurn p =>
    match (s.proc p).pc with
    | .read n => some (s.readTurn p n)
    | _ => none
  | .copyTurn p ok =>
    match (s.proc p).pc with
    | .readCopy i n => some (s.copyTurn p i n ok)
    | _ => none
  | .sleep p =>
    match (s.proc p).pc with
    | .writeSleep i n => some (s.setPc p (.writeAsleep i n)).release
    | .readSleep n => some (s.setPc p (.readAsleep n)).release
    | _ => none
  | .exit p =>
    match (s.proc p).pc with
    | .writeExit _ => some (s.wakeReaders.setPc p .out).release
    | .readExit _ => some (s.wakeWriters.setPc p .out).release
    | _ => none

end PipeSys

end Xv6

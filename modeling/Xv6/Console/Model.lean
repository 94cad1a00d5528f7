import Mathlib.Data.Fintype.Basic
import Mathlib.Logic.Function.Basic
import Xv6.Library.RingQueue
import Xv6.Library.Run

/-!
# Console input

`consoleintr` and `consoleread` of `kernel/console.c`: bytes arrive from the UART and are edited,
and `N` processes read. `r`, `w` and `e` are the 32-bit indices of the source, which wrap around.

`consoleintr` runs under `cons.lock` from beginning to end and is one step. A step of `consoleread`
is one turn of its loops, as in the pipe: `kkill` does not take `cons.lock`, and the loop looks at
`killed`. Whether the `copyout` of a byte fails is part of the event. From `sleep` a process goes
from holding `cons.lock` to `SLEEPING` in one step. Echoing and `procdump` have no effect on the
input.

What a process has received so far and what its calls have returned is recorded beside it.
-/

namespace Xv6

/-- `INPUT_BUF_SIZE` -/
abbrev inputBufSize : ℕ := 128

/-- `C(x)` for the control characters of the console, and the other bytes it knows. -/
abbrev ctrlD : BitVec 8 := 0x04

abbrev ctrlH : BitVec 8 := 0x08

abbrev ctrlP : BitVec 8 := 0x10

abbrev ctrlU : BitVec 8 := 0x15

abbrev del : BitVec 8 := 0x7f

abbrev lf : BitVec 8 := 0x0a

abbrev cr : BitVec 8 := 0x0d

/-- `cons`, without its lock. -/
structure Cons where
  buf : ℕ → BitVec 8
  r : BitVec 32
  w : BitVec 32
  e : BitVec 32

namespace Cons

/-- The loop of control-U, for at most `fuel` turns. -/
def killLineFrom : ℕ → Cons → Cons
  | 0, c => c
  | fuel + 1, c =>
    if c.e ≠ c.w ∧ c.buf ((c.e - 1).toNat % inputBufSize) ≠ lf then
      killLineFrom fuel { c with e := c.e - 1 }
    else c

/-- Control-U. Each turn takes `e` one closer to `w`. -/
def killLine (c : Cons) : Cons :=
  killLineFrom (c.e - c.w).toNat c

/-- `cons.buf[cons.e++ % INPUT_BUF_SIZE] = ch` -/
def push (c : Cons) (ch : BitVec 8) : Cons :=
  { c with
    buf := Function.update c.buf (c.e.toNat % inputBufSize) ch
    e := c.e + 1 }

/-- Store a byte in the default case of `consoleintr`, and whether readers are woken up. -/
def store (c : Cons) (ch : BitVec 8) : Cons × Bool :=
  let ch := if ch = cr then lf else ch
  let c := c.push ch
  if ch = lf ∨ ch = ctrlD ∨ (c.e - c.r).toNat = inputBufSize then ({ c with w := c.e }, true)
  else (c, false)

/-- `consoleintr`, and whether it calls `wakeup(&cons.r)`. -/
def consoleintr (c : Cons) (ch : BitVec 8) : Cons × Bool :=
  if ch = ctrlP then (c, false)
  else if ch = ctrlU then (c.killLine, false)
  else if ch = ctrlH ∨ ch = del then
    (if c.e ≠ c.w then { c with e := c.e - 1 } else c, false)
  else if ch ≠ 0 ∧ (c.e - c.r).toNat < inputBufSize then c.store ch
  else (c, false)

end Cons

/-- Where a process is in `consoleread(user_dst, dst, n)`; `target` is the first value of `n`. -/
inductive ConsPc
  /-- Outside. -/
  | out
  /-- About to `acquire(&cons.lock)`, at the beginning or at the end of `sleep`. -/
  | acquire (target n : ℤ)
  /-- At the top of the loop, with the lock. -/
  | loop (target n : ℤ)
  /-- In `sleep(&cons.r, &cons.lock)`, still with the lock. -/
  | sleep (target n : ℤ)
  /-- `SLEEPING` on `&cons.r`. -/
  | asleep (target n : ℤ)
  deriving DecidableEq, Repr

/-- A process. -/
structure ConsProc where
  killed : Bool
  pc : ConsPc
  /-- The bytes copied out to the process. -/
  received : List (BitVec 8)
  /-- What its calls have returned. -/
  returned : List ℤ
  deriving DecidableEq, Repr

/-- The console, its lock, and the processes. -/
structure Console (N : ℕ) where
  cons : Cons
  lock : Option (Fin N)
  proc : Fin N → ConsProc

/-- What can happen next. -/
inductive ConsEvent (N : ℕ)
  /-- `consoleintr(ch)` -/
  | intr (ch : BitVec 8)
  /-- `p` calls `consoleread` for `n` bytes. -/
  | read (p : Fin N) (n : ℤ)
  /-- `p` takes the lock. -/
  | acquire (p : Fin N)
  /-- A turn of the loop of `consoleread`; `ok` if `copyout` succeeds. -/
  | turn (p : Fin N) (ok : Bool)
  /-- `p` goes to sleep. -/
  | sleep (p : Fin N)
  /-- Somebody calls `kkill` with the pid of `p`. -/
  | kill (p : Fin N)
  deriving DecidableEq, Repr

/-- `wakeup(&cons.r)`, as far as this process is concerned. -/
def ConsPc.wakeup : ConsPc → ConsPc
  | asleep target n => acquire target n
  | pc => pc

namespace Console

variable {N : ℕ}

/-- The console after `consoleinit`; the buffer is static and zero. -/
def init (N : ℕ) : Console N where
  cons := ⟨fun _ ↦ 0, 0, 0, 0⟩
  lock := none
  proc _ := ⟨false, .out, [], []⟩

def setProc (s : Console N) (p : Fin N) (x : ConsProc) : Console N :=
  { s with proc := Function.update s.proc p x }

/-- `release(&cons.lock)`, and `p` returns `k`. -/
def ret (s : Console N) (p : Fin N) (k : ℤ) : Console N :=
  { s.setProc p { s.proc p with pc := .out, returned := (s.proc p).returned ++ [k] } with
    lock := none }

/-- One turn of the loops of `consoleread`. -/
def turn (s : Console N) (p : Fin N) (target n : ℤ) (ok : Bool) : Console N :=
  if 0 < n then
    if s.cons.r = s.cons.w then
      if (s.proc p).killed then s.ret p (-1)
      else s.setProc p { s.proc p with pc := .sleep target n }
    else
      let ch := s.cons.buf (s.cons.r.toNat % inputBufSize)
      let s := { s with cons := { s.cons with r := s.cons.r + 1 } }
      if ch = ctrlD then
        -- save it for next time, so that the caller gets a 0-byte result
        let s := if n < target then { s with cons := { s.cons with r := s.cons.r - 1 } } else s
        s.ret p (target - n)
      else if ok then
        let s := s.setProc p { s.proc p with
          pc := .loop target (n - 1)
          received := (s.proc p).received ++ [ch] }
        if ch = lf then s.ret p (target - (n - 1)) else s
      else s.ret p (target - n)
  else s.ret p (target - n)

/-- What an event does. -/
def step (s : Console N) : ConsEvent N → Option (Console N)
  | .intr ch =>
    if s.lock = none then
      let r := s.cons.consoleintr ch
      some { s with
        cons := r.1
        proc := fun p ↦ { s.proc p with
          pc := if r.2 then (s.proc p).pc.wakeup else (s.proc p).pc } }
    else none
  | .read p n =>
    if (s.proc p).pc = .out then some (s.setProc p { s.proc p with pc := .acquire n n }) else none
  | .acquire p =>
    match (s.proc p).pc with
    | .acquire target n =>
      if s.lock = none then
        some { s.setProc p { s.proc p with pc := .loop target n } with lock := some p }
      else none
    | _ => none
  | .turn p ok =>
    match (s.proc p).pc with
    | .loop target n => some (s.turn p target n ok)
    | _ => none
  | .sleep p =>
    match (s.proc p).pc with
    | .sleep target n =>
      some { s.setProc p { s.proc p with pc := .asleep target n } with lock := none }
    | _ => none
  | .kill p =>
    some (s.setProc p { s.proc p with killed := true, pc := (s.proc p).pc.wakeup })

end Console

end Xv6

import Mathlib.Data.Fintype.Basic
import Xv6.Library.Pieces
import Xv6.Library.Run
import Xv6.Param

/-!
# Writing through a shared file

`filewrite` of `kernel/file.c` for `FD_INODE` and `writei` of `kernel/fs.c`: `N` processes that
write through one `struct file` to one regular file. A process takes a step between any two points
at which it can sleep or another process can interfere: in `ilock`, at the top of the loop of
`writei` (where `bmap` and `bread` sleep), and before and after it advances `f->off`. `begin_op` and
`end_op` touch neither the file nor its offset; where they wait, the process does not take its next
step.

The data of the file is given block by block, as `writei` writes it. A turn of its loop can fail in
`bmap`, or in `either_copyin`, which may have copied a first part by then.
-/

namespace Xv6

namespace Filewrite

/-- `max` in `filewrite` -/
def maxChunk : ℕ := (maxOpBlocks - 1 - 1 - 2) / 2 * bsize

/-- The arguments of `filewrite`: the memory behind `addr`, and `n`. -/
structure WriteCall where
  src : ℕ → BitVec 8
  n : ℤ

/-- `n1`, the length of the next chunk. -/
def WriteCall.n1 (c : WriteCall) (i : ℕ) : ℕ :=
    if c.n - i > maxChunk then maxChunk else (c.n - i).toNat

/-- Where a process is in `filewrite`. -/
inductive WritePc
  /-- Outside; `ret` is what the last call returned. -/
  | out (ret : ℤ)
  /-- At the top of the loop of `filewrite`. -/
  | next (c : WriteCall) (i : ℕ)
  /-- With the lock of the inode, about to call `writei`. -/
  | locked (c : WriteCall) (i : ℕ)
  /-- At the top of the loop of `writei(ip, 1, addr + i, off, n)`. -/
  | writing (c : WriteCall) (i : ℕ) (off n tot : BitVec 32)
  /-- `writei` has returned `r`. -/
  | advance (c : WriteCall) (i : ℕ) (r : ℤ)
  /-- About to `iunlock`. -/
  | unlock (c : WriteCall) (i : ℕ) (r : ℤ)

/-- How `bmap` and `either_copyin` come out. -/
inductive Outcome
  | ok
  /-- There is no block. -/
  | noBlock
  /-- After the first `k` bytes, the memory of the process could not be read. -/
  | badCopy (k : ℕ)
  deriving DecidableEq

/-- The file and the processes. -/
structure SharedFile (N : ℕ) where
  /-- The bytes of the blocks of the inode. -/
  data : ℕ → ℕ → BitVec 8
  /-- `ip->size` -/
  size : BitVec 32
  /-- `f->off` -/
  off : BitVec 32
  /-- `ip->lock` -/
  lock : Option (Fin N)
  proc : Fin N → WritePc

/-- What can happen next. -/
inductive WriteEvent (N : ℕ)
  | call (p : Fin N) (c : WriteCall)
  /-- The next step of `p`. -/
  | step (p : Fin N) (o : Outcome)

namespace SharedFile

variable {N : ℕ}

def setPc (s : SharedFile N) (p : Fin N) (pc : WritePc) : SharedFile N :=
  { s with proc := Function.update s.proc p pc }

@[simp] theorem proc_setPc_self (s : SharedFile N) (p : Fin N) (pc : WritePc) :
    (s.setPc p pc).proc p = pc := Function.update_self ..

@[simp] theorem proc_setPc_of_ne {s : SharedFile N} {p q : Fin N} (h : q ≠ p) {pc : WritePc} :
    (s.setPc p pc).proc q = s.proc q := Function.update_of_ne h ..

/-- Copy the bytes `l` into block `bn`, from byte `j` on. -/
def store (s : SharedFile N) (bn j : ℕ) (l : List (BitVec 8)) : SharedFile N :=
  { s with data := Function.update s.data bn (overwrite (s.data bn) j l) }

/-- `writei(ip, 1, addr + i, f->off, n)` up to its loop. -/
def writei (s : SharedFile N) (p : Fin N) (c : WriteCall) (i : ℕ) (n : BitVec 32) : SharedFile N :=
  if s.off > s.size ∨ s.off + n < s.off then s.setPc p (.advance c i (-1))
  else if s.off + n > BitVec.ofNat 32 (maxFile * bsize) then s.setPc p (.advance c i (-1))
  else s.setPc p (.writing c i s.off n 0)

/-- `writei` behind its loop. -/
def finish (s : SharedFile N) (p : Fin N) (c : WriteCall) (i : ℕ) (off tot : BitVec 32) :
    SharedFile N :=
  { s.setPc p (.advance c i tot.toInt) with size := if off > s.size then off else s.size }

/-- `m` in the loop of `writei`. -/
def turnLen (off n tot : BitVec 32) : BitVec 32 :=
  if n - tot < BitVec.ofNat 32 bsize - off % BitVec.ofNat 32 bsize then n - tot
  else BitVec.ofNat 32 bsize - off % BitVec.ofNat 32 bsize

/-- A turn of the loop of `writei`, or its end. -/
def turn (s : SharedFile N) (p : Fin N) (c : WriteCall) (i : ℕ) (off n tot : BitVec 32) :
    Outcome → SharedFile N
  | .ok =>
    if tot < n then
      let m := turnLen off n tot
      (s.store (off.toNat / bsize) (off.toNat % bsize)
        (slice c.src (i + tot.toNat) m.toNat)).setPc p (.writing c i (off + m) n (tot + m))
    else s.finish p c i off tot
  | .noBlock => s.finish p c i off tot
  | .badCopy k =>
    if tot < n then
      (s.store (off.toNat / bsize) (off.toNat % bsize)
        ((slice c.src (i + tot.toNat) (turnLen off n tot).toNat).take k)).finish p c i off tot
    else s.finish p c i off tot

/-- The next step of `p`. -/
def op (s : SharedFile N) (p : Fin N) (o : Outcome) : Option (SharedFile N) :=
  match s.proc p with
  | .out _ => none
  | .next c i =>
    if i < c.n then
      if s.lock = none then some { s.setPc p (.locked c i) with lock := some p } else none
    else some (s.setPc p (.out (if i = c.n then c.n else -1)))
  | .locked c i => some (s.writei p c i (BitVec.ofNat 32 (c.n1 i)))
  | .writing c i off n tot => some (s.turn p c i off n tot o)
  | .advance c i r =>
    some { s.setPc p (.unlock c i r) with
      off := if 0 < r then s.off + BitVec.ofInt 32 r else s.off }
  | .unlock c i r =>
    -- an error from `writei` ends the loop
    some { s.setPc p (if r = c.n1 i then .next c (i + r.toNat)
        else .out (if i = c.n then c.n else -1)) with
      lock := none }

/-- What an event does. -/
def step (s : SharedFile N) : WriteEvent N → Option (SharedFile N)
  | .call p c =>
    match s.proc p with
    | .out _ => some (s.setPc p (.next c 0))
    | _ => none
  | .step p o => s.op p o

end SharedFile

end Filewrite

end Xv6

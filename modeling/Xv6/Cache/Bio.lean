import Xv6.Param

/-!
# The buffer cache

`kernel/bio.c` over one device. A buffer has the fields of `struct buf`, its sleep lock being
`lock`; `waiting` are the calls of `bget` that have taken their reference and not yet the sleep
lock, and `releasing` those of `brelse` that have released the sleep lock and not yet their
reference. Both record what the code keeps in its local variables, the block asked for included, so
that it is a theorem and no assumption that a recycled buffer is never handed to a call that waits
for it under its old identity.

The steps are the critical sections under `bcache.lock`, taking and releasing a sleep lock, and one
disk transfer. The source recycles the least recently used of the unreferenced buffers; here any of
them may be recycled, so the order of the list is left out. Whoever changes a buffer has to pass it
to `log_write` or to `bwrite` before `brelse`; the phase of a hold keeps track of that.
-/

namespace Xv6

/-- `ROOTDEV`: the only device. The buffers of a fresh cache carry device number 0. -/
abbrev rootDev : ℕ := 1

/-- Who uses a buffer: a process, or the `commit` that a process runs inside `end_op`. -/
inductive Agent
  | proc (p : ℕ)
  | commit
  deriving DecidableEq, Repr

/-- How far the holder of a buffer's sleep lock has come. -/
inductive HoldPhase
  /-- In `bread`, which has not returned yet. -/
  | reading
  /-- The buffer is unchanged, or was passed to `log_write` or `bwrite` since it was changed. -/
  | clean
  /-- The buffer was changed and not passed on yet. -/
  | dirty
  deriving DecidableEq, Repr

/-- A use of a buffer: who uses it, and for which block. -/
structure Use where
  agent : Agent
  blockno : ℕ
  deriving DecidableEq, Repr

/-- The holder of a sleep lock. -/
structure Hold extends Use where
  phase : HoldPhase
  deriving DecidableEq, Repr

/-- `struct buf`. -/
structure Buf where
  dev : ℕ
  blockno : ℕ
  valid : Bool
  lock : Option Hold
  refcnt : ℕ
  data : Block

/-- A buffer after `binit`. -/
def Buf.zero : Buf where
  dev := 0
  blockno := 0
  valid := false
  lock := none
  refcnt := 0
  data := 0

/-- The disk, the buffers, and the calls that have a reference and not the sleep lock. -/
structure Cache where
  disk : Disk
  buf : Fin nbuf → Buf
  waiting : List (Use × Fin nbuf)
  releasing : List (Use × Fin nbuf)

namespace Cache

/-- The cache after `binit`. -/
def binit (d : Disk) : Cache where
  disk := d
  buf := fun _ ↦ Buf.zero
  waiting := []
  releasing := []

/-- Buffer `i` is the buffer of block `b`. -/
def Caches (c : Cache) (i : Fin nbuf) (b : ℕ) : Prop :=
  (c.buf i).dev = rootDev ∧ (c.buf i).blockno = b

instance (c : Cache) (i : Fin nbuf) (b : ℕ) : Decidable (c.Caches i b) :=
  inferInstanceAs (Decidable (_ ∧ _))

/-- `u` has been handed buffer `i` by `bread`. -/
def Holds (c : Cache) (u : Use) (i : Fin nbuf) : Prop :=
  (c.buf i).lock = some ⟨u, .clean⟩ ∨ (c.buf i).lock = some ⟨u, .dirty⟩

instance (c : Cache) (u : Use) (i : Fin nbuf) : Decidable (c.Holds u i) :=
  inferInstanceAs (Decidable (_ ∨ _))

/-- Replace buffer `i`. -/
def setBuf (c : Cache) (i : Fin nbuf) (x : Buf) : Cache :=
  { c with buf := Function.update c.buf i x }

/-- The `bcache.lock` section of `bget`: buffer `i` is the buffer of the block, or the block is not
cached and `i` is an unreferenced buffer to recycle. -/
def bget (c : Cache) (u : Use) (i : Fin nbuf) : Option Cache :=
  if c.Caches i u.blockno then
    some { c.setBuf i { c.buf i with refcnt := (c.buf i).refcnt + 1 } with
      waiting := (u, i) :: c.waiting }
  else if (∀ j, ¬ c.Caches j u.blockno) ∧ (c.buf i).refcnt = 0 then
    some { c.setBuf i { c.buf i with
        dev := rootDev
        blockno := u.blockno
        valid := false
        refcnt := 1 } with
      waiting := (u, i) :: c.waiting }
  else none

/-- `acquiresleep` at the end of `bget`. -/
def acquiresleep (c : Cache) (u : Use) (i : Fin nbuf) : Option Cache :=
  if (u, i) ∈ c.waiting ∧ (c.buf i).lock = none then
    some { c.setBuf i { c.buf i with lock := some ⟨u, .reading⟩ } with
      waiting := c.waiting.erase (u, i) }
  else none

/-- The rest of `bread`: read the block unless the buffer is valid, and return. -/
def bread (c : Cache) (u : Use) (i : Fin nbuf) : Option Cache :=
  if (c.buf i).lock = some ⟨u, .reading⟩ then
    some (c.setBuf i { c.buf i with
      valid := true
      data := if (c.buf i).valid then (c.buf i).data else c.disk (c.buf i).blockno
      lock := some ⟨u, .clean⟩ })
  else none

/-- The holder changes the contents in place. -/
def modify (c : Cache) (u : Use) (i : Fin nbuf) (v : Block) : Option Cache :=
  if c.Holds u i then
    some (c.setBuf i { c.buf i with
      data := v
      lock := some ⟨u, .dirty⟩ })
  else none

/-- `bwrite`. -/
def bwrite (c : Cache) (u : Use) (i : Fin nbuf) : Option Cache :=
  if c.Holds u i then
    some { c.setBuf i { c.buf i with lock := some ⟨u, .clean⟩ } with
      disk := Function.update c.disk (c.buf i).blockno (c.buf i).data }
  else none

/-- `log_write` as far as the buffer goes: the change is passed on, and the buffer of a block new to
the transaction is pinned (`bpin`). -/
def logWrite (c : Cache) (u : Use) (i : Fin nbuf) (pin : Bool) : Option Cache :=
  if c.Holds u i then
    some (c.setBuf i { c.buf i with
      refcnt := if pin then (c.buf i).refcnt + 1 else (c.buf i).refcnt
      lock := some ⟨u, .clean⟩ })
  else none

/-- `bunpin`, by the holder. -/
def bunpin (c : Cache) (u : Use) (i : Fin nbuf) : Option Cache :=
  if c.Holds u i then
    some (c.setBuf i { c.buf i with refcnt := (c.buf i).refcnt - 1 })
  else none

/-- The first half of `brelse`: `releasesleep`. No change may be pending. -/
def releasesleep (c : Cache) (u : Use) (i : Fin nbuf) : Option Cache :=
  if (c.buf i).lock = some ⟨u, .clean⟩ then
    some { c.setBuf i { c.buf i with lock := none } with
      releasing := (u, i) :: c.releasing }
  else none

/-- The second half of `brelse`: drop the reference. -/
def brelse (c : Cache) (u : Use) (i : Fin nbuf) : Option Cache :=
  if (u, i) ∈ c.releasing then
    some { c.setBuf i { c.buf i with refcnt := (c.buf i).refcnt - 1 } with
      releasing := c.releasing.erase (u, i) }
  else none

end Cache

end Xv6

import Xv6.Fs.Read
import Xv6.Library.Wp
import Xv6.Vm.View

/-!
# The kernel's file system, block by block

`kernel/fs.c` as one process runs it between `begin_op` and `end_op`: block allocation, inodes in
their table and on disk, and the contents of files. The state is what the code reads and writes: the
blocks as the buffer cache has them, the inode table, and the memory of the calling process.

A buffer is read and written where it is in the cache. What is done to buffers that are written to
is recorded in `ops`: a change of the data, `log_write` and `brelse`. Releasing a buffer that was
only read has no effect and is left out. There is one device. A sleep-lock that is taken is never
released by anyone else, so waiting for it is a stop. User addresses do not wrap around, as nothing
is mapped above `MAXVA`.
-/

namespace Xv6.Fs.Kernel

/-- `NINODE`. -/
abbrev ninode : ℕ := 50

/-- `struct superblock`, as `fsinit` has read it. -/
structure Superblock where
  size : ℕ
  nblocks : ℕ
  ninodes : ℕ
  inodestart : ℕ
  bmapstart : ℕ
  deriving DecidableEq, Repr

/-- `IBLOCK`. -/
def Superblock.iblock (sb : Superblock) (inum : ℕ) : ℕ := inum / ipb + sb.inodestart

/-- `BBLOCK`. -/
def Superblock.bblock (sb : Superblock) (b : ℕ) : ℕ := b / bpb + sb.bmapstart

/-- `struct inode`; the fields from `type` on are those of `struct dinode`. -/
structure Inode where
  inum : ℕ
  ref : ℤ
  /-- The sleep-lock. -/
  locked : Bool
  valid : Bool
  din : Dinode
  deriving DecidableEq

/-- An entry of the inode table. -/
abbrev Slot := Fin ninode

/-- `struct file`. -/
structure OpenFile where
  ip : Slot
  off : BitVec 32
  deriving DecidableEq

/-- What is done to the buffer of a block. -/
inductive BufOp
  | change (b : ℕ)
  | log (b : ℕ)
  | release (b : ℕ)
  deriving DecidableEq, Repr

/-- The block that is passed to `log_write`. -/
def BufOp.logged : BufOp → Option ℕ
  | .log b => some b
  | _ => none

/-- The state of the file system as the kernel has it, and of the calling process. -/
structure Kfs where
  /-- The blocks, as `bread` returns them. -/
  disk : Disk
  /-- What was done to buffers, the latest first. -/
  ops : List BufOp
  /-- `itable.inode`. -/
  inode : Slot → Inode
  /-- `ftable.file`. -/
  file : Fin nfile → OpenFile
  /-- The memory of the process. -/
  user : View
  /-- `p->cwd`. -/
  cwd : Slot

/-- The blocks that were passed to `log_write`, the latest first. -/
def Kfs.logged (s : Kfs) : List ℕ := s.ops.filterMap BufOp.logged

/-- The state with other data in a buffer. -/
def Kfs.write (s : Kfs) (b : ℕ) (bp : Block) : Kfs := { s with
  disk := Function.update s.disk b bp
  ops := if bp = s.disk b then s.ops else .change b :: s.ops }

/-- The state after a buffer was logged or released. -/
def Kfs.record (s : Kfs) (op : BufOp) : Kfs := { s with ops := op :: s.ops }

/-- Where the kernel stops. -/
inductive Panic
  | freeingFreeBlock
  | bmapOutOfRange
  | igetNoInodes
  | ilock
  | ilockNoType
  | iunlock
  | dirlookupNotDir
  | dirlookupRead
  /-- The process waits for a sleep-lock that nobody will release. -/
  | deadlock
  /-- A loop goes on past the bound it is given here. -/
  | spins
  deriving DecidableEq, Repr

/-- The code of the file system. -/
abbrev FsM := StateT Kfs (Except Panic)

/-! ### Buffers -/

/-- The data of a buffer. -/
def bread (b : ℕ) : FsM Block := do return (← get).disk b

/-- Change the data of a buffer. -/
def modifyBlock (b : ℕ) (f : Block → Block) : FsM Unit :=
  modify fun s ↦ s.write b (f (s.disk b))

def logWrite (b : ℕ) : FsM Unit := modify (Kfs.record · (.log b))

def brelse (b : ℕ) : FsM Unit := modify (Kfs.record · (.release b))

/-- The entry `ip` of the inode table. -/
def inode (ip : Slot) : FsM Inode := do return (← get).inode ip

def modifyInode (ip : Slot) (f : Inode → Inode) : FsM Unit :=
  modify fun s ↦ { s with inode := Function.update s.inode ip (f (s.inode ip)) }

/-- Change the part of an inode that is on disk too. -/
def modifyDin (ip : Slot) (f : Dinode → Dinode) : FsM Unit :=
  modifyInode ip fun p ↦ { p with din := f p.din }

-- the superblock is a global variable
variable (sb : Superblock)

/-! ### Blocks -/

def bzero (b : ℕ) : FsM Unit := do
  modifyBlock b fun _ ↦ 0
  logWrite b
  brelse b

/-- The inner loop of `balloc`: the first of `turns` bits from `bi` on that is clear, in the block
of the bitmap for the blocks from `b` on. -/
def ballocScan (bp : Block) (b : ℕ) : ℕ → ℕ → Option ℕ
  | 0, _ => none
  | turns + 1, bi =>
    if b + bi < sb.size then
      if bp.getLsbD bi = false then some bi else ballocScan bp b turns (bi + 1)
    else none

/-- The outer loop of `balloc`. -/
def ballocFrom : ℕ → ℕ → FsM ℕ
  | 0, _ => return 0
  | turns + 1, b => do
    let bp ← bread (sb.bblock b)
    match ballocScan sb bp b bpb 0 with
    | some bi =>
      modifyBlock (sb.bblock b) fun bp ↦ bp.put bi 1#1
      logWrite (sb.bblock b)
      brelse (sb.bblock b)
      bzero (b + bi)
      return b + bi
    | none => ballocFrom turns (b + bpb)

/-- `balloc`: a zeroed block, or `0`. -/
def balloc : FsM ℕ := ballocFrom sb ((sb.size + bpb - 1) / bpb) 0

def bfree (b : ℕ) : FsM Unit := do
  let bp ← bread (sb.bblock b)
  if bp.getLsbD (b % bpb) = false then throw .freeingFreeBlock
  else
    modifyBlock (sb.bblock b) fun bp ↦ bp.put (b % bpb) 0#1
    logWrite (sb.bblock b)
    brelse (sb.bblock b)

/-! ### The inode table -/

/-- `iget`: the entry for an inode, or an empty one. -/
def iget (inum : ℕ) : FsM Slot := do
  let s ← get
  match (List.finRange ninode).find? fun e ↦ 0 < (s.inode e).ref ∧ (s.inode e).inum = inum with
  | some e =>
    modifyInode e fun p ↦ { p with ref := p.ref + 1 }
    return e
  | none =>
    match (List.finRange ninode).find? fun e ↦ (s.inode e).ref = 0 with
    | some e =>
      modifyInode e fun p ↦ { p with inum := inum, ref := 1, valid := false }
      return e
    | none => throw .igetNoInodes

def idup (ip : Slot) : FsM Slot := do
  modifyInode ip fun p ↦ { p with ref := p.ref + 1 }
  return ip

def acquiresleep (ip : Slot) : FsM Unit := do
  if (← inode ip).locked then throw .deadlock
  else modifyInode ip fun p ↦ { p with locked := true }

def releasesleep (ip : Slot) : FsM Unit := modifyInode ip fun p ↦ { p with locked := false }

/-- The part of `ilock` under the sleep-lock. -/
def iread (ip : Slot) : FsM Unit := do
  let p ← inode ip
  if p.valid then return ()
  else
    let bp ← bread (sb.iblock p.inum)
    modifyInode ip fun q ↦ { q with din := dinodeAt bp (p.inum % ipb), valid := true }
    if (dinodeAt bp (p.inum % ipb)).type = 0 then throw .ilockNoType
    else return ()

def ilock (ip : Slot) : FsM Unit := do
  if (← inode ip).ref < 1 then throw .ilock
  else
    acquiresleep ip
    iread sb ip

def iunlock (ip : Slot) : FsM Unit := do
  let p ← inode ip
  if p.locked = false ∨ p.ref < 1 then throw .iunlock
  else releasesleep ip

def iupdate (ip : Slot) : FsM Unit := do
  let p ← inode ip
  modifyBlock (sb.iblock p.inum) fun bp ↦ setDinode bp (p.inum % ipb) p.din
  logWrite (sb.iblock p.inum)
  brelse (sb.iblock p.inum)

/-! ### Contents -/

/-- The block number `addrs[k]` of an inode, allocating the block if there is none. -/
def bmapAddr (ip : Slot) (k : ℕ) : FsM ℕ := do
  let addr := (← inode ip).din.addr k
  if addr = 0 then
    let addr ← balloc sb
    if addr = 0 then return 0
    else
      modifyDin ip fun d ↦ d.setAddr k (.ofNat 32 addr)
      return addr
  else return addr.toNat

/-- `bmap`: the block `bn` of an inode, allocating it if there is none. -/
def bmap (ip : Slot) (bn : ℕ) : FsM ℕ := do
  if bn < ndirect then bmapAddr sb ip bn
  else if bn - ndirect < nindirect then
    let ind ← bmapAddr sb ip ndirect
    if ind = 0 then return 0
    else
      let addr := wordAt (← bread ind) (bn - ndirect)
      if addr = 0 then
        let addr ← balloc sb
        if addr = 0 then return 0
        else
          modifyBlock ind fun bp ↦ setWord bp (bn - ndirect) (.ofNat 32 addr)
          logWrite ind
          brelse ind
          return addr
      else return addr.toNat
  else throw .bmapOutOfRange

/-- One turn of the first loop of `itrunc`. -/
def itruncDirect (ip : Slot) (i : ℕ) : FsM Unit := do
  let addr := (← inode ip).din.addr i
  if addr = 0 then return ()
  else
    bfree sb addr.toNat
    modifyDin ip fun d ↦ d.setAddr i 0

/-- One turn of the second loop. -/
def itruncEntry (ind j : ℕ) : FsM Unit := do
  let addr := wordAt (← bread ind) j
  if addr = 0 then return () else bfree sb addr.toNat

/-- The part of `itrunc` about the indirect block. -/
def itruncIndirect (ip : Slot) : FsM Unit := do
  let ind := (← inode ip).din.addr ndirect
  if ind = 0 then return ()
  else
    forM (List.range nindirect) (itruncEntry sb ind.toNat)
    bfree sb ind.toNat
    modifyDin ip fun d ↦ d.setAddr ndirect 0

def itrunc (ip : Slot) : FsM Unit := do
  forM (List.range ndirect) (itruncDirect sb ip)
  itruncIndirect sb ip
  modifyDin ip fun d ↦ d.setSize 0
  iupdate sb ip

/-- Drop a reference. -/
def irelease (ip : Slot) : FsM Unit := modifyInode ip fun p ↦ { p with ref := p.ref - 1 }

/-- The part of `iput` that frees an inode on disk. -/
def ifree (ip : Slot) : FsM Unit := do
  acquiresleep ip
  itrunc sb ip
  modifyDin ip fun d ↦ d.setType 0
  iupdate sb ip
  modifyInode ip fun p ↦ { p with valid := false }
  releasesleep ip

def iput (ip : Slot) : FsM Unit := do
  let p ← inode ip
  if p.ref = 1 ∧ p.valid = true ∧ p.din.nlink = 0 then
    ifree sb ip
    irelease ip
  else irelease ip

def iunlockput (ip : Slot) : FsM Unit := do
  iunlock ip
  iput sb ip

/-- Where `readi` copies to: a buffer of the kernel, or a user address. -/
inductive Dst
  | kernel
  | user (va : ℕ)

/-- `dst += m`. -/
def Dst.add : Dst → ℕ → Dst
  | .kernel, _ => .kernel
  | .user va, m => .user (va + m)

/-- `either_copyout`. -/
def eitherCopyout (dst : Dst) (bytes : List Byte) : FsM ℤ :=
  match dst with
  | .kernel => return 0
  | .user va => do
    let (r, U) := (← get).user.copyout bytes.length va (fun k ↦ bytes.getD k 0) bytes.length
    modify fun s ↦ { s with user := U }
    return r

/-- The loop of `readi`, of which `tot` bytes are done; with what it returns come the bytes that
were copied. -/
def readiFrom (ip : Slot) : ℕ → Dst → ℕ → ℕ → ℕ → FsM (ℤ × List Byte)
  | 0, _, _, n, tot => if tot < n then throw .spins else return (tot, [])
  | turns + 1, dst, off, n, tot => do
    if tot < n then
      let addr ← bmap sb ip (off / bsize)
      if addr = 0 then return (tot, [])
      else
        let bp ← bread addr
        let m := min (n - tot) (bsize - off % bsize)
        let piece := slice (byteAt bp) (off % bsize) m
        if (← eitherCopyout dst piece) = -1 then return (-1, [])
        else
          let (r, rest) ← readiFrom ip turns (dst.add m) (off + m) n (tot + m)
          return (r, piece ++ rest)
    else return (tot, [])

/-- `readi`. `uint` arithmetic wraps around. -/
def readi (ip : Slot) (dst : Dst) (off n : BitVec 32) : FsM (ℤ × List Byte) := do
  let size := (← inode ip).din.size
  if size < off ∨ off + n < off then return (0, [])
  else
    let n := if size < off + n then size - off else n
    readiFrom sb ip n.toNat dst off.toNat n.toNat 0

/-- Where `writei` copies from: the memory of the kernel, or a user address. -/
inductive Src
  | kernel (mem : ℕ → Byte)
  | user (va : ℕ)

/-- `src += m`. -/
def Src.add : Src → ℕ → Src
  | .kernel mem, m => .kernel fun k ↦ mem (m + k)
  | .user va, m => .user (va + m)

/-- `either_copyin`: what it returns, and the bytes that it has copied. -/
def eitherCopyin (src : Src) (len : ℕ) : FsM (ℤ × List Byte) :=
  match src with
  | .kernel mem => return (0, slice mem 0 len)
  | .user va => do return (← get).user.copyin len va len

/-- The loop of `writei`, of which `tot` bytes are done: the final `tot` and `off`. -/
def writeiFrom (ip : Slot) : ℕ → Src → ℕ → ℕ → ℕ → FsM (ℕ × ℕ)
  | 0, _, off, n, tot => if tot < n then throw .spins else return (tot, off)
  | turns + 1, src, off, n, tot => do
    if tot < n then
      let addr ← bmap sb ip (off / bsize)
      if addr = 0 then return (tot, off)
      else
        let m := min (n - tot) (bsize - off % bsize)
        let (r, bytes) ← eitherCopyin src m
        modifyBlock addr fun bp ↦ copyIn bp (off % bsize) bytes
        if r = -1 then
          brelse addr
          return (tot, off)
        else
          logWrite addr
          brelse addr
          writeiFrom ip turns (src.add m) (off + m) n (tot + m)
    else return (tot, off)

/-- The end of `writei`, with the final `off`. -/
def writeiEnd (ip : Slot) (off : ℕ) : FsM Unit := do
  if (← inode ip).din.size.toNat < off then modifyDin ip fun d ↦ d.setSize (.ofNat 32 off)
  iupdate sb ip

/-- `writei`. -/
def writei (ip : Slot) (src : Src) (off n : BitVec 32) : FsM ℤ := do
  let size := (← inode ip).din.size
  if size < off ∨ off + n < off then return -1
  else if BitVec.ofNat 32 (maxFile * bsize) < off + n then return -1
  else
    let (tot, off) ← writeiFrom sb ip n.toNat src off.toNat n.toNat 0
    writeiEnd sb ip off
    return tot

end Xv6.Fs.Kernel

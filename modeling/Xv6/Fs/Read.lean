import Xv6.Fs.Layout

/-!
# The kernel reads a file system

`bmap`, `readi`, `dirlookup`, `skipelem` and `namex` of `kernel/fs.c`, on the blocks of a disk.
Where an inode has no block number for a block that is asked for, the kernel's `bmap` allocates one:
a read turns into a write. The model stops there, with `Stop.allocates`, so that a result `.ok` says
that the disk was only read.
-/

namespace Xv6.Fs

/-- Why a read does not return. -/
inductive Stop
  /-- `bmap` comes to `balloc`. -/
  | allocates
  /-- `panic("bmap: out of range")`. -/
  | outOfRange
  /-- `panic("ilock: no type")`. -/
  | noType
  /-- `panic("dirlookup not DIR")`. -/
  | notDir
  /-- `panic("dirlookup read")`. -/
  | dirRead
  deriving DecidableEq, Repr

variable (d : Disk)

/-- The inode `inum` on disk, which `ilock` reads. -/
def dinode (inum : ℕ) : Dinode := dinodeAt (d (iblock inum (d 1))) (inum % ipb)

def ilock (inum : ℕ) : Except Stop Dinode :=
  if (dinode d inum).type = 0 then .error .noType else .ok (dinode d inum)

/-- The block `bn` of an inode. -/
def bmap (ip : Dinode) (bn : ℕ) : Except Stop ℕ :=
  if bn < ndirect then
    if ip.addr bn = 0 then .error .allocates else .ok (ip.addr bn).toNat
  else if bn - ndirect < nindirect then
    if ip.addr ndirect = 0 then .error .allocates
    else
      let a := d (ip.addr ndirect).toNat
      if wordAt a (bn - ndirect) = 0 then .error .allocates
      else .ok (wordAt a (bn - ndirect)).toNat
  else .error .outOfRange

/-- The loop of `readi`: the `n` bytes from `off` on, block by block. -/
def readiLoop (ip : Dinode) (off n : ℕ) : Except Stop (List Byte) :=
  if n = 0 then .ok []
  else do
    let addr ← bmap d ip (off / bsize)
    let m := min n (bsize - off % bsize)
    let rest ← readiLoop ip (off + m) (n - m)
    .ok (slice (byteAt (d addr)) (off % bsize) m ++ rest)
termination_by n
decreasing_by
  have hlt := Nat.mod_lt off (show 0 < bsize by decide)
  omega

/-- `readi`; the bytes it copies out. `uint` arithmetic wraps around. -/
def readi (ip : Dinode) (off n : BitVec 32) : Except Stop (List Byte) :=
  if ip.size < off ∨ off + n < off then .ok []
  else
    let n := if ip.size < off + n then ip.size - off else n
    readiLoop d ip off.toNat n.toNat

/-! ### Directories -/

/-- Whether `strncmp(s, t, n)` is `0`; past its end a string has `NUL`s. -/
def strncmp : ℕ → List Byte → List Byte → Bool
  | 0, _, _ => true
  | n + 1, s, t =>
    if s.headD 0 ≠ 0 ∧ s.headD 0 = t.headD 0 then strncmp n s.tail t.tail
    else s.headD 0 = t.headD 0

def namecmp (s t : List Byte) : Bool := strncmp dirsiz s t

/-- `de.inum`, the first two bytes. -/
def direntInum (de : List Byte) : ℕ := (de.getD 1 0 ++ de.getD 0 0).toNat

/-- `de.name`. -/
def direntName (de : List Byte) : List Byte := de.drop 2

/-- The loop of `dirlookup`, over the offsets of entries. -/
def dirlookupLoop (dp : Dinode) (name : List Byte) : List ℕ → Except Stop (Option ℕ)
  | [] => .ok none
  | off :: offs => do
    let de ← readi d dp (.ofNat 32 off) (.ofNat 32 direntSize)
    if de.length ≠ direntSize then .error .dirRead
    else if direntInum de = 0 then dirlookupLoop dp name offs
    else if namecmp name (direntName de) then .ok (some (direntInum de))
    else dirlookupLoop dp name offs

/-- The offsets `0, 16, 32, …` below `size`. -/
def direntOffsets (size : ℕ) : List ℕ :=
  (List.range ((size + direntSize - 1) / direntSize)).map (direntSize * ·)

/-- The inode number of a name in a directory. -/
def dirlookup (dp : Dinode) (name : List Byte) : Except Stop (Option ℕ) :=
  if dp.type ≠ tDir then .error .notDir
  else dirlookupLoop d dp name (direntOffsets dp.size.toNat)

/-! ### Paths -/

/-- `skipelem`: the next element of a path, cut to `DIRSIZ` bytes, and what follows it. A path is
the string before its `NUL`. -/
def skipelem (path : List Byte) : Option (List Byte × List Byte) :=
  let s := path.dropWhile (· = slash)
  if s = [] then none
  else some ((s.takeWhile (· ≠ slash)).take dirsiz,
    (s.dropWhile (· ≠ slash)).dropWhile (· = slash))

theorem length_dropWhile_le {α : Type*} (p : α → Bool) (l : List α) :
    (l.dropWhile p).length ≤ l.length :=
  (List.dropWhile_suffix p).length_le

/-- Each element that `skipelem` takes makes the path shorter. -/
theorem length_lt_of_skipelem {path name rest : List Byte}
    (h : skipelem path = some (name, rest)) : rest.length < path.length := by
  rw [skipelem] at h
  cases hs : path.dropWhile (· = slash) with
  | nil =>
    rw [hs] at h
    exact nomatch h
  | cons c s =>
    have hc : c ≠ slash := by
      have hhead := List.head?_dropWhile_not (fun c : Byte ↦ decide (c = slash)) path
      rw [hs] at hhead
      simpa using hhead
    have hle := length_dropWhile_le (fun c : Byte ↦ decide (c = slash)) path
    rw [hs, List.length_cons] at hle
    have hrest : (s.dropWhile (· ≠ slash)).dropWhile (· = slash) = rest := by
      simp only [hs] at h
      rw [if_neg (List.cons_ne_nil _ _), Option.some_inj, Prod.mk.injEq] at h
      rw [← h.2, List.dropWhile_cons_of_pos (by simpa using hc)]
    have h₁ := length_dropWhile_le (fun c : Byte ↦ decide (c = slash))
      (s.dropWhile (· ≠ slash))
    have h₂ := length_dropWhile_le (fun c : Byte ↦ decide (c ≠ slash)) s
    rw [hrest] at h₁
    omega

/-- The loop of `namex`, from the inode `ip` on. -/
def namexLoop (ip : ℕ) (path : List Byte) : Except Stop (Option ℕ) :=
  match _h : skipelem path with
  | none => .ok (some ip)
  | some (name, rest) => do
    let dp ← ilock d ip
    if dp.type ≠ tDir then .ok none
    else
      match ← dirlookup d dp name with
      | none => .ok none
      | some next => namexLoop next rest
termination_by path.length
decreasing_by exact length_lt_of_skipelem _h

/-- `namei`: the inode number of a path, for a process in the directory `cwd`. -/
def namei (cwd : ℕ) (path : List Byte) : Except Stop (Option ℕ) :=
  namexLoop d (if path.head? = some slash then rootIno else cwd) path

end Xv6.Fs

import Xv6.Fs.Layout

/-!
# `mkfs`

`mkfs/mkfs.c`: the program on the host that writes the first file system image. It fills the image
with zeroes and the superblock, makes the root directory, appends one directory entry and the
contents of each file named on its command line, rounds the size of the root directory up and writes
the bitmap last. It ends early where one of its assertions fails or a sector to be read is past the
end of the image.

The host's `read` may return any number of bytes up to the size of the buffer, so an input file is
given by what the successive calls return.
-/

namespace Xv6.Mkfs

open Fs

/-- `FSSIZE`: blocks in the image. -/
abbrev fssize : ℕ := 2000

/-- `NINODES`. -/
abbrev ninodes : ℕ := 200

def nbitmap : ℕ := fssize / bpb + 1

def ninodeblocks : ℕ := ninodes / ipb + 1

def nlog : ℕ := logBlocks + 1

/-- Number of meta blocks; the first data block. -/
def nmeta : ℕ := 2 + nlog + ninodeblocks + nbitmap

def nblocks : ℕ := fssize - nmeta

theorem nmeta_eq : nmeta = 47 := rfl

/-- The assertions of the program, and `die("read")`. -/
inductive Failure
  /-- `assert(rootino == ROOTINO)` -/
  | rootino
  /-- `assert(index(shortname, '/') == 0)` -/
  | slashInName
  /-- `assert(strlen(shortname) <= DIRSIZ)` -/
  | nameTooLong
  /-- `assert(fbn < MAXFILE)` -/
  | fileTooBig
  /-- `assert(used < BPB)` -/
  | bitmapFull
  /-- `die("read")` in `rsect` -/
  | read
  deriving DecidableEq, Repr

/-- The half-word whose bytes in memory are those of `x` from the lowest on, on a little-endian
host. -/
def xshort (x : BitVec 16) : BitVec 16 := (x >>> 8).setWidth 8 ++ x.setWidth 8

/-- The word whose bytes in memory are those of `x` from the lowest on, on a little-endian host. -/
def xint (x : BitVec 32) : BitVec 32 :=
  (x >>> 24).setWidth 8 ++ (x >>> 16).setWidth 8 ++ (x >>> 8).setWidth 8 ++ x.setWidth 8

@[simp] theorem xshort_eq (x : BitVec 16) : xshort x = x := by
  refine BitVec.eq_of_getLsbD_eq fun i hi ↦ ?_
  simp only [xshort, BitVec.getLsbD_append, BitVec.getLsbD_setWidth, BitVec.getLsbD_ushiftRight]
  grind

@[simp] theorem xint_eq (x : BitVec 32) : xint x = x := by
  refine BitVec.eq_of_getLsbD_eq fun i hi ↦ ?_
  simp only [xint, BitVec.getLsbD_append, BitVec.getLsbD_setWidth, BitVec.getLsbD_ushiftRight]
  grind

/-- `sb`. -/
def superblock : Block :=
  let sb := setWord 0 0 fsMagic
  let sb := setWord sb 1 (xint (.ofNat 32 fssize))
  let sb := setWord sb 2 (xint (.ofNat 32 nblocks))
  let sb := setWord sb 3 (xint (.ofNat 32 ninodes))
  let sb := setWord sb 4 (xint (.ofNat 32 nlog))
  let sb := setWord sb 5 (xint 2)
  let sb := setWord sb 6 (xint (.ofNat 32 (2 + nlog)))
  setWord sb 7 (xint (.ofNat 32 (2 + nlog + ninodeblocks)))

/-- The image and the two counters. -/
structure State where
  disk : Disk
  freeinode : ℕ
  freeblock : ℕ

/-! ### Sectors and inodes -/

def rsect (d : Disk) (sec : ℕ) : Except Failure Block :=
  if sec < fssize then .ok (d sec) else .error .read

def wsect (d : Disk) (sec : ℕ) (buf : Block) : Disk := Function.update d sec buf

def rinode (d : Disk) (inum : ℕ) : Except Failure Dinode := do
  let buf ← rsect d (iblock inum superblock)
  .ok (dinodeAt buf (inum % ipb))

def winode (d : Disk) (inum : ℕ) (ip : Dinode) : Except Failure Disk := do
  let buf ← rsect d (iblock inum superblock)
  .ok (wsect d (iblock inum superblock) (setDinode buf (inum % ipb) ip))

/-- The inode that `ialloc` writes. -/
def newInode (type : BitVec 16) : Dinode :=
  ((Dinode.setType 0 (xshort type)).setNlink (xshort 1)).setSize (xint 0)

/-- `ialloc`; the inode number it returns is `freeinode` before the call. -/
def ialloc (m : State) (type : BitVec 16) : Except Failure State := do
  let disk ← winode m.disk m.freeinode (newInode type)
  .ok { m with disk := disk, freeinode := m.freeinode + 1 }

/-! ### Appending to a file -/

/-- `if (xint(din.addrs[k]) == 0) din.addrs[k] = xint(freeblock++);` -/
def allocAddr (m : State) (din : Dinode) (k : ℕ) : State × Dinode :=
  if xint (din.addr k) = 0 then
    ({ m with freeblock := m.freeblock + 1 }, din.setAddr k (xint (.ofNat 32 m.freeblock)))
  else (m, din)

/-- The part of `iappend`'s loop that finds the block `fbn` of the file, or takes a new one. -/
def fileBlock (m : State) (din : Dinode) (fbn : ℕ) : Except Failure (State × Dinode × ℕ) :=
  if fbn < ndirect then
    let (m, din) := allocAddr m din fbn
    .ok (m, din, (xint (din.addr fbn)).toNat)
  else do
    let (m, din) := allocAddr m din ndirect
    let ind := (xint (din.addr ndirect)).toNat
    let indirect ← rsect m.disk ind
    if wordAt indirect (fbn - ndirect) = 0 then
      let indirect := setWord indirect (fbn - ndirect) (xint (.ofNat 32 m.freeblock))
      .ok ({ m with disk := wsect m.disk ind indirect, freeblock := m.freeblock + 1 }, din,
        (xint (wordAt indirect (fbn - ndirect))).toNat)
    else .ok (m, din, (xint (wordAt indirect (fbn - ndirect))).toNat)

/-- The loop of `iappend`: append the bytes `p` at `off`. -/
def iappendLoop (m : State) (din : Dinode) (off : ℕ) (p : List Byte) :
    Except Failure (State × Dinode × ℕ) :=
  if p = [] then .ok (m, din, off)
  else if off / bsize < maxFile then do
    let (m, din, x) ← fileBlock m din (off / bsize)
    let n₁ := min p.length ((off / bsize + 1) * bsize - off)
    let buf ← rsect m.disk x
    let buf := copyIn buf (off - off / bsize * bsize) (p.take n₁)
    iappendLoop { m with disk := wsect m.disk x buf } din (off + n₁) (p.drop n₁)
  else .error .fileTooBig
termination_by p.length
decreasing_by
  have hlt := Nat.lt_div_mul_add (a := off) (show 0 < bsize by decide)
  have hp : 0 < p.length := List.length_pos_iff.2 (by assumption)
  rw [List.length_drop]
  rw [Nat.add_mul]
  omega

def iappend (m : State) (inum : ℕ) (p : List Byte) : Except Failure State := do
  let din ← rinode m.disk inum
  let (m, din, off) ← iappendLoop m din (xint din.size).toNat p
  let disk ← winode m.disk inum (din.setSize (xint (.ofNat 32 off)))
  .ok { m with disk := disk }

/-! ### The bitmap -/

/-- The block that `balloc` writes. -/
def bitmap (used : ℕ) : Block :=
  (List.range used).foldl
    (fun buf i ↦ buf.put (8 * (i / 8)) (byteAt buf (i / 8) ||| (1#8 <<< (i % 8)))) 0

def balloc (m : State) (used : ℕ) : Except Failure State :=
  if used < bpb then
    .ok { m with disk := wsect m.disk (bmapstart superblock) (bitmap used) }
  else .error .bitmapFull

/-! ### The program -/

/-- `strncpy` into `n` bytes: what is left of them is filled up with zeroes. -/
def strncpy (n : ℕ) (s : List Byte) : List Byte := s.take n ++ List.replicate (n - s.length) 0

/-- The bytes of a directory entry. -/
def dirent (inum : ℕ) (name : List Byte) : List Byte :=
  let x := xshort (.ofNat 16 inum)
  [x.setWidth 8, (x >>> 8).setWidth 8] ++ strncpy dirsiz name

/-- A file named on the command line: its path, and what the calls of `read` on it return before
the end of the file. -/
structure InputFile where
  path : List Byte
  reads : List (List Byte)
  path_ne_nul : 0 ∉ path
  reads_le : ∀ buf ∈ reads, buf ≠ [] ∧ buf.length ≤ bsize

/-- The bytes of the file. -/
def InputFile.contents (f : InputFile) : List Byte := f.reads.flatten

/-- The string `"user/"`. -/
def userDir : List Byte := [0x75, 0x73, 0x65, 0x72, slash]

/-- The name under which a file goes into the image: without `user/` and without one underscore. -/
def shortname (path : List Byte) : Except Failure (List Byte) :=
  let s := if path.take 5 = userDir then path.drop 5 else path
  if slash ∈ s then .error .slashInName
  else
    let s := if s.head? = some 0x5f then s.tail else s
    if s.length ≤ dirsiz then .ok s else .error .nameTooLong

/-- `.` -/
def dot : Byte := 0x2e

/-- The root directory with its two first entries. -/
def makeRoot : Except Failure State := do
  let m : State := ⟨wsect (fun _ ↦ 0) 1 superblock, 1, nmeta⟩
  let rootino := m.freeinode
  let m ← ialloc m tDir
  if rootino ≠ rootIno then .error .rootino
  else
    let m ← iappend m rootino (dirent rootino [dot])
    iappend m rootino (dirent rootino [dot, dot])

/-- One turn of the loop over the files. -/
def addFile (m : State) (f : InputFile) : Except Failure State := do
  let name ← shortname f.path
  let inum := m.freeinode
  let m ← ialloc m tFile
  let m ← iappend m rootIno (dirent inum name)
  f.reads.foldlM (fun m buf ↦ iappend m inum buf) m

/-- `// fix size of root inode dir` -/
def fixRoot (m : State) : Except Failure State := do
  let din ← rinode m.disk rootIno
  let off := (xint din.size).toNat
  let disk ← winode m.disk rootIno (din.setSize (xint (.ofNat 32 ((off / bsize + 1) * bsize))))
  .ok { m with disk := disk }

/-- `main`. -/
def mkfs (files : List InputFile) : Except Failure State := do
  let m ← makeRoot
  let m ← files.foldlM addFile m
  let m ← fixRoot m
  balloc m m.freeblock

end Xv6.Mkfs

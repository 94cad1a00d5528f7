import Xv6.Fs.Kernel.Model

/-!
# Directories, paths and the rounds of a write

The rest of `kernel/fs.c` that looks up names, and what `filewrite` of `kernel/file.c` does between
`begin_op` and `end_op`, which have no effect on the state here.
-/

namespace Xv6.Fs.Kernel

variable (sb : Superblock)

/-! ### Directories -/

/-- The loop of `dirlookup`, over the offsets of entries. -/
def dirlookupFrom (dp : Slot) (name : List Byte) : List ℕ → FsM (Option (Slot × ℕ))
  | [] => return none
  | off :: offs => do
    let (r, de) ← readi sb dp .kernel (.ofNat 32 off) (.ofNat 32 direntSize)
    if r ≠ direntSize then throw .dirlookupRead
    else if direntInum de = 0 then dirlookupFrom dp name offs
    else if namecmp name (direntName de) then return some (← iget (direntInum de), off)
    else dirlookupFrom dp name offs

/-- `dirlookup`: the inode of a name in a directory, and the offset of the entry. -/
def dirlookup (dp : Slot) (name : List Byte) : FsM (Option (Slot × ℕ)) := do
  let d := (← inode dp).din
  if d.type ≠ tDir then throw .dirlookupNotDir
  else dirlookupFrom sb dp name (direntOffsets d.size.toNat)

/-! ### Paths -/

/-- The loop of `namex`; with an inode comes the last element of the path. -/
def namexFrom (nameiparent : Bool) : ℕ → Slot → List Byte → FsM (Option (Slot × List Byte))
  | 0, _, _ => throw .spins
  | turns + 1, ip, path =>
    match skipelem path with
    | none => do
      if nameiparent then
        iput sb ip
        return none
      else return some (ip, [])
    | some (name, rest) => do
      ilock sb ip
      if (← inode ip).din.type ≠ tDir then
        iunlockput sb ip
        return none
      else if nameiparent ∧ rest = [] then
        iunlock ip
        return some (ip, name)
      else
        match ← dirlookup sb ip name with
        | none =>
          iunlockput sb ip
          return none
        | some (next, _) =>
          iunlockput sb ip
          namexFrom nameiparent turns next rest

def namex (path : List Byte) (nameiparent : Bool) : FsM (Option (Slot × List Byte)) := do
  let ip ← if path.head? = some slash then iget rootIno else idup (← get).cwd
  namexFrom sb nameiparent (path.length + 1) ip path

def namei (path : List Byte) : FsM (Option Slot) := do
  return (← namex sb path false).map Prod.fst

/-- `nameiparent`: the directory, and the last element of the path. -/
def nameiparent (path : List Byte) : FsM (Option (Slot × List Byte)) := namex sb path true

/-! ### Open files -/

def modifyFile (f : Fin nfile) (g : OpenFile → OpenFile) : FsM Unit :=
  modify fun s ↦ { s with file := Function.update s.file f (g (s.file f)) }

/-! ### Writing -/

/-- The number of bytes that `filewrite` writes at once. -/
def writeChunk : ℕ := (maxOpBlocks - 1 - 1 - 2) / 2 * bsize

/-- One round of `filewrite`, from `begin_op` to `end_op`: what `writei` returns. -/
def filewriteRound (f : Fin nfile) (addr : ℕ) (n1 : ℕ) : FsM ℤ := do
  let ip := ((← get).file f).ip
  ilock sb ip
  let r ← writei sb ip (.user addr) ((← get).file f).off (.ofNat 32 n1)
  if r > 0 then modifyFile f fun f ↦ { f with off := f.off + .ofInt 32 r }
  iunlock ip
  return r

end Xv6.Fs.Kernel

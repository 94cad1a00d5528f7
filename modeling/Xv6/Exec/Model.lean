import Xv6.Fs.Kernel.Calls
import Xv6.Library.Zoom
import Xv6.Vm.ProcTable

/-!
# `kexec`

`kernel/exec.c`: a program is read from a file into a new page table, its arguments are put on its
stack, and the process changes to it. The code is over the memory of `Xv6.Vm` and the file system of
`Xv6.Fs.Kernel`, and over what `struct proc` has for it.

The registers that `kexec` sets in the trapframe are fields here, not bytes of its page. What the
code keeps on its own stack (the headers, `ustack`) is not in the state. A string in kernel memory
is the list of its bytes before the `NUL`.
-/

namespace Xv6.Exec

open Fs Fs.Kernel

/-- `MAXARG`. -/
abbrev maxarg : ℕ := 32

/-- `USERSTACK`. -/
abbrev userstack : ℕ := 1

/-- `ELF_MAGIC`. -/
abbrev elfMagic : ℕ := 0x464C457F

/-- `ELF_PROG_LOAD`. -/
abbrev elfProgLoad : ℕ := 1

/-! ### Headers -/

/-- `sizeof(struct elfhdr)`. -/
abbrev elfhdrSize : ℕ := 64

/-- `sizeof(struct proghdr)`. -/
abbrev proghdrSize : ℕ := 56

/-- The number in the `w` bytes from `off` on, the lowest first. -/
def field (bytes : List Byte) (off w : ℕ) : ℕ :=
  ((bytes.drop off).take w).foldr (fun b n ↦ b.toNat + 256 * n) 0

/-- What `kexec` uses of `struct elfhdr`. -/
structure Elfhdr where
  magic : ℕ
  entry : ℕ
  phoff : ℕ
  phnum : ℕ
  deriving DecidableEq, Repr

/-- A `struct elfhdr` in memory. -/
def Elfhdr.read (bytes : List Byte) : Elfhdr where
  magic := field bytes 0 4
  entry := field bytes 24 8
  phoff := field bytes 32 8
  phnum := field bytes 56 2

/-- What `kexec` uses of `struct proghdr`. -/
structure Proghdr where
  type : ℕ
  flags : ℕ
  off : ℕ
  vaddr : ℕ
  filesz : ℕ
  memsz : ℕ
  deriving DecidableEq, Repr

/-- A `struct proghdr` in memory. -/
def Proghdr.read (bytes : List Byte) : Proghdr where
  type := field bytes 0 4
  flags := field bytes 4 4
  off := field bytes 8 8
  vaddr := field bytes 16 8
  filesz := field bytes 32 8
  memsz := field bytes 40 8

/-- `flags2perm`. -/
def flags2perm (flags : ℕ) : Pte :=
  (if flags.testBit 0 then pteX else 0) ||| if flags.testBit 1 then pteW else 0

/-! ### The state -/

/-- A string in kernel memory, without its `NUL`. -/
def CString := { bytes : List Byte // 0 ∉ bytes }

/-- `strlen`. -/
def CString.strlen (s : CString) : ℕ := s.1.length

/-- The bytes of a string in memory. -/
def CString.byte (s : CString) (k : ℕ) : Byte := s.1.getD k 0

/-- What `kexec` uses of `struct proc`. -/
structure Process where
  pagetable : ℕ
  sz : ℕ
  /-- The page of the trapframe. -/
  trapframe : ℕ
  /-- `trapframe->epc`. -/
  epc : ℕ
  /-- `trapframe->sp`. -/
  sp : ℕ
  /-- `trapframe->a1`. -/
  a1 : ℕ
  name : List Byte
  deriving DecidableEq

/-- The state of the machine, with the process that is running. -/
structure Machine where
  phys : Phys
  fs : Kfs
  /-- The calls of `begin_op` that the process has not yet ended. -/
  ops : ℕ
  proc : Process

/-- Where the kernel stops. -/
inductive Halt
  | vm (stop : Stop)
  | fs (panic : Panic)
  /-- `panic("loadseg: address should exist")`. -/
  | loadseg
  /-- `ustack` is written behind its end. -/
  | ustack
  /-- A loop goes on past the bound it is given here. -/
  | spins

/-- The code of `kexec`. -/
abbrev ExecM := StateT Machine (Except Halt)

variable {α : Type}

/-- Code that uses the memory. -/
def vm (m : KM α) : ExecM α := zoom Machine.phys (fun p s ↦ { s with phys := p }) .vm m

/-- Code that uses the file system. -/
def fs (m : FsM α) : ExecM α := zoom Machine.fs (fun f s ↦ { s with fs := f }) .fs m

def beginOp : ExecM Unit := modify fun s ↦ { s with ops := s.ops + 1 }

def endOp : ExecM Unit := modify fun s ↦ { s with ops := s.ops - 1 }

/-! ### Segments -/

variable [Image] (sb : Superblock)

/-- `readi` into the physical page `pa`: what it returns. -/
def readiPage (ip : Kernel.Slot) (pa : ℕ) (off n : BitVec 32) : ExecM ℤ := do
  let (r, bytes) ← fs (readi sb ip .kernel off n)
  let b ← vm (loadPage pa)
  vm (storePage pa (putBytes b 0 bytes.length fun k ↦ bytes.getD k 0))
  return r

/-- The loop of `loadseg`. -/
def loadsegFrom (pagetable va : ℕ) (ip : Kernel.Slot) (offset sz : BitVec 32) : ℕ →
    BitVec 32 → ExecM ℤ
  | 0, _ => throw .spins
  | turns + 1, i => do
    if i < sz then
      let pa ← vm (walkaddr pagetable (u64 (va + i.toNat)))
      if pa = 0 then throw .loadseg
      else
        let n := if sz - i < .ofNat 32 pgsize then sz - i else .ofNat 32 pgsize
        if (← readiPage sb ip pa (offset + i) n) ≠ n.toNat then return -1
        else loadsegFrom pagetable va ip offset sz turns (i + .ofNat 32 pgsize)
    else return 0

/-- `loadseg`. -/
def loadseg (pagetable va : ℕ) (ip : Kernel.Slot) (offset sz : BitVec 32) : ExecM ℤ :=
  loadsegFrom sb pagetable va ip offset sz (2 ^ 20 + 1) 0

/-- The loop of `kexec` over the program headers, of which `n` are left: whether it has come to its
end, and the size. -/
def loadSegments (pagetable : ℕ) (ip : Kernel.Slot) : ℕ → BitVec 32 → ℕ → ExecM (Bool × ℕ)
  | 0, _, sz => return (true, sz)
  | n + 1, off, sz => do
    let (r, bytes) ← fs (readi sb ip .kernel off (.ofNat 32 proghdrSize))
    let ph := Proghdr.read bytes
    if r ≠ proghdrSize then return (false, sz)
    else if ph.type ≠ elfProgLoad then
      loadSegments pagetable ip n (off + .ofNat 32 proghdrSize) sz
    else if ph.memsz < ph.filesz then return (false, sz)
    else if u64 (ph.vaddr + ph.memsz) < ph.vaddr then return (false, sz)
    else if ph.vaddr % pgsize ≠ 0 then return (false, sz)
    else
      let sz1 ← vm (uvmalloc pagetable sz (u64 (ph.vaddr + ph.memsz)) (flags2perm ph.flags))
      if sz1 = 0 then return (false, sz)
      else if (← loadseg sb pagetable ph.vaddr ip (.ofNat 32 ph.off) (.ofNat 32 ph.filesz)) < 0 then
        return (false, sz1)
      else loadSegments pagetable ip n (off + .ofNat 32 proghdrSize) sz1

/-! ### The stack -/

/-- `copyout` into the new page table. -/
def copyoutNew (pagetable dstva : ℕ) (src : ℕ → Byte) (len : ℕ) : ExecM ℤ := do
  let p := (← get).proc
  vm (copyout p.pagetable p.sz pagetable dstva src len)

/-- `sp -= n; sp -= sp % 16`. -/
def lower (sp n : ℕ) : ℕ := sub64 sp n - sub64 sp n % 16

/-- The loop that copies the argument strings; `ustack` has the addresses of those that are done. -/
def pushStrings (pagetable stackbase : ℕ) :
    List CString → ℕ → List ℕ → ExecM (Option (ℕ × List ℕ))
  | [], sp, ustack => return some (sp, ustack)
  | arg :: argv, sp, ustack => do
    if ustack.length ≥ maxarg then return none
    else
      let sp := lower sp (arg.strlen + 1)
      if sp < stackbase then return none
      else if (← copyoutNew pagetable sp arg.byte (arg.strlen + 1)) < 0 then return none
      else pushStrings pagetable stackbase argv sp (ustack ++ [sp])

/-- The bytes of an array of `uint64`. -/
def wordByte (words : List ℕ) (k : ℕ) : Byte := .ofNat 8 (words.getD (k / 8) 0 / 256 ^ (k % 8))

/-- The strings and the array of their addresses: the final stack pointer. -/
def pushArgs (pagetable stackbase sp : ℕ) (argv : List CString) : ExecM (Option ℕ) := do
  match ← pushStrings pagetable stackbase argv sp [] with
  | none => return none
  | some (sp, ustack) =>
    if ustack.length ≥ maxarg then throw .ustack
    else
      let sp := lower sp ((ustack.length + 1) * 8)
      if sp < stackbase then return none
      else if (← copyoutNew pagetable sp (wordByte (ustack ++ [0])) ((ustack.length + 1) * 8)) < 0
        then return none
      else return some sp

/-! ### `kexec` -/

/-- `safestrcpy(p->name, last, sizeof(p->name))`, where `last` is what follows the last slash. -/
def programName (path : List Byte) : List Byte :=
  ((path.reverse.takeWhile (· ≠ slash)).reverse).take 15

/-- The label `bad`. -/
def kexecBad (pagetable sz : ℕ) (ip : Option Kernel.Slot) : ExecM ℤ := do
  if pagetable ≠ 0 then vm (procFreepagetable pagetable sz)
  match ip with
  | none => return -1
  | some ip =>
    fs (iunlockput sb ip)
    endOp
    return -1

/-- The rest of `kexec`, when the arguments are on the stack. -/
def commit (pagetable sz sp entry : ℕ) (path : List Byte) (argc : ℕ) : ExecM ℤ := do
  let p := (← get).proc
  set { (← get) with proc := { p with
    a1 := sp, name := programName path, pagetable := pagetable, sz := sz, epc := entry, sp := sp } }
  vm (procFreepagetable p.pagetable p.sz)
  return argc

/-- `kexec` from where the segments are loaded and the file is closed. -/
def kexecStack (pagetable sz entry : ℕ) (path : List Byte) (argv : List CString) : ExecM ℤ := do
  let sz := pgRoundUp sz
  let sz1 ← vm (uvmalloc pagetable sz (u64 (sz + (userstack + 1) * pgsize)) pteW)
  if sz1 = 0 then kexecBad sb pagetable sz none
  else
    let sz := sz1
    vm (uvmclear pagetable (sub64 sz ((userstack + 1) * pgsize)))
    match ← pushArgs pagetable (sub64 sz (userstack * pgsize)) sz argv with
    | none => kexecBad sb pagetable sz none
    | some sp => commit pagetable sz sp entry path argv.length

/-- `kexec` from where the file is locked. -/
def kexecFile (ip : Kernel.Slot) (path : List Byte) (argv : List CString) : ExecM ℤ := do
  let (r, bytes) ← fs (readi sb ip .kernel 0 (.ofNat 32 elfhdrSize))
  let elf := Elfhdr.read bytes
  if r ≠ elfhdrSize then kexecBad sb 0 0 (some ip)
  else if elf.magic ≠ elfMagic then kexecBad sb 0 0 (some ip)
  else
    let pagetable ← vm (procPagetable (← get).proc.trapframe)
    if pagetable = 0 then kexecBad sb 0 0 (some ip)
    else
      let (ok, sz) ← loadSegments sb pagetable ip elf.phnum (.ofNat 32 elf.phoff) 0
      if ok then
        fs (iunlockput sb ip)
        endOp
        kexecStack sb pagetable sz elf.entry path argv
      else kexecBad sb pagetable sz (some ip)

def kexec (path : List Byte) (argv : List CString) : ExecM ℤ := do
  beginOp
  match ← fs (namei sb path) with
  | none =>
    endOp
    return -1
  | some ip =>
    fs (ilock sb ip)
    kexecFile sb ip path argv

end Xv6.Exec

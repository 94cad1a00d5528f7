import Mathlib.Algebra.Group.Int.Defs
import Xv6.Vm.Phys

/-!
# User virtual memory

The functions of `kernel/vm.c`, in the source's order of calls and checks. Every function takes the
arguments of the C function; `vmfault`, which reads `myproc()->sz` and `myproc()->pagetable`, takes
these two as well, and so do its callers. The unused argument `read` of `vmfault` is left out.

Loops that count addresses do so in `uint64`, and such a loop need not end: its number of turns is
bounded by the number of page-aligned 64-bit addresses (`pageTurns`), and a loop that would take
more stops with `Stop.spins`. The specifications exclude this as they exclude a panic.
-/

namespace Xv6

/-- The number of page-aligned 64-bit addresses, and one more: no loop that counts pages takes this
many turns unless its counter comes round. -/
def pageTurns : ℕ := 2 ^ 52 + 1

/-- Subtraction of `uint64`s. -/
def sub64 (a b : ℕ) : ℕ := u64 (a + (2 ^ 64 - b))

/-- An `int` from a wider integer. -/
def toInt32 (x : ℤ) : ℤ := x.bmod (2 ^ 32)

/-- A `uint64` from a signed integer. -/
def ofInt64 (x : ℤ) : ℕ := (x % 2 ^ 64).toNat

/-- A byte of a page. -/
def byteAt (b : Page) (k : ℕ) : BitVec 8 := b.field (8 * k) 8

/-- `memmove` of `n` bytes to offset `off` of a page. -/
def putBytes (b : Page) (off n : ℕ) (src : ℕ → BitVec 8) : Page :=
  (List.range n).foldl (fun b k ↦ b.put (8 * (off + k)) (src k)) b

/-! ### Walking and mapping -/

/-- The loop of `walk`, from the page-table page `pagetable` of level `level` down. -/
def walkFrom : ℕ → ℕ → ℕ → Bool → KM (Option (ℕ × Fin 512))
  | 0, pagetable, va, _ => return some (pagetable, px 0 va)
  | level + 1, pagetable, va, alloc => do
    let e ← loadPte pagetable (px (level + 1) va)
    if hasFlag e pteV then
      walkFrom level (pte2pa e) va alloc
    else if !alloc then
      return none
    else
      let child ← kalloc
      if child = 0 then
        return none
      else
        memset child 0
        storePte pagetable (px (level + 1) va) (pa2pte child ||| pteV)
        walkFrom level child va alloc

/-- `walk`: where the entry for `va` is, if there is a page-table page for it. -/
def walk (pagetable va : ℕ) (alloc : Bool) : KM (Option (ℕ × Fin 512)) :=
  if va ≥ maxva then panic "walk" else walkFrom 2 pagetable va alloc

/-- `walkaddr`: the physical page a user address is in, or `0`. -/
def walkaddr (pagetable va : ℕ) : KM ℕ := do
  if va ≥ maxva then
    return 0
  else
    match ← walk pagetable va false with
    | none => return 0
    | some (c, i) =>
      let e ← loadPte c i
      if !hasFlag e pteV then
        return 0
      else if !hasFlag e pteU then
        return 0
      else
        return pte2pa e

/-- The loop of `mappages`. -/
def mappagesFrom (pagetable last : ℕ) (perm : Pte) : ℕ → ℕ → ℕ → KM ℤ
  | 0, _, _ => throw .spins
  | turns + 1, a, pa => do
    match ← walk pagetable a true with
    | none => return -1
    | some (c, i) =>
      let e ← loadPte c i
      if hasFlag e pteV then
        panic "mappages: remap"
      else
        storePte c i (pa2pte pa ||| perm ||| pteV)
        if a = last then
          return 0
        else
          mappagesFrom pagetable last perm turns (u64 (a + pgsize)) (u64 (pa + pgsize))

/-- `mappages`. -/
def mappages (pagetable va size pa : ℕ) (perm : Pte) : KM ℤ :=
  if va % pgsize ≠ 0 then
    panic "mappages: va not aligned"
  else if size % pgsize ≠ 0 then
    panic "mappages: size not aligned"
  else if size = 0 then
    panic "mappages: size"
  else
    mappagesFrom pagetable (sub64 (va + size) pgsize) perm pageTurns va pa

/-- `ismapped`. -/
def ismapped (pagetable va : ℕ) : KM Bool := do
  match ← walk pagetable va false with
  | none => return false
  | some (c, i) =>
    let e ← loadPte c i
    return hasFlag e pteV

/-- `uvmcreate`: an empty user page table, or `0`. -/
def uvmcreate : KM ℕ := do
  let pagetable ← kalloc
  if pagetable = 0 then
    return 0
  else
    memset pagetable 0
    return pagetable

/-- `uvmclear`: mark an entry invalid for user access. -/
def uvmclear (pagetable va : ℕ) : KM Unit := do
  match ← walk pagetable va false with
  | none => panic "uvmclear"
  | some (c, i) =>
    let e ← loadPte c i
    storePte c i (e &&& ~~~pteU)

variable [Image]

/-! ### Growing and shrinking -/

/-- One turn of the loop of `uvmunmap`. -/
def uvmunmapTurn (pagetable a : ℕ) (doFree : Bool) : KM Unit := do
  match ← walk pagetable a false with
  | none => return
  | some (c, i) =>
    let e ← loadPte c i
    if !hasFlag e pteV then
      return
    else
      if doFree then
        kfree (pte2pa e)
      storePte c i 0

/-- The loop of `uvmunmap`. -/
def uvmunmapFrom (pagetable bound : ℕ) (doFree : Bool) : ℕ → ℕ → KM Unit
  | 0, _ => throw .spins
  | turns + 1, a =>
    if a < bound then do
      uvmunmapTurn pagetable a doFree
      uvmunmapFrom pagetable bound doFree turns (u64 (a + pgsize))
    else
      return

/-- `uvmunmap`: remove `npages` mappings from `va` on; it is fine if some do not exist. -/
def uvmunmap (pagetable va npages : ℕ) (doFree : Bool) : KM Unit :=
  if va % pgsize ≠ 0 then
    panic "uvmunmap: not aligned"
  else
    uvmunmapFrom pagetable (u64 (va + npages * pgsize)) doFree pageTurns va

/-- `uvmdealloc`: shrink from `oldsz` to `newsz`. -/
def uvmdealloc (pagetable oldsz newsz : ℕ) : KM ℕ := do
  if newsz ≥ oldsz then
    return oldsz
  else
    if pgRoundUp newsz < pgRoundUp oldsz then
      let npages := toInt32 ((pgRoundUp oldsz - pgRoundUp newsz) / pgsize : ℕ)
      uvmunmap pagetable (pgRoundUp newsz) (ofInt64 npages) true
    return newsz

/-- The loop of `uvmalloc`; `oldsz` is rounded up. -/
def uvmallocFrom (pagetable oldsz newsz : ℕ) (xperm : Pte) : ℕ → ℕ → KM ℕ
  | 0, _ => throw .spins
  | turns + 1, a => do
    if a < newsz then
      let mem ← kalloc
      if mem = 0 then
        let _ ← uvmdealloc pagetable a oldsz
        return 0
      else
        memset mem 0
        let r ← mappages pagetable a pgsize mem (pteR ||| pteU ||| xperm)
        if r ≠ 0 then
          kfree mem
          let _ ← uvmdealloc pagetable a oldsz
          return 0
        else
          uvmallocFrom pagetable oldsz newsz xperm turns (u64 (a + pgsize))
    else
      return newsz

/-- `uvmalloc`: grow from `oldsz` to `newsz`; the new size, or `0` when memory runs out. -/
def uvmalloc (pagetable oldsz newsz : ℕ) (xperm : Pte) : KM ℕ := do
  if newsz < oldsz then
    return oldsz
  else
    uvmallocFrom pagetable (pgRoundUp oldsz) newsz xperm pageTurns (pgRoundUp oldsz)

/-! ### Freeing and copying an address space -/

/-- `freewalk`, for a page table of `levels` levels; the source leaves their number to the contents
of the pages. -/
def freewalk : ℕ → ℕ → KM Unit
  | 0, _ => throw .spins
  | levels + 1, pagetable => do
    forM (List.finRange 512) fun i ↦ do
      let e ← loadPte pagetable i
      if hasFlag e pteV && !hasFlag e (pteR ||| pteW ||| pteX) then
        freewalk levels (pte2pa e)
        storePte pagetable i 0
      else if hasFlag e pteV then
        panic "freewalk: leaf"
    kfree pagetable

/-- `uvmfree`: free user memory, then the page-table pages. -/
def uvmfree (pagetable sz : ℕ) : KM Unit := do
  if sz > 0 then
    uvmunmap pagetable 0 (pgRoundUp sz / pgsize) true
  freewalk 3 pagetable

/-- The loop of `uvmcopy`, with what the source does at `err`. -/
def uvmcopyFrom (old new sz : ℕ) : ℕ → ℕ → KM ℤ
  | 0, _ => throw .spins
  | turns + 1, i => do
    if i < sz then
      match ← walk old i false with
      | none => uvmcopyFrom old new sz turns (u64 (i + pgsize))
      | some (c, k) =>
        let e ← loadPte c k
        if !hasFlag e pteV then
          uvmcopyFrom old new sz turns (u64 (i + pgsize))
        else
          let mem ← kalloc
          if mem = 0 then
            uvmunmap new 0 (i / pgsize) true
            return -1
          else
            let b ← loadPage (pte2pa e)
            storePage mem b
            let r ← mappages new i pgsize mem (pteFlags e)
            if r ≠ 0 then
              kfree mem
              uvmunmap new 0 (i / pgsize) true
              return -1
            else
              uvmcopyFrom old new sz turns (u64 (i + pgsize))
    else
      return 0

/-- `uvmcopy`: copy a parent's memory into a child's page table. -/
def uvmcopy (old new sz : ℕ) : KM ℤ := uvmcopyFrom old new sz pageTurns 0

/-! ### Faults, and copying between kernel and user -/

section

/- `myproc()->pagetable` and `myproc()->sz`. -/
variable (own psz : ℕ)

/-- `vmfault`: give a page to an address below the process's size that has none. -/
def vmfault (pagetable va : ℕ) : KM ℕ := do
  if va ≥ psz then
    return 0
  else
    let va := pgRoundDown va
    if ← ismapped pagetable va then
      return 0
    else
      let mem ← kalloc
      if mem = 0 then
        return 0
      else
        memset mem 0
        let r ← mappages own va pgsize mem (pteW ||| pteU ||| pteR)
        if r ≠ 0 then
          kfree mem
          return 0
        else
          return mem

/-- `walkaddr`, and `vmfault` if there is nothing there, as `copyout` and `copyin` do. -/
def walkOrFault (pagetable va0 : ℕ) : KM ℕ := do
  let pa0 ← walkaddr pagetable va0
  if pa0 = 0 then vmfault own psz pagetable va0 else return pa0

/-- The loop of `copyout`; `turns` is at least `len`. -/
def copyoutFrom (pagetable : ℕ) : ℕ → ℕ → (ℕ → BitVec 8) → ℕ → KM ℤ
  | 0, _, _, len => if len > 0 then throw .spins else return 0
  | turns + 1, dstva, src, len => do
    if len > 0 then
      let va0 := pgRoundDown dstva
      if va0 ≥ maxva then
        return -1
      else
        let pa0 ← walkOrFault own psz pagetable va0
        if pa0 = 0 then
          return -1
        else
          match ← walk pagetable va0 false with
          | none => panic "kerneltrap" -- `*pte` through the null pointer traps
          | some (c, i) =>
            let e ← loadPte c i
            if !hasFlag e pteW then
              return -1
            else
              let n := min (pgsize - (dstva - va0)) len
              let b ← loadPage pa0
              storePage pa0 (putBytes b (dstva - va0) n src)
              copyoutFrom pagetable turns (u64 (va0 + pgsize)) (fun k ↦ src (n + k)) (len - n)
    else
      return 0

/-- `copyout`: `len` bytes from `src` to the user address `dstva`. -/
def copyout (pagetable dstva : ℕ) (src : ℕ → BitVec 8) (len : ℕ) : KM ℤ :=
  copyoutFrom own psz pagetable len dstva src len

/-- The loop of `copyin`; it returns what it has copied as well. -/
def copyinFrom (pagetable : ℕ) : ℕ → ℕ → ℕ → KM (ℤ × List (BitVec 8))
  | 0, _, len => if len > 0 then throw .spins else return (0, [])
  | turns + 1, srcva, len => do
    if len > 0 then
      let va0 := pgRoundDown srcva
      let pa0 ← walkOrFault own psz pagetable va0
      if pa0 = 0 then
        return (-1, [])
      else
        let n := min (pgsize - (srcva - va0)) len
        let b ← loadPage pa0
        let (r, rest) ← copyinFrom pagetable turns (u64 (va0 + pgsize)) (len - n)
        return (r, (List.range n).map (fun k ↦ byteAt b (srcva - va0 + k)) ++ rest)
    else
      return (0, [])

/-- `copyin`: `len` bytes from the user address `srcva`. -/
def copyin (pagetable srcva len : ℕ) : KM (ℤ × List (BitVec 8)) :=
  copyinFrom own psz pagetable len srcva len

end

omit [Image]

/-- The loop of `copyinstr`; it returns what it has copied as well. -/
def copyinstrFrom (pagetable : ℕ) : ℕ → ℕ → ℕ → KM (ℤ × List (BitVec 8))
  | 0, _, max => if max > 0 then throw .spins else return (-1, [])
  | turns + 1, srcva, max => do
    if max > 0 then
      let va0 := pgRoundDown srcva
      let pa0 ← walkaddr pagetable va0
      if pa0 = 0 then
        return (-1, [])
      else
        let n := min (pgsize - (srcva - va0)) max
        let b ← loadPage pa0
        let chunk := (List.range n).map fun k ↦ byteAt b (srcva - va0 + k)
        if 0 ∈ chunk then
          return (0, chunk.takeWhile (· ≠ 0))
        else
          let (r, rest) ← copyinstrFrom pagetable turns (u64 (va0 + pgsize)) (max - n)
          return (r, chunk ++ rest)
    else
      return (-1, [])

/-- `copyinstr`: a string of at most `max` bytes, its null included, from the user address
`srcva`. -/
def copyinstr (pagetable srcva max : ℕ) : KM (ℤ × List (BitVec 8)) :=
  copyinstrFrom pagetable max srcva max

end Xv6

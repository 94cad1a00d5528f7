import Mathlib.Algebra.Group.Nat.Defs
import Mathlib.Data.Nat.Notation
import Mathlib.Logic.Function.Basic

/-!
# The memory allocator of user programs

`user/umalloc.c`: `free`, `morecore` and `malloc`, and the list of free blocks they keep. Pointers
are addresses, the address `0` being no block. Memory is given by the header that stands at each
address; a block begins with its header, and headers of blocks do not overlap, so no two of them are
read from the same bytes.

`sbrk` is not part of the allocator. It is a parameter, with a state of its own: the number of bytes
is an `int`, and the result is an address, or `none` for `SBRK_ERROR`.

The loops follow pointers. They get a bound on the number of headers that they may look at, which is
larger than the number of headers that memory has room for; a call that does not end is `none`.
-/

namespace Xv6.Umalloc

/-- `union header`. -/
structure Header where
  ptr : ℕ
  size : BitVec 32

/-- `sizeof(Header)`. -/
abbrev headerSize : ℕ := 16

/-- The state of the allocator: the addresses `&base` and `freep`, and memory. -/
structure Heap where
  base : ℕ
  freep : ℕ
  mem : ℕ → Header

/-- More than there are headers in 64-bit memory. -/
abbrev hops : ℕ := 2 ^ 64

namespace Heap

/-- `p->s.ptr`. -/
def ptr (h : Heap) (p : ℕ) : ℕ := (h.mem p).ptr

/-- `p->s.size`. -/
def size (h : Heap) (p : ℕ) : BitVec 32 := (h.mem p).size

/-- `p->s.ptr = q`. -/
def setPtr (h : Heap) (p q : ℕ) : Heap :=
  { h with mem := Function.update h.mem p { h.mem p with ptr := q } }

/-- `p->s.size = n`. -/
def setSize (h : Heap) (p : ℕ) (n : BitVec 32) : Heap :=
  { h with mem := Function.update h.mem p { h.mem p with size := n } }

/-- `p + p->s.size`. -/
def stop (h : Heap) (p : ℕ) : ℕ := p + headerSize * (h.size p).toNat

/-! ### `free` -/

/-- The loop of `free`: the block after which `bp` is to be put. -/
def findPlace (h : Heap) (bp : ℕ) : ℕ → ℕ → Option ℕ
  | 0, _ => none
  | fuel + 1, p =>
    if bp > p ∧ bp < h.ptr p then some p
    -- freed block at start or end of arena
    else if p ≥ h.ptr p ∧ (bp > p ∨ bp < h.ptr p) then some p
    else findPlace h bp fuel (h.ptr p)

/-- What `free` does once it knows that the block `bp` comes after `p`. -/
def link (h : Heap) (bp p : ℕ) : Heap :=
  let h :=
    if h.stop bp = h.ptr p then
      let h := h.setSize bp (h.size bp + h.size (h.ptr p))
      h.setPtr bp (h.ptr (h.ptr p))
    else h.setPtr bp (h.ptr p)
  let h :=
    if h.stop p = bp then
      let h := h.setSize p (h.size p + h.size bp)
      h.setPtr p (h.ptr bp)
    else h.setPtr p bp
  { h with freep := p }

/-- `free(ap)`. -/
def free (h : Heap) (ap : ℕ) : Option Heap :=
  let bp := ap - headerSize
  (h.findPlace bp hops h.freep).map fun p ↦ h.link bp p

/-! ### `malloc` -/

/-- The number of units that `morecore(nu)` gets. -/
def morecoreUnits (nu : BitVec 32) : BitVec 32 := if nu < 4096 then 4096 else nu

/-- The argument of `sbrk` in `morecore(nu)`: the product has 64 bits, the parameter is an `int`. -/
def morecoreBytes (nu : BitVec 32) : BitVec 32 :=
  .ofNat 32 ((morecoreUnits nu).toNat * headerSize)

section

variable {σ : Type} (sbrk : BitVec 32 → σ → Option ℕ × σ)

/-- `morecore(nu)`; the result is an address, `0` if there is no more memory. -/
def morecore (h : Heap) (s : σ) (nu : BitVec 32) : Option (ℕ × Heap × σ) :=
  match sbrk (morecoreBytes nu) s with
  | (none, s) => some (0, h, s)
  | (some hp, s) =>
    let h := h.setSize hp (morecoreUnits nu)
    (h.free (hp + headerSize)).map fun h ↦ (h.freep, h, s)

/-- The branch of `malloc` in which the block `p`, which comes after `prevp`, is large enough. -/
def allot (h : Heap) (nunits : BitVec 32) (prevp p : ℕ) : ℕ × Heap :=
  if h.size p = nunits then
    (p + headerSize, { h.setPtr prevp (h.ptr p) with freep := prevp })
  else
    -- the block's tail is allocated
    let h := h.setSize p (h.size p - nunits)
    let p := h.stop p
    (p + headerSize, { h.setSize p nunits with freep := prevp })

/-- The loop of `malloc`. -/
def search (nunits : BitVec 32) : ℕ → ℕ → ℕ → Heap → σ → Option (ℕ × Heap × σ)
  | 0, _, _, _, _ => none
  | fuel + 1, prevp, p, h, s =>
    if h.size p ≥ nunits then
      let (ap, h) := h.allot nunits prevp p
      some (ap, h, s)
    else if p = h.freep then
      -- wrapped around the free list
      match morecore sbrk h s nunits with
      | none => none
      | some (p, h, s) => if p = 0 then some (0, h, s) else search nunits fuel p (h.ptr p) h s
    else search nunits fuel p (h.ptr p) h s

/-- The number of units that `malloc(nbytes)` looks for, one of them for the header. -/
def nunits (nbytes : BitVec 32) : BitVec 32 :=
  .ofNat 32 ((nbytes.toNat + headerSize - 1) / headerSize + 1)

/-- The list of free blocks, which the first call of `malloc` makes. -/
def start (h : Heap) : Heap :=
  if h.freep = 0 then
    { h.setPtr h.base h.base with freep := h.base }.setSize h.base 0
  else h

/-- `malloc(nbytes)`. -/
def malloc (h : Heap) (s : σ) (nbytes : BitVec 32) : Option (ℕ × Heap × σ) :=
  let h := h.start
  search sbrk (nunits nbytes) hops h.freep (h.ptr h.freep) h s

end

end Heap

end Xv6.Umalloc

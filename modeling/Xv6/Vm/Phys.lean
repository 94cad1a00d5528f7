import Mathlib.Algebra.Group.Nat.Defs
import Mathlib.Logic.Function.Basic
import Xv6.Library.BitField
import Xv6.Library.Wp

/-!
# Physical pages, page-table entries and the page allocator

`kernel/riscv.h`, `kernel/memlayout.h` and `kernel/kalloc.c`.

Addresses are natural numbers; where `uint64` arithmetic can wrap, the reduction modulo `2 ^ 64` is
written out (`u64`). Physical memory gives each page, named by the address of its first byte, its
`8 * PGSIZE` bits, so a page-table page and a page of user bytes are the same kind of object and a
page-table entry is a field of it. A pointer to a page-table entry is a page and an index, and C's
null pointer is `none`; for pages themselves null is `0`, as in the source.

The free list of `kalloc.c` is a list of pages; the links, which the source keeps in the free pages
themselves, are the order of the list. `kalloc` fails when the list is empty and also whenever the
state's `fails` says so: this is how "at any point" is said of a failing allocation. The state is
the one of the virtual-memory code; the process table is built around it later.
-/

namespace Xv6

open Function

/-! ### Addresses -/

/-- `PGSIZE`. -/
abbrev pgsize : ℕ := 4096

/-- `MAXVA`: one beyond the highest virtual address `walk` takes. -/
abbrev maxva : ℕ := 2 ^ 38

/-- `TRAMPOLINE`: the trampoline page is mapped at the highest address. -/
abbrev trampolineVa : ℕ := maxva - pgsize

/-- `TRAPFRAME`: the process's trapframe page is mapped just below the trampoline. -/
abbrev trapframeVa : ℕ := trampolineVa - pgsize

/-- `KERNBASE`. -/
abbrev kernbase : ℕ := 0x80000000

/-- `PHYSTOP`: the end of the RAM the kernel uses. -/
abbrev physTop : ℕ := kernbase + 128 * 1024 * 1024

theorem pgsize_eq : pgsize = 4096 := rfl

theorem kernbase_eq : kernbase = 0x80000000 := rfl

theorem physTop_eq : physTop = 0x88000000 := rfl

/-- What the linker decides about the kernel's image: where it ends, and where the page with the
trampoline code is. -/
class Image where
  /-- The symbol `end`: the first address after the kernel. -/
  kernelEnd : ℕ
  /-- The symbol `trampoline`, a page of the kernel's text. -/
  trampoline : ℕ
  kernbase_le_kernelEnd : kernbase ≤ kernelEnd
  trampoline_aligned : trampoline % pgsize = 0
  kernbase_le_trampoline : kernbase ≤ trampoline
  trampoline_lt_kernelEnd : trampoline < kernelEnd

export Image (kernelEnd)

/-- A `uint64`. -/
abbrev u64 (x : ℕ) : ℕ := x % 2 ^ 64

/-- `PGROUNDUP`. -/
def pgRoundUp (sz : ℕ) : ℕ := u64 (sz + (pgsize - 1)) / pgsize * pgsize

/-- `PGROUNDDOWN`. -/
def pgRoundDown (a : ℕ) : ℕ := a / pgsize * pgsize

/-- `PX(level, va)`: the index into the page-table page of that level. -/
def px (level va : ℕ) : Fin 512 := Fin.ofNat 512 (va / 2 ^ (12 + 9 * level))

/-! ### Page-table entries -/

/-- `pte_t`. -/
abbrev Pte := BitVec 64

/-- `PTE_V`: valid. -/
abbrev pteV : Pte := 1

/-- `PTE_R`. -/
abbrev pteR : Pte := 2

/-- `PTE_W`. -/
abbrev pteW : Pte := 4

/-- `PTE_X`. -/
abbrev pteX : Pte := 8

/-- `PTE_U`: user can access. -/
abbrev pteU : Pte := 16

/-- `PA2PTE`. -/
def pa2pte (pa : ℕ) : Pte := (BitVec.ofNat 64 pa >>> 12) <<< 10

/-- `PTE2PA`. -/
def pte2pa (e : Pte) : ℕ := ((e >>> 10) <<< 12).toNat

/-- `PTE_FLAGS`. -/
def pteFlags (e : Pte) : Pte := e &&& 0x3FF

/-- The test `pte & flags` of C. -/
def hasFlag (e flags : Pte) : Bool := e &&& flags != 0#64

theorem hasFlag_or (e e' f : Pte) : hasFlag (e ||| e') f = (hasFlag e f || hasFlag e' f) := by
  rw [hasFlag, hasFlag, hasFlag, Bool.eq_iff_iff, Bool.or_eq_true, bne_iff_ne, bne_iff_ne,
    bne_iff_ne, BitVec.and_or_distrib_right, Ne, BitVec.or_eq_zero_iff, not_and_or]

/-- The address part of an entry is above all its flags. -/
theorem hasFlag_pa2pte (pa : ℕ) {f : Pte} (hf : f.toNat < 1024) :
    hasFlag (pa2pte pa) f = false := by
  rw [hasFlag, bne_eq_false_iff_eq]
  refine BitVec.eq_of_getLsbD_eq fun i hi ↦ ?_
  rw [BitVec.getLsbD_and, pa2pte, BitVec.getLsbD_shiftLeft]
  by_cases h : i < 10
  · simp [h]
  · have hlow : f.getLsbD i = false := by
      rw [BitVec.getLsbD, Nat.testBit_lt_two_pow]
      exact Nat.lt_of_lt_of_le hf (Nat.pow_le_pow_right (n := 2) (by decide) (Nat.le_of_not_lt h))
    simp [hlow]

/-- What is read back of the address stored in an entry, whatever the flags: its page. -/
theorem pte2pa_pa2pte_or_u64 (pa : ℕ) {f : Pte} (hf : f.toNat < 1024) :
    pte2pa (pa2pte pa ||| f) = pgRoundDown (u64 pa) := by
  have hval : (pa2pte pa).toNat = (pa % 2 ^ 64 / 4096) * 2 ^ 10 := by
    rw [pa2pte, BitVec.toNat_shiftLeft, BitVec.toNat_ushiftRight, BitVec.toNat_ofNat,
      Nat.shiftRight_eq_div_pow, Nat.shiftLeft_eq]
    exact Nat.mod_eq_of_lt (by omega)
  have hor : (pa2pte pa ||| f).toNat = (pa % 2 ^ 64 / 4096) * 2 ^ 10 + f.toNat := by
    rw [BitVec.toNat_or, hval, ← Nat.shiftLeft_eq, Nat.shiftLeft_add_eq_or_of_lt (i := 10) hf]
  rw [pte2pa, BitVec.toNat_shiftLeft, BitVec.toNat_ushiftRight, hor, Nat.shiftRight_eq_div_pow,
    Nat.shiftLeft_eq]
  show _ = pa % 2 ^ 64 / 4096 * 4096
  omega

/-- The address of a page is read back. -/
theorem pte2pa_pa2pte_or {pa : ℕ} (ha : pa % pgsize = 0) (hpa : pa < 2 ^ 54) {f : Pte}
    (hf : f.toNat < 1024) : pte2pa (pa2pte pa ||| f) = pa := by
  have ha' : pa % 4096 = 0 := ha
  rw [pte2pa_pa2pte_or_u64 pa hf]
  show pa % 2 ^ 64 / 4096 * 4096 = pa
  omega

/-! ### Memory -/

/-- A page of memory: `8 * PGSIZE` bits. -/
abbrev Page := BitVec (8 * 4096)

/-- Physical memory, by the address of a page's first byte. -/
abbrev Memory := ℕ → Page

/-- A page full of the byte `b`. -/
def filled (b : BitVec 8) : Page := b.replicate 4096

/-- Entry `i` of the page-table page `a`. -/
def pte (m : Memory) (a : ℕ) (i : Fin 512) : Pte := (m a).field (64 * i) 64

/-- `m` after `e` has been stored to entry `i` of the page-table page `a`. -/
def setPte (m : Memory) (a : ℕ) (i : Fin 512) (e : Pte) : Memory :=
  Function.update m a ((m a).put (64 * i) e)

section

variable (m : Memory) (a : ℕ) (i : Fin 512) (e : Pte)

theorem pte_setPte_self : pte (setPte m a i e) a i = e := by
  rw [pte, setPte, update_self, BitVec.field_put_self]
  omega

theorem pte_setPte_of_ne {j : Fin 512} (h : j ≠ i) : pte (setPte m a i e) a j = pte m a j := by
  rw [pte, setPte, update_self, BitVec.field_put_of_disjoint, pte]
  have hne : (j : ℕ) ≠ i := fun h' ↦ h (Fin.ext h')
  omega

theorem setPte_of_ne {b : ℕ} (h : b ≠ a) : setPte m a i e b = m b :=
  update_of_ne h _ m

/-- Stores to different pages commute. -/
theorem setPte_update_of_ne {b : ℕ} (h : b ≠ a) (x : Page) :
    setPte (update m b x) a i e = update (setPte m a i e) b x := by
  rw [setPte, update_of_ne h.symm, setPte, update_comm h]

end

/-- A page of zeros holds no valid entry. -/
theorem pte_of_zeros {m : Memory} {a : ℕ} (h : m a = filled 0) (i : Fin 512) : pte m a i = 0 := by
  refine BitVec.eq_of_getLsbD_eq fun k hk ↦ ?_
  rw [pte, h, filled, BitVec.getLsbD_field, BitVec.getLsbD_replicate]
  simp

/-- Why a computation of the kernel ends without a result. -/
inductive Stop
  /-- `panic(msg)`. -/
  | panic (msg : String)
  /-- A loop has taken more turns than its counter has values. -/
  | spins
  deriving DecidableEq

/-- `panic`. -/
def panic {σ α : Type} (msg : String) : StateT σ (Except Stop) α := throw (.panic msg)

@[simp]
theorem wp_panic {σ α : Type} {msg : String} {Q : α → σ → Prop} {s : σ} :
    wp (panic msg) Q s ↔ False :=
  wp_throw

/-- The state of the virtual-memory code. -/
structure Phys where
  /-- The contents of all pages. -/
  mem : Memory
  /-- `kmem.freelist`, in its order. -/
  freelist : List ℕ
  /-- Which of the coming calls of `kalloc` fail although there is memory. -/
  fails : List Bool

/-- Kernel code over the pages. -/
abbrev KM := StateT Phys (Except Stop)

/-- Read entry `i` of page-table page `a`. -/
def loadPte (a : ℕ) (i : Fin 512) : KM Pte := do
  let s ← get
  return pte s.mem a i

/-- Write entry `i` of page-table page `a`. -/
def storePte (a : ℕ) (i : Fin 512) (e : Pte) : KM Unit :=
  modify fun s ↦ { s with mem := setPte s.mem a i e }

/-- Read the page `a`. -/
def loadPage (a : ℕ) : KM Page := do
  let s ← get
  return s.mem a

/-- Overwrite the page `a`. -/
def storePage (a : ℕ) (b : Page) : KM Unit :=
  modify fun s ↦ { s with mem := Function.update s.mem a b }

/-- `memset` of the whole page `a`. -/
def memset (a : ℕ) (b : BitVec 8) : KM Unit := storePage a (filled b)

@[simp]
theorem wp_loadPte {a : ℕ} {i : Fin 512} {Q : Pte → Phys → Prop} {s : Phys} :
    wp (loadPte a i) Q s ↔ Q (pte s.mem a i) s := by
  rw [loadPte, wp_bind, wp_get, wp_pure]

@[simp]
theorem wp_storePte {a : ℕ} {i : Fin 512} {e : Pte} {Q : Unit → Phys → Prop} {s : Phys} :
    wp (storePte a i e) Q s ↔ Q () { s with mem := setPte s.mem a i e } :=
  wp_modify

@[simp]
theorem wp_loadPage {a : ℕ} {Q : Page → Phys → Prop} {s : Phys} :
    wp (loadPage a) Q s ↔ Q (s.mem a) s := by
  rw [loadPage, wp_bind, wp_get, wp_pure]

@[simp]
theorem wp_storePage {a : ℕ} {b : Page} {Q : Unit → Phys → Prop} {s : Phys} :
    wp (storePage a b) Q s ↔ Q () { s with mem := update s.mem a b } :=
  wp_modify

@[simp]
theorem wp_memset {a : ℕ} {b : BitVec 8} {Q : Unit → Phys → Prop} {s : Phys} :
    wp (memset a b) Q s ↔ Q () { s with mem := update s.mem a (filled b) } :=
  wp_modify

/-! ### The allocator -/

/-- `kalloc`: the first page of the free list, filled with junk, or `0`. -/
def kalloc : KM ℕ := do
  let s ← get
  match s.fails.head?, s.freelist with
  | some true, _ | _, [] =>
    set { s with fails := s.fails.tail }
    return 0
  | _, r :: rs =>
    set { s with freelist := rs, fails := s.fails.tail }
    memset r 5
    return r

/-- There is memory for `n` calls of `kalloc`, and none of them fails. -/
def Ample (s : Phys) (n : ℕ) : Prop := s.fails = [] ∧ n ≤ s.freelist.length

/-- The next `n` calls of `kalloc` succeed. -/
def Avail (s : Phys) (n : ℕ) : Prop := n ≤ s.freelist.length ∧ ∀ i < n, s.fails[i]? ≠ some true

/-- From `s` to `t`, `k` calls of `kalloc` have succeeded. -/
structure Takes (s t : Phys) (k : ℕ) : Prop where
  avail : ∀ n, Avail s (n + k) ↔ Avail t n
  fails : s.fails = [] → t.fails = []

section

variable {s t u : Phys} {n k j : ℕ}

theorem Avail.zero : Avail s 0 := ⟨Nat.zero_le _, fun i hi ↦ absurd hi (Nat.not_lt_zero i)⟩

theorem Avail.mono (h : Avail s n) (hk : k ≤ n) : Avail s k :=
  ⟨Nat.le_trans hk h.1, fun i hi ↦ h.2 i (Nat.lt_of_lt_of_le hi hk)⟩

theorem Avail.congr (hfree : t.freelist = s.freelist) (hfails : t.fails = s.fails) :
    Avail t n ↔ Avail s n := by
  rw [Avail, Avail, hfree, hfails]

theorem Ample.avail (h : Ample s n) : Avail s n := ⟨h.2, fun i _ ↦ by simp [h.1]⟩

theorem not_ample (h : ¬Avail s k) (hk : k ≤ j) (n : ℕ) : ¬Ample s (n + j) := fun hn ↦
  h (hn.avail.mono (Nat.le_trans hk (Nat.le_add_left j n)))

theorem Takes.trans (h : Takes s t j) (h' : Takes t u k) : Takes s u (k + j) :=
  ⟨fun n ↦ by rw [← Nat.add_assoc, h.avail, h'.avail], fun hs ↦ h'.fails (h.fails hs)⟩

theorem Takes.ample (h : Takes s t k) (hk : k ≤ j) {n : ℕ} (hn : Ample s (n + j)) : Ample t n :=
  ⟨h.fails hn.1, ((h.avail n).1 (hn.avail.mono (Nat.add_le_add_left hk n))).1⟩

/-- A call that succeeds is one of those that were available. -/
theorem takes_one {r : ℕ} {rs : List ℕ} (hfree : s.freelist = r :: rs)
    (hhead : s.fails.head? ≠ some true) (ht : t.freelist = rs) (hfails : t.fails = s.fails.tail) :
    Takes s t 1 := by
  refine ⟨fun n ↦ ?_, fun hs ↦ by rw [hfails, hs, List.tail_nil]⟩
  rw [Avail, Avail, hfree, ht, hfails, List.length_cons, Nat.add_le_add_iff_right]
  refine and_congr_right fun _ ↦ ⟨fun h i hi ↦ ?_, fun h i hi ↦ ?_⟩
  · rw [List.getElem?_tail]
    exact h (i + 1) (Nat.succ_lt_succ hi)
  · cases i with
    | zero => rwa [← List.head?_eq_getElem?]
    | succ i =>
      have hi' := h i (Nat.lt_of_succ_lt_succ hi)
      rwa [List.getElem?_tail] at hi'

/-- What a caller of `kalloc` knows: nothing has changed, and that exactly if a page is not
available, or it has got the first free page. -/
theorem kalloc_spec {Q : ℕ → Phys → Prop}
    (hnull : ∀ t : Phys, t.mem = s.mem → t.freelist = s.freelist → ¬Avail s 1 → Q 0 t)
    (hpage : ∀ r rs, ∀ t : Phys, s.freelist = r :: rs → t.freelist = rs →
      t.mem = update s.mem r (filled 5) → Takes s t 1 → Q r t) :
    wp kalloc Q s := by
  rw [kalloc, wp_bind, wp_get]
  split
  · rename_i hfails
    simp only [wp_bind, wp_set, wp_pure]
    refine hnull _ rfl rfl fun h ↦ h.2 0 Nat.one_pos ?_
    rw [← List.head?_eq_getElem?, hfails]
  · rename_i hfree _
    simp only [wp_bind, wp_set, wp_pure]
    refine hnull _ rfl rfl fun h ↦ ?_
    have hle := h.1
    rw [hfree] at hle
    exact absurd hle (by simp)
  · rename_i r rs hfree hfails
    simp only [wp_bind, wp_set, wp_memset, wp_pure]
    exact hpage r rs _ hfree rfl rfl (takes_one hfree hfails rfl rfl)

end

variable [Image]

/-- A page the allocator hands out: aligned, and in `[end, PHYSTOP)`. -/
def IsPage (pa : ℕ) : Prop := pa % pgsize = 0 ∧ kernelEnd ≤ pa ∧ pa < physTop

instance (pa : ℕ) : Decidable (IsPage pa) := inferInstanceAs (Decidable (_ ∧ _ ∧ _))

theorem IsPage.pos {pa : ℕ} (h : IsPage pa) : 0 < pa := by
  have hend : kernbase ≤ kernelEnd := Image.kernbase_le_kernelEnd
  have hle : kernelEnd ≤ pa := h.2.1
  rw [kernbase_eq] at hend
  omega

theorem IsPage.lt {pa : ℕ} (h : IsPage pa) : pa < 2 ^ 32 := by
  have hlt : pa < physTop := h.2.2
  rw [physTop_eq] at hlt
  omega

/-- `kfree`: the page is filled with junk and put in front of the free list. -/
def kfree (pa : ℕ) : KM Unit := do
  if pa % pgsize ≠ 0 ∨ pa < kernelEnd ∨ pa ≥ physTop then
    panic "kfree"
  else
    memset pa 1
    modify fun s ↦ { s with freelist := pa :: s.freelist }

@[simp]
theorem wp_kfree {pa : ℕ} {Q : Unit → Phys → Prop} {s : Phys} :
    wp (kfree pa) Q s ↔ IsPage pa ∧
      Q () { s with mem := update s.mem pa (filled 1), freelist := pa :: s.freelist } := by
  rw [kfree, wp_ite, wp_panic, wp_bind, wp_memset, wp_modify, IsPage]
  have hneg : ¬(pa % pgsize ≠ 0 ∨ pa < kernelEnd ∨ pa ≥ physTop) ↔
      pa % pgsize = 0 ∧ kernelEnd ≤ pa ∧ pa < physTop := by omega
  rw [hneg]
  tauto

/-! ### A small machine -/

/-- A kernel image of two pages. -/
@[reducible]
def smallImage : Image where
  kernelEnd := 0x80002000
  trampoline := 0x80001000
  kernbase_le_kernelEnd := by decide
  trampoline_aligned := by decide
  kernbase_le_trampoline := by decide
  trampoline_lt_kernelEnd := by decide

/-- A machine with ten free pages. -/
def tenFree : Phys where
  mem _ := filled 0
  freelist := (List.range 10).map fun k ↦ 0x80002000 + pgsize * k
  fails := []

omit [Image] in
theorem isPage_of_mem_tenFree : ∀ pg ∈ tenFree.freelist, @IsPage smallImage pg := by
  let _ : Image := smallImage
  decide

end Xv6

import Mathlib.Algebra.BigOperators.Group.List.Basic
import Mathlib.Algebra.Order.BigOperators.Group.List
import Mathlib.Algebra.Order.Ring.Nat
import Xv6.Library.CircularList
import Xv6.Umalloc.Model

/-!
# The list of free blocks

`Inv h G L top total` is the invariant of the allocator of `user/umalloc.c`. Starting at `base` the
circular list goes through the blocks `G`, of which the first one is `base` itself, with no units;
addresses ascend, and no block touches the next one. `L` are the blocks in use. The blocks are
apart, are below `top`, and have `total` units.

`Inv.free` says that `free` ends and gives a block in use back to the list, and `Inv.malloc` says
what `malloc` returns, for any `sbrk`.
-/

namespace Xv6.Umalloc

open Function List Option

/-- A block of memory: the address of its header, and its length in units. -/
structure Block where
  addr : ℕ
  size : ℕ
  deriving DecidableEq, Repr

namespace Block

/-- The address after the block. -/
def stop (b : Block) : ℕ := b.addr + headerSize * b.size

theorem stop_eq (b : Block) : b.stop = b.addr + 16 * b.size := rfl

theorem addr_le_stop (b : Block) : b.addr ≤ b.stop := Nat.le_add_right _ _

/-- Two blocks that do not overlap. -/
def Apart (a b : Block) : Prop := a.stop ≤ b.addr ∨ b.stop ≤ a.addr

theorem Apart.symm {a b : Block} (h : a.Apart b) : b.Apart a := Or.symm h

/-- The number of units of some blocks. -/
def units (l : List Block) : ℕ := (l.map size).sum

@[simp] theorem units_nil : units [] = 0 := rfl

@[simp] theorem units_cons (b : Block) (l : List Block) : units (b :: l) = b.size + units l := rfl

@[simp] theorem units_append (l₁ l₂ : List Block) : units (l₁ ++ l₂) = units l₁ + units l₂ := by
  rw [units, map_append, sum_append, units, units]

end Block

open Block

namespace Heap

/-! ### Assignments -/

section

variable (h : Heap) (p q : ℕ) (n : BitVec 32)

@[simp] theorem base_setPtr : (h.setPtr p q).base = h.base := rfl
@[simp] theorem base_setSize : (h.setSize p n).base = h.base := rfl
@[simp] theorem freep_setPtr : (h.setPtr p q).freep = h.freep := rfl
@[simp] theorem freep_setSize : (h.setSize p n).freep = h.freep := rfl

@[simp] theorem ptr_setPtr : (h.setPtr p q).ptr = update h.ptr p q := by
  funext a
  rcases eq_or_ne a p with rfl | hne
  · simp [ptr, setPtr]
  · simp [ptr, setPtr, hne]

@[simp] theorem size_setPtr : (h.setPtr p q).size = h.size := by
  funext a
  rcases eq_or_ne a p with rfl | hne
  · simp [size, setPtr]
  · simp [size, setPtr, hne]

@[simp] theorem ptr_setSize : (h.setSize p n).ptr = h.ptr := by
  funext a
  rcases eq_or_ne a p with rfl | hne
  · simp [ptr, setSize]
  · simp [ptr, setSize, hne]

@[simp] theorem size_setSize : (h.setSize p n).size = update h.size p n := by
  funext a
  rcases eq_or_ne a p with rfl | hne
  · simp [size, setSize]
  · simp [size, setSize, hne]

/-- What the block `bp` points to after it has been merged with the block after `p`, if they touch.
-/
def linkPtr (bp p : ℕ) : ℕ := if h.stop bp = h.ptr p then h.ptr (h.ptr p) else h.ptr p

/-- The size of the block `bp` then. -/
def linkSize (bp p : ℕ) : BitVec 32 :=
  if h.stop bp = h.ptr p then h.size bp + h.size (h.ptr p) else h.size bp

variable {h p} {bp : ℕ}

theorem link_eq (hne : p ≠ bp) :
    (h.link bp p).base = h.base ∧ (h.link bp p).freep = p ∧
    (h.link bp p).ptr = update (update h.ptr bp (h.linkPtr bp p)) p
      (if h.stop p = bp then h.linkPtr bp p else bp) ∧
    (h.link bp p).size = update (update h.size bp (h.linkSize bp p)) p
      (if h.stop p = bp then h.size p + h.linkSize bp p else h.size p) := by
  -- the heap after the first `if`
  obtain ⟨g, hg⟩ : ∃ g, g = if h.stop bp = h.ptr p then
      (h.setSize bp (h.size bp + h.size (h.ptr p))).setPtr bp (h.ptr (h.ptr p))
    else h.setPtr bp (h.ptr p) := ⟨_, rfl⟩
  have hbase : g.base = h.base := by
    rw [hg]
    split <;> rfl
  have hptr : g.ptr = update h.ptr bp (h.linkPtr bp p) := by
    rw [hg, linkPtr]
    split <;> simp
  have hsize : g.size = update h.size bp (h.linkSize bp p) := by
    rw [hg, linkSize]
    split <;> simp
  have hstop : g.stop p = h.stop p := by
    rw [stop, stop, hsize, update_of_ne hne]
  have hlink : h.link bp p = { (if h.stop p = bp then
      (g.setSize p (g.size p + g.size bp)).setPtr p (g.ptr bp) else g.setPtr p bp) with
        freep := p } := by
    rw [← hstop, hg, link]
    simp only [ptr_setSize]
  rw [hlink]
  split
  · refine ⟨hbase, rfl, ?_, ?_⟩
    · show (Heap.setPtr _ p _).ptr = _
      rw [ptr_setPtr, ptr_setSize, hptr, update_self]
    · show (Heap.setPtr _ p _).size = _
      rw [size_setPtr, size_setSize, hsize, update_self, update_of_ne hne]
  · refine ⟨hbase, rfl, ?_, ?_⟩
    · show (Heap.setPtr _ p _).ptr = _
      rw [ptr_setPtr, hptr]
    · show (Heap.setPtr _ p _).size = _
      rw [size_setPtr, hsize, eq_comm, update_eq_self_iff, update_of_ne hne]

end

/-- The invariant of the allocator, once `malloc` has made the list. -/
structure Inv (h : Heap) (G L : List Block) (top total : ℕ) : Prop where
  circular : Circular h.ptr (G.map addr)
  freep : h.freep ∈ G.map addr
  head : G.head? = some ⟨h.base, 0⟩
  base_pos : 0 < h.base
  free_size : ∀ b ∈ G, (h.size b.addr).toNat = b.size
  live_size : ∀ b ∈ L, (h.size b.addr).toNat = b.size
  sorted : G.Pairwise fun a b ↦ a.stop < b.addr
  live_apart : L.Pairwise Apart
  apart : ∀ a ∈ G, ∀ b ∈ L, a.Apart b
  free_inside : ∀ b ∈ G, b = ⟨h.base, 0⟩ ∨ h.base + 16 ≤ b.addr ∧ 0 < b.size ∧ b.stop ≤ top
  live_inside : ∀ b ∈ L, h.base + 16 ≤ b.addr ∧ 0 < b.size ∧ b.stop ≤ top
  total_eq : units G + units L = total
  bound : total < 2 ^ 32

namespace Inv

variable {h : Heap} {G L A B : List Block} {top total : ℕ} {a b c x y : Block}

/-- The order of the blocks in use does not matter. -/
theorem perm (hi : Inv h G L top total) {L' : List Block} (hperm : L.Perm L') :
    Inv h G L' top total :=
  { hi with
    live_size := fun b hb ↦ hi.live_size b (hperm.mem_iff.2 hb)
    live_apart := (hperm.pairwise_iff Apart.symm).1 hi.live_apart
    apart := fun a ha b hb ↦ hi.apart a ha b (hperm.mem_iff.2 hb)
    live_inside := fun b hb ↦ hi.live_inside b (hperm.mem_iff.2 hb)
    total_eq := by rw [← hi.total_eq, units, units, units, (hperm.map Block.size).sum_eq] }

/-- The program may write to the blocks in use, but not to their headers. -/
theorem write (hi : Inv h G L top total) (hb : b ∈ L) {p : ℕ} (hlt : b.addr < p)
    (hstop : p < b.stop)
    (v : Header) : Inv { h with mem := update h.mem p v } G L top total := by
  have hfree : ∀ g ∈ G, g.addr ≠ p := by
    intro g hg
    have hapart := hi.apart g hg b hb
    rw [Apart, stop_eq g] at hapart
    omega
  have hlive : ∀ l ∈ L, l.addr ≠ p := by
    intro l hl
    rcases eq_or_ne l b with rfl | hne
    · exact hlt.ne
    · have : Std.Symm Apart := ⟨fun _ _ ↦ Apart.symm⟩
      have hapart := hi.live_apart.forall hl hb hne
      rw [Apart, stop_eq l] at hapart
      omega
  exact
    { hi with
      circular := hi.circular.congr fun z hz ↦ by
        obtain ⟨g, hg, rfl⟩ := mem_map.1 hz
        show (update h.mem p v g.addr).ptr = _
        rw [update_of_ne (hfree g hg), ptr]
      free_size := fun g hg ↦ by
        show (update h.mem p v g.addr).size.toNat = _
        rw [update_of_ne (hfree g hg)]
        exact hi.free_size g hg
      live_size := fun l hl ↦ by
        show (update h.mem p v l.addr).size.toNat = _
        rw [update_of_ne (hlive l hl)]
        exact hi.live_size l hl }

/-! ### Where the pointers lead -/

/-- The blocks are in the order of their addresses. -/
theorem addr_lt (hi : Inv h (A ++ x :: B) L top total) : ∀ y ∈ B, x.addr < y.addr := by
  intro y hy
  exact (addr_le_stop x).trans_lt
    ((pairwise_cons.1 (pairwise_append.1 hi.sorted).2.1).1 y hy)

theorem addr_gt (hi : Inv h (A ++ x :: B) L top total) : ∀ y ∈ A, y.stop < x.addr := fun y hy ↦
  (pairwise_append.1 hi.sorted).2.2 y hy x mem_cons_self

/-- A block of the list points to the next one, and the last one to `base`. -/
theorem ptr_eq (hi : Inv h (A ++ x :: B) L top total) :
    h.ptr x.addr = (B.map addr).headD h.base := by
  have hpath := hi.circular
  rw [map_append, map_cons] at hpath
  have hnext := isChain_cons.1 hpath.path
  refine hnext.1 _ ?_
  cases B with
  | cons y B => rfl
  | nil =>
    have hhead := hi.head
    cases A with
    | nil => 
      obtain rfl := Option.some.inj hhead
      rfl
    | cons z A =>
      obtain rfl := Option.some.inj hhead
      rfl

/-- The first block has no units. -/
theorem head_of_pos (hi : Inv h (A ++ x :: B) L top total) (hpos : 0 < x.size) :
    A.head? = some ⟨h.base, 0⟩ := by
  have hhead := hi.head
  cases A with
  | nil =>
    rw [Option.some.inj hhead] at hpos
    exact absurd hpos (lt_irrefl 0)
  | cons a A => exact hhead

theorem base_le (hi : Inv h G L top total) (hx : x ∈ G) : h.base ≤ x.addr := by
  rcases hi.free_inside x hx with rfl | hx
  · exact le_rfl
  · omega

/-- A block in use begins where no block of the list does. -/
theorem live_addr_ne (hi : Inv h G (b :: L) top total) : ∀ x ∈ G, x.addr ≠ b.addr := by
  intro x hx heq
  obtain ⟨hbase, hpos, -⟩ := hi.live_inside b mem_cons_self
  have hapart := hi.apart x hx b mem_cons_self
  rw [Apart, stop_eq, stop_eq] at hapart
  rcases hi.free_inside x hx with rfl | hx
  · dsimp only at heq
    omega
  · omega

/-! ### The place of a block -/

/-- The loop of `free` ends at `p`. -/
def Exits (h : Heap) (bp p : ℕ) : Prop :=
  bp > p ∧ bp < h.ptr p ∨ p ≥ h.ptr p ∧ (bp > p ∨ bp < h.ptr p)

theorem findPlace_of_path {bp p q : ℕ} {T : List ℕ} {fuel : ℕ}
    (hpath : (p :: T).IsChain fun x y ↦ h.ptr x = y) (hq : q ∈ p :: T)
    (hexit : Exits h bp q) (hstay : ∀ z ∈ p :: T, z ≠ q → ¬Exits h bp z) (hfuel : T.length < fuel) :
    h.findPlace bp fuel p = some q := by
  induction fuel generalizing p T with
  | zero => exact absurd hfuel (Nat.not_lt_zero _)
  | succ fuel ih =>
    rw [findPlace]
    by_cases hp : Exits h bp p
    · obtain rfl : p = q := by_contra fun hne ↦ hstay p mem_cons_self hne hp
      rcases hp with hp | hp
      · rw [if_pos hp]
      · rw [if_pos hp, ite_self]
    · rw [Exits, not_or] at hp
      rw [if_neg hp.1, if_neg hp.2]
      cases T with
      | nil =>
        obtain rfl := mem_singleton.1 hq
        exact absurd hexit (not_or.2 hp)
      | cons y T =>
        obtain ⟨hy, hT⟩ := isChain_cons_cons.1 hpath
        have hne : q ≠ p := fun heq ↦ not_or.2 hp (heq ▸ hexit)
        rw [hy]
        exact ih hT ((mem_cons.1 hq).resolve_left hne)
          (fun z hz ↦ hstay z (mem_cons_of_mem p hz)) (Nat.lt_of_succ_lt_succ hfuel)

/-- The last block before an address. -/
theorem exists_place {g : Block} {F : List Block} {bp : ℕ} (hg : g.addr < bp)
    (hsorted : (g :: F).Pairwise fun a b ↦ a.addr < b.addr) (hne : ∀ f ∈ F, f.addr ≠ bp) :
    ∃ A x B, g :: F = A ++ x :: B ∧ x.addr < bp ∧ ∀ y ∈ B, bp < y.addr := by
  induction F generalizing g with
  | nil => exact ⟨[], g, [], rfl, hg, nofun⟩
  | cons f F ih =>
    obtain ⟨hf, hF⟩ := forall_mem_cons.1 hne
    obtain ⟨-, hsorted⟩ := pairwise_cons.1 hsorted
    rcases Nat.lt_or_gt_of_ne hf with hlt | hgt
    · obtain ⟨A, x, B, heq, hx⟩ := ih hlt hsorted hF
      exact ⟨g :: A, x, B, congrArg (g :: ·) heq, hx⟩
    · refine ⟨[], g, f :: F, rfl, hg, forall_mem_cons.2 ⟨hgt, fun y hy ↦ ?_⟩⟩
      exact hgt.trans ((pairwise_cons.1 hsorted).1 y hy)

/-- The loop of `free` goes on from any other block. -/
theorem stays (hi : Inv h (A ++ x :: B) (b :: L) top total) (hx : x.addr < b.addr)
    (hB : ∀ y ∈ B, b.addr < y.addr) (hy : y ∈ A ++ x :: B) (hne : y.addr ≠ x.addr) :
    ¬Exits h b.addr y.addr := by
  have hbase := (hi.live_inside b mem_cons_self).1
  rw [Exits]
  rcases mem_append.1 hy with hA | hB'
  · -- a block before `x` points to one that is not after `x`
    obtain ⟨C, D, rfl⟩ := append_of_mem hA
    rw [append_assoc, cons_append] at hi
    obtain ⟨w, hw, hptr⟩ : ∃ w ∈ D ++ [x], h.ptr y.addr = w.addr := by
      rw [hi.ptr_eq]
      cases D with
      | nil => exact ⟨x, mem_singleton_self x, rfl⟩
      | cons w D => exact ⟨w, mem_cons_self, rfl⟩
    have hyw : y.addr < w.addr := hi.addr_lt w (by simp at hw ⊢; tauto)
    have hwx : w.addr ≤ x.addr := by
      rcases mem_append.1 hw with hw | hw
      · rw [← cons_append, ← append_assoc] at hi
        exact (addr_le_stop w).trans (hi.addr_gt w (by simp [hw])).le
      · rw [mem_singleton.1 hw]
    omega
  · -- a block after the freed one points further up, or to `base`
    have hy' := (mem_cons.1 hB').resolve_left fun heq ↦ hne (congrArg addr heq)
    have hlt := hB y hy'
    obtain ⟨C, D, rfl⟩ := append_of_mem hy'
    rw [← cons_append, ← append_assoc] at hi
    rw [hi.ptr_eq]
    cases D with
    | nil =>
      show ¬(_ ∧ b.addr < h.base ∨ _ ∧ (_ ∨ b.addr < h.base))
      omega
    | cons w D =>
      have hw : y.addr < w.addr := hi.addr_lt w mem_cons_self
      show ¬(_ ∧ b.addr < w.addr ∨ y.addr ≥ w.addr ∧ _)
      omega

theorem exists_cons (hi : Inv h G L top total) : ∃ F, G = ⟨h.base, 0⟩ :: F := by
  have hhead := hi.head
  cases G with
  | nil => exact nomatch hhead
  | cons g F => exact ⟨F, by rw [Option.some.inj hhead]⟩

/-- Every block but `base` has a unit. -/
theorem length_le (hi : Inv h G L top total) : G.length ≤ total + 1 := by
  obtain ⟨F, rfl⟩ := hi.exists_cons
  have hone : ∀ n ∈ F.map Block.size, 1 ≤ n := by
    intro n hn
    obtain ⟨f, hf, rfl⟩ := mem_map.1 hn
    have hlt := (pairwise_cons.1 hi.sorted).1 f hf
    rcases hi.free_inside f (mem_cons_of_mem _ hf) with rfl | hf
    · exact absurd hlt (lt_irrefl _)
    · exact hf.2.1
  have hlen := length_le_sum_of_one_le _ hone
  have htotal := hi.total_eq
  rw [length_map] at hlen
  rw [units_cons, units] at htotal
  rw [length_cons]
  omega

/-- The loop of `free` finds the last block before the freed one, wherever it starts. -/
theorem findPlace_eq (hi : Inv h (A ++ x :: B) (b :: L) top total) (hx : x.addr < b.addr)
    (hB : ∀ y ∈ B, b.addr < y.addr) : h.findPlace b.addr hops h.freep = some x.addr := by
  obtain ⟨l₁, l₂, hl⟩ := append_of_mem hi.freep
  have hpath := hi.circular
  rw [hl] at hpath
  have hmem : ∀ z ∈ h.freep :: (l₂ ++ l₁ ++ [h.freep]), ∃ y ∈ A ++ x :: B, y.addr = z := by
    intro z hz
    refine mem_map.1 ?_
    rw [hl]
    simp only [mem_cons, mem_append, not_mem_nil, or_false] at hz ⊢
    tauto
  have hbase := (hi.live_inside b mem_cons_self).1
  refine findPlace_of_path hpath.path ?_ ?_ (fun z hz hne ↦ ?_) ?_
  · have hx' : x.addr ∈ (A ++ x :: B).map addr := mem_map_of_mem (by simp)
    rw [hl] at hx'
    simp only [mem_cons, mem_append] at hx' ⊢
    tauto
  · -- `x` points over the block, or to `base`
    rw [Exits, hi.ptr_eq]
    cases B with
    | nil =>
      have := hi.base_le (x := x) (by simp)
      exact .inr ⟨this, .inl hx⟩
    | cons y B => exact .inl ⟨hx, hB y mem_cons_self⟩
  · obtain ⟨y, hy, rfl⟩ := hmem z hz
    exact hi.stays hx hB hy hne
  · have hlen := congrArg List.length hl
    have hle := hi.length_le
    have hlt := hi.bound
    simp only [length_map, length_append, length_cons, length_nil] at hlen hle ⊢
    rw [hops]
    omega

/-! ### Giving a block back -/

theorem nodup (hi : Inv h G L top total) : (G.map addr).Nodup :=
  pairwise_map.2 (hi.sorted.imp fun {a _} hab ↦ ((addr_le_stop a).trans_lt hab).ne)

theorem stop_live (hi : Inv h G (b :: L) top total) : h.stop b.addr = b.stop := by
  rw [Heap.stop, hi.live_size b mem_cons_self, Block.stop]

theorem stop_free (hi : Inv h G L top total) (hx : x ∈ G) : h.stop x.addr = x.stop := by
  rw [Heap.stop, hi.free_size x hx, Block.stop]

theorem stop_le_of_lt (hi : Inv h G (b :: L) top total) (hxG : x ∈ G) (hx : x.addr < b.addr) :
    x.stop ≤ b.addr := by
  have hapart := hi.apart x hxG b mem_cons_self
  rw [Apart, stop_eq, stop_eq] at hapart
  rw [stop_eq]
  rcases hi.free_inside x hxG with rfl | hx <;> omega

theorem le_of_gt (hi : Inv h G (b :: L) top total) (hyG : y ∈ G) (hy : b.addr < y.addr) :
    b.stop ≤ y.addr := by
  have hapart := hi.apart y hyG b mem_cons_self
  have hpos := (hi.live_inside b mem_cons_self).2.1
  rw [Apart, stop_eq, stop_eq] at hapart
  rw [stop_eq]
  omega

/-- What the first half of `free` has made of the block `b` and of the blocks `B` after it: a block
`b'` that does not touch the blocks `B'` that are left. The list without the block that has gone is
what it is to become. -/
structure Absorbs (h : Heap) (A : List Block) (x : Block) (B L : List Block) (b : Block) (top : ℕ)
    (b' : Block) (B' : List Block) : Prop where
  addr : b'.addr = b.addr
  size_le : b.size ≤ b'.size
  size : (h.linkSize b.addr x.addr).toNat = b'.size
  circular : Circular (update h.ptr x.addr (h.linkPtr b.addr x.addr))
    ((A ++ x :: B').map Block.addr)
  rest : B'.Sublist B
  gap : ∀ y ∈ B', b'.stop < y.addr
  units : b'.size + units B' = b.size + units B
  below : b'.stop ≤ top
  apart : ∀ z ∈ L, b'.Apart z

/-- The first half of `free`: the block becomes one with the next block, if they touch. -/
theorem absorb (hi : Inv h (A ++ x :: B) (b :: L) top total) (hB : ∀ y ∈ B, b.addr < y.addr) :
    ∃ b' B', Absorbs h A x B L b top b' B' := by
  obtain ⟨hbase, hpos, htop⟩ := hi.live_inside b mem_cons_self
  have hapart := (pairwise_cons.1 hi.live_apart).1
  have hsize := hi.live_size b mem_cons_self
  have hptr := hi.ptr_eq
  by_cases heq : h.stop b.addr = h.ptr x.addr
  · -- the next block begins where the freed one ends
    rw [hi.stop_live] at heq
    cases B with
    | nil =>
      rw [hptr, map_nil, headD_nil, stop_eq] at heq
      omega
    | cons c B =>
      rw [map_cons, headD_cons] at hptr
      have hcG : c ∈ A ++ x :: c :: B := by simp
      have hcB : ∀ y ∈ B, c.stop < y.addr :=
        (pairwise_cons.1 (pairwise_cons.1 (pairwise_append.1 hi.sorted).2.1).2).1
      have hc := (hi.free_inside c hcG).resolve_left fun hc ↦ by
        have := hB c mem_cons_self
        rw [hc] at this
        dsimp only at this
        omega
      have hstop : c.stop = b.addr + 16 * (b.size + c.size) := by
        rw [stop_eq, ← hptr, ← heq, stop_eq]
        omega
      refine ⟨⟨b.addr, b.size + c.size⟩, B, rfl, Nat.le_add_right _ _, ?_, ?_,
        sublist_cons_self c B, fun y hy ↦ ?_, ?_, ?_, fun z hz ↦ ?_⟩
      · have htotal := hi.total_eq
        have hbound := hi.bound
        simp only [units_append, units_cons] at htotal
        rw [linkSize, if_pos (hi.stop_live.trans heq), hptr, BitVec.toNat_add, hsize,
          hi.free_size c hcG, Nat.mod_eq_of_lt (by omega)]
      · rw [linkPtr, if_pos (hi.stop_live.trans heq), hptr]
        have hcirc := hi.circular
        have hnodup := hi.nodup
        rw [map_append, map_cons, map_cons] at hcirc hnodup
        rw [map_append, map_cons]
        exact hcirc.removeAfter hnodup
      · rw [stop_eq, ← hstop]
        exact hcB y hy
      · rw [units_cons, add_assoc]
      · rw [stop_eq, ← hstop]
        exact hc.2.2
      · have hzb := hapart z hz
        have hzc := hi.apart c hcG z (mem_cons_of_mem b hz)
        have hz0 := (hi.live_inside z (mem_cons_of_mem b hz)).2.1
        simp only [Apart, stop_eq] at hzb hzc heq ⊢
        omega
  · refine ⟨b, B, rfl, le_rfl, ?_, ?_, List.Sublist.refl B, fun y hy ↦ ?_, rfl, htop, hapart⟩
    · rw [linkSize, if_neg heq, hsize]
    · rw [linkPtr, if_neg heq, update_eq_self]
      exact hi.circular
    · have hyG : y ∈ A ++ x :: B := mem_append_right A (mem_cons_of_mem x hy)
      refine lt_of_le_of_ne (hi.le_of_gt hyG (hB y hy)) fun hy' ↦ heq ?_
      -- no block stands between the freed one and `y`
      cases B with
      | nil => exact nomatch hy
      | cons c B =>
        rw [hi.stop_live, hptr, hy', map_cons, headD_cons]
        rcases mem_cons.1 hy with rfl | hy
        · rfl
        · have hle := hi.le_of_gt (y := c) (by simp) (hB c mem_cons_self)
          have hlt := (pairwise_cons.1
            (pairwise_cons.1 (pairwise_append.1 hi.sorted).2.1).2).1 y hy
          have hc := addr_le_stop c
          omega

theorem addr_ne (hi : Inv h (A ++ x :: B) L top total) : ∀ y ∈ A ++ B, y.addr ≠ x.addr := by
  intro y hy
  rcases mem_append.1 hy with hy | hy
  · exact ((addr_le_stop y).trans_lt (hi.addr_gt y hy)).ne
  · exact (hi.addr_lt y hy).ne'

/-- The block `x`, the freed block `b` and the blocks `B` become the blocks `M` and `B'`. -/
theorem of_middle (hi : Inv h (A ++ x :: B) (b :: L) top total) {h' : Heap} {M B' : List Block}
    (hrest : B'.Sublist B) (hbase : h'.base = h.base) (hfreep : h'.freep = x.addr)
    (hcircular : Circular h'.ptr ((A ++ (M ++ B')).map addr)) (hmem : x.addr ∈ M.map addr)
    (hhead : (A ++ M).head? = some ⟨h.base, 0⟩) (hsize : ∀ m ∈ M, (h'.size m.addr).toNat = m.size)
    (hkeep : ∀ a, a ≠ x.addr → a ≠ b.addr → h'.size a = h.size a)
    (hsorted : M.Pairwise fun a b ↦ a.stop < b.addr) (hbefore : ∀ y ∈ A, ∀ m ∈ M, y.stop < m.addr)
    (hafter : ∀ m ∈ M, ∀ y ∈ B', m.stop < y.addr) (hapart : ∀ m ∈ M, ∀ z ∈ L, m.Apart z)
    (hinside : ∀ m ∈ M, m = ⟨h.base, 0⟩ ∨ h.base + 16 ≤ m.addr ∧ 0 < m.size ∧ m.stop ≤ top)
    (hunits : units M + units B' = x.size + (b.size + units B)) :
    Inv h' (A ++ (M ++ B')) L top total := by
  have hold : ∀ y ∈ A ++ B', y ∈ A ++ x :: B := fun y hy ↦
    ((hrest.trans (sublist_cons_self x B)).append_left A).subset hy
  have hne : ∀ y ∈ A ++ B', y.addr ≠ x.addr := fun y hy ↦
    hi.addr_ne y ((hrest.append_left A).subset hy)
  have hlive_ne : ∀ z ∈ L, z.addr ≠ x.addr ∧ z.addr ≠ b.addr := by
    intro z hz
    have hzb := (pairwise_cons.1 hi.live_apart).1 z hz
    have hzx := hi.apart x (by simp) z (mem_cons_of_mem b hz)
    have hz' := hi.live_inside z (mem_cons_of_mem b hz)
    have hb' := hi.live_inside b mem_cons_self
    rw [Apart, stop_eq, stop_eq] at hzb hzx
    refine ⟨?_, by omega⟩
    rcases hi.free_inside x (by simp) with hx | hx
    · rw [hx]
      dsimp only
      omega
    · omega
  have hparts : ∀ {Q : Block → Prop}, (∀ y ∈ A ++ B', Q y) → (∀ m ∈ M, Q m) →
      ∀ y ∈ A ++ (M ++ B'), Q y := by
    intro Q hAB hM y hy
    rw [mem_append, mem_append] at hy
    rcases hy with hy | hy | hy
    · exact hAB y (mem_append_left _ hy)
    · exact hM y hy
    · exact hAB y (mem_append_right _ hy)
  obtain ⟨hA, hxB, hcross⟩ := pairwise_append.1 hi.sorted
  exact
    { circular := hcircular
      freep := by
        rw [hfreep, map_append, map_append]
        exact mem_append_right _ (mem_append_left _ hmem)
      head := by rw [← append_assoc, List.head?_append, hhead, hbase, some_or]
      base_pos := hbase ▸ hi.base_pos
      free_size := hparts (fun y hy ↦ by
        rw [hkeep _ (hne y hy) (hi.live_addr_ne y (hold y hy)), hi.free_size y (hold y hy)]) hsize
      live_size := fun z hz ↦ by
        rw [hkeep _ (hlive_ne z hz).1 (hlive_ne z hz).2, hi.live_size z (mem_cons_of_mem b hz)]
      sorted := by
        refine pairwise_append.2 ⟨hA, pairwise_append.2 ⟨hsorted, ?_, hafter⟩, ?_⟩
        · exact (pairwise_cons.1 hxB).2.sublist hrest
        · intro y hy m hm
          rcases mem_append.1 hm with hm | hm
          · exact hbefore y hy m hm
          · exact hcross y hy m (mem_cons_of_mem x (hrest.subset hm))
      live_apart := (pairwise_cons.1 hi.live_apart).2
      apart := hparts (fun y hy z hz ↦ hi.apart y (hold y hy) z (mem_cons_of_mem b hz)) hapart
      free_inside := by
        rw [hbase]
        exact hparts (fun y hy ↦ hi.free_inside y (hold y hy)) hinside
      live_inside := fun z hz ↦ hbase ▸ hi.live_inside z (mem_cons_of_mem b hz)
      total_eq := by
        have htotal := hi.total_eq
        simp only [units_append, units_cons] at htotal ⊢
        omega
      bound := hi.bound }

/-- The list `G'` is `G` with the block `b` given back: of its blocks one is new, and has `b` in it.
-/
def GivenBack (G G' : List Block) (b : Block) : Prop :=
  ∃ g ∈ G', (g.addr ≤ b.addr ∧ b.stop ≤ g.stop) ∧ ∀ g' ∈ G', g' = g ∨ g' ∈ G

/-- **`free`, once it has found the place**, gives the block back to the list. -/
theorem link (hi : Inv h (A ++ x :: B) (b :: L) top total) (hx : x.addr < b.addr)
    (hB : ∀ y ∈ B, b.addr < y.addr) :
    ∃ G, Inv (h.link b.addr x.addr) G L top total ∧ GivenBack (A ++ x :: B) G b := by
  obtain ⟨b', B', ha⟩ := hi.absorb hB
  have hxG : x ∈ A ++ x :: B := by simp
  have hne : x.addr ≠ b.addr := hx.ne
  obtain ⟨hbase, hfreep, hptr, hsize⟩ := link_eq (h := h) hne
  have hkeep : ∀ a, a ≠ x.addr → a ≠ b.addr → (h.link b.addr x.addr).size a = h.size a := by
    intro a hax hab
    rw [hsize, update_of_ne hax, update_of_ne hab]
  have hle := hi.stop_le_of_lt hxG hx
  have hb := hi.live_inside b mem_cons_self
  have htotal := hi.total_eq
  have hbound := hi.bound
  have hunits := ha.units
  simp only [units_append, units_cons] at htotal
  by_cases hm : h.stop x.addr = b.addr
  · -- `x` ends where the freed block begins
    rw [if_pos hm] at hptr hsize
    rw [hi.stop_free hxG, stop_eq] at hm
    have hxin := (hi.free_inside x hxG).resolve_left fun heq ↦ by
      rw [heq] at hm
      dsimp only at hm
      omega
    refine ⟨A ++ ([⟨x.addr, x.size + b'.size⟩] ++ B'), hi.of_middle ha.rest hbase hfreep ?_ ?_ ?_ ?_
      hkeep (pairwise_singleton _ _) ?_ ?_ ?_ ?_ ?_, ⟨x.addr, x.size + b'.size⟩, by simp, ?_,
      fun y hy ↦ ?_⟩
    · have hmap : (A ++ ([(⟨x.addr, x.size + b'.size⟩ : Block)] ++ B')).map addr =
          (A ++ x :: B').map addr := by simp
      rw [hptr, hmap]
      refine ha.circular.congr fun z hz ↦ ?_
      obtain ⟨y, hy, rfl⟩ := mem_map.1 hz
      have hyG := ((ha.rest.cons_cons x).append_left A).subset hy
      rcases eq_or_ne y.addr x.addr with heq | hyx
      · rw [heq, update_self, update_self]
      · rw [update_of_ne hyx, update_of_ne hyx,
          update_of_ne (hi.live_addr_ne y hyG)]
    · exact mem_singleton_self _
    · rw [List.head?_append, hi.head_of_pos hxin.2.1, some_or]
    · refine forall_mem_singleton.2 ?_
      rw [hsize, update_self, BitVec.toNat_add, ha.size, hi.free_size x hxG,
        Nat.mod_eq_of_lt (by omega)]
    · exact fun y hy ↦ forall_mem_singleton.2 (hi.addr_gt y hy)
    · refine forall_mem_singleton.2 fun y hy ↦ ?_
      have hgap := ha.gap y hy
      simp only [stop_eq, ha.addr] at hgap ⊢
      omega
    · refine forall_mem_singleton.2 fun z hz ↦ ?_
      have hxz := hi.apart x hxG z (mem_cons_of_mem b hz)
      have hbz := ha.apart z hz
      have hz0 := (hi.live_inside z (mem_cons_of_mem b hz)).2.1
      simp only [Apart, stop_eq, ha.addr] at hxz hbz ⊢
      omega
    · refine forall_mem_singleton.2 (.inr ?_)
      have hbelow := ha.below
      simp only [stop_eq, ha.addr] at hbelow ⊢
      omega
    · simp only [units_cons, units_nil]
      omega
    · have hle := ha.size_le
      simp only [stop_eq]
      omega
    · rw [mem_append, mem_append, mem_singleton] at hy
      rcases hy with hy | hy | hy
      · exact .inr (mem_append_left _ hy)
      · exact .inl hy
      · exact .inr (mem_append_right _ (mem_cons_of_mem _ (ha.rest.subset hy)))
  · rw [if_neg hm] at hptr hsize
    rw [hi.stop_free hxG] at hm
    have hgap : x.stop < b.addr := lt_of_le_of_ne hle hm
    refine ⟨A ++ ([x, b'] ++ B'), hi.of_middle ha.rest hbase hfreep ?_ ?_ ?_ ?_
      hkeep ?_ ?_ ?_ ?_ ?_ ?_, b', by simp, ⟨ha.addr.le, ?_⟩, fun y hy ↦ ?_⟩
    · rw [hptr]
      have hnodup : ((A ++ x :: B').map addr).Nodup :=
        hi.nodup.sublist (((ha.rest.cons_cons x).append_left A).map addr)
      have hfresh : b.addr ∉ (A ++ x :: B').map addr := by
        intro hmem
        obtain ⟨y, hy, heq⟩ := mem_map.1 hmem
        exact hi.live_addr_ne y (((ha.rest.cons_cons x).append_left A).subset hy) heq
      have hcirc := ha.circular
      simp only [map_append, map_cons, cons_append, nil_append]
        at hcirc hnodup hfresh ⊢
      rw [ha.addr]
      refine (hcirc.insertAfter hnodup hfresh).congr fun z hz ↦ ?_
      rcases eq_or_ne z x.addr with rfl | hzx
      · rw [update_self, update_self]
      rw [update_of_ne hzx, update_of_ne hzx]
      rcases eq_or_ne z b.addr with rfl | hzb
      · rw [update_self, update_self, update_self]
      rw [update_of_ne hzb, update_of_ne hzb, update_of_ne hzx]
    · exact mem_map_of_mem mem_cons_self
    · have hhead := hi.head
      rwa [List.head?_append] at hhead ⊢
    · refine forall_mem_cons.2 ⟨?_, forall_mem_singleton.2 ?_⟩
      · rw [hsize, update_self, hi.free_size x hxG]
      · rw [hsize, ha.addr, update_of_ne hne.symm, update_self, ha.size]
    · rw [pairwise_pair, ha.addr]
      exact hgap
    · intro y hy
      have hyx := hi.addr_gt y hy
      refine forall_mem_cons.2 ⟨hyx, forall_mem_singleton.2 ?_⟩
      rw [ha.addr]
      exact hyx.trans hx
    · refine forall_mem_cons.2 ⟨fun y hy ↦ ?_, forall_mem_singleton.2 ha.gap⟩
      exact (pairwise_cons.1 (pairwise_append.1 hi.sorted).2.1).1 y (ha.rest.subset hy)
    · exact forall_mem_cons.2 ⟨fun z hz ↦ hi.apart x hxG z (mem_cons_of_mem b hz),
        forall_mem_singleton.2 ha.apart⟩
    · refine forall_mem_cons.2 ⟨hi.free_inside x hxG, forall_mem_singleton.2 (.inr ?_)⟩
      have hle := ha.size_le
      exact ⟨ha.addr ▸ hb.1, by omega, ha.below⟩
    · simp only [units_cons, units_nil]
      omega
    · have hle := ha.size_le
      rw [stop_eq, stop_eq, ha.addr]
      omega
    · rw [mem_append, mem_append, mem_pair] at hy
      rcases hy with hy | (rfl | rfl) | hy
      · exact .inr (mem_append_left _ hy)
      · exact .inr hxG
      · exact .inl rfl
      · exact .inr (mem_append_right _ (mem_cons_of_mem _ (ha.rest.subset hy)))

/-- **`free` ends, and gives a block in use back.** -/
theorem free (hi : Inv h G (b :: L) top total) :
    ∃ h' G', h.free (b.addr + headerSize) = some h' ∧ Inv h' G' L top total ∧
      GivenBack G G' b := by
  obtain ⟨F, rfl⟩ := hi.exists_cons
  have hbase := (hi.live_inside b mem_cons_self).1
  have hsorted : (⟨h.base, 0⟩ :: F).Pairwise fun a b : Block ↦ a.addr < b.addr :=
    hi.sorted.imp fun {a _} hab ↦ (addr_le_stop a).trans_lt hab
  have hfirst : h.base < b.addr := by omega
  obtain ⟨A, x, B, heq, hx, hB⟩ := exists_place hfirst hsorted fun f hf ↦
    hi.live_addr_ne f (mem_cons_of_mem _ hf)
  rw [heq] at hi ⊢
  obtain ⟨G', hG', hback⟩ := hi.link hx hB
  refine ⟨_, G', ?_, hG', hback⟩
  rw [Heap.free, Nat.add_sub_cancel, hi.findPlace_eq hx hB, map_some]

/-! ### Taking a block -/

/-- The other blocks of the list do not even touch a block. -/
theorem lt_or_lt (hi : Inv h (A ++ x :: B) L top total) :
    ∀ y ∈ A ++ B, y.stop < x.addr ∨ x.stop < y.addr := fun y hy ↦
  (mem_append.1 hy).imp (hi.addr_gt y)
    ((pairwise_cons.1 (pairwise_append.1 hi.sorted).2.1).1 y)

/-- A block of the right size is taken out of the list. -/
theorem take (hi : Inv h (A ++ y :: c :: B) L top total) (hpos : 0 < c.size) :
    Inv { h.setPtr y.addr (h.ptr c.addr) with freep := y.addr } (A ++ y :: B) (c :: L) top
      total := by
  have hcG : c ∈ A ++ y :: c :: B := by simp
  have hsub : (A ++ y :: B).Sublist (A ++ y :: c :: B) :=
    ((sublist_cons_self c B).cons_cons y).append_left A
  have hc := (hi.free_inside c hcG).resolve_left fun heq ↦ by
    rw [heq] at hpos
    exact lt_irrefl 0 hpos
  have hsize : Heap.size { h.setPtr y.addr (h.ptr c.addr) with freep := y.addr } = h.size :=
    size_setPtr ..
  exact
    { circular := by
        have hcirc := hi.circular
        have hnodup := hi.nodup
        rw [map_append, map_cons, map_cons] at hcirc hnodup
        show Circular (h.setPtr y.addr (h.ptr c.addr)).ptr _
        rw [ptr_setPtr, map_append, map_cons]
        exact hcirc.removeAfter hnodup
      freep := mem_map_of_mem (by simp)
      head := by
        have hhead := hi.head
        rwa [List.head?_append] at hhead ⊢
      base_pos := hi.base_pos
      free_size := fun b hb ↦ hsize ▸ hi.free_size b (hsub.subset hb)
      live_size := forall_mem_cons.2 ⟨hsize ▸ hi.free_size c hcG, hsize ▸ hi.live_size⟩
      sorted := hi.sorted.sublist hsub
      live_apart := pairwise_cons.2 ⟨hi.apart c hcG, hi.live_apart⟩
      apart := fun a ha ↦ forall_mem_cons.2 ⟨by
        have hi' := hi
        rw [← singleton_append, ← append_assoc] at hi'
        exact (hi'.lt_or_lt a (by simpa using ha)).imp le_of_lt le_of_lt,
        hi.apart a (hsub.subset ha)⟩
      free_inside := fun b hb ↦ hi.free_inside b (hsub.subset hb)
      live_inside := forall_mem_cons.2 ⟨hc, hi.live_inside⟩
      total_eq := by
        have htotal := hi.total_eq
        simp only [units_append, units_cons] at htotal ⊢
        omega
      bound := hi.bound }

/-- The size and the end of a block without its last `n` units. -/
theorem shorten (hi : Inv h G L top total) (hx : x ∈ G) {n : BitVec 32} (hlt : n.toNat < x.size) :
    (h.size x.addr - n).toNat = x.size - n.toNat ∧
      (h.setSize x.addr (h.size x.addr - n)).stop x.addr =
        x.addr + 16 * (x.size - n.toNat) := by
  have hdiff : (h.size x.addr - n).toNat = x.size - n.toNat := by
    rw [BitVec.toNat_sub_of_le (BitVec.le_def.2 (hi.free_size x hx ▸ hlt.le)), hi.free_size x hx]
  exact ⟨hdiff, by rw [Heap.stop, size_setSize, update_self, hdiff]⟩

/-- The last `n` units of a block are cut off. -/
theorem cut (hi : Inv h (A ++ x :: B) L top total) {n : BitVec 32} (hn : 0 < n.toNat)
    (hlt : n.toNat < x.size) {p : ℕ} (hp : p ∈ (A ++ x :: B).map addr) :
    let g := h.setSize x.addr (h.size x.addr - n)
    Inv { g.setSize (g.stop x.addr) n with freep := p } (A ++ ⟨x.addr, x.size - n.toNat⟩ :: B)
      (⟨g.stop x.addr, n.toNat⟩ :: L) top total := by
  intro g
  have hxG : x ∈ A ++ x :: B := by simp
  obtain ⟨hdiff, hstop⟩ := hi.shorten hxG hlt
  have hx := (hi.free_inside x hxG).resolve_left fun heq ↦ by
    rw [heq] at hlt
    exact absurd hlt (Nat.not_lt_zero _)
  have hxstop := stop_eq x
  have hcut : Block.stop ⟨x.addr + 16 * (x.size - n.toNat), n.toNat⟩ = x.stop := by
    rw [stop_eq, stop_eq]
    dsimp only
    omega
  rw [hstop]
  -- every other block begins before `x` or after it
  have hfree : ∀ y ∈ A ++ B, y.addr < x.addr ∨ x.stop ≤ y.addr := fun y hy ↦ by
    have hy' := hi.lt_or_lt y hy
    rw [stop_eq y] at hy'
    omega
  have hlive : ∀ y ∈ L, y.addr < x.addr ∨ x.stop ≤ y.addr := fun y hy ↦ by
    have hy' := hi.apart x hxG y hy
    have hpos := (hi.live_inside y hy).2.1
    rw [Apart, stop_eq y] at hy'
    omega
  have hsize : Heap.size { g.setSize (x.addr + 16 * (x.size - n.toNat)) n with freep := p } =
      update (update h.size x.addr (h.size x.addr - n))
        (x.addr + 16 * (x.size - n.toNat)) n := by
    show (g.setSize _ n).size = _
    rw [size_setSize, size_setSize]
  have hkeep : ∀ y : Block, y.addr < x.addr ∨ x.stop ≤ y.addr →
      Heap.size { g.setSize (x.addr + 16 * (x.size - n.toNat)) n with freep := p } y.addr =
        h.size y.addr := fun y hy ↦ by
    rw [hsize, update_of_ne (by omega), update_of_ne (by omega)]
  have hparts : ∀ {Q : Block → Prop}, Q ⟨x.addr, x.size - n.toNat⟩ → (∀ y ∈ A ++ B, Q y) →
      ∀ y ∈ A ++ ⟨x.addr, x.size - n.toNat⟩ :: B, Q y := by
    intro Q hx hAB y hy
    rw [mem_append, mem_cons] at hy
    rcases hy with hy | rfl | hy
    · exact hAB y (mem_append_left B hy)
    · exact hx
    · exact hAB y (mem_append_right A hy)
  have hold : ∀ y ∈ A ++ B, y ∈ A ++ x :: B := fun y hy ↦
    ((sublist_cons_self x B).append_left A).subset hy
  have hmap : (A ++ (⟨x.addr, x.size - n.toNat⟩ : Block) :: B).map addr =
      (A ++ x :: B).map addr := by
    simp
  obtain ⟨hA, hxB, hcross⟩ := pairwise_append.1 hi.sorted
  obtain ⟨hxB, hB⟩ := pairwise_cons.1 hxB
  exact
    { circular := by
        show Circular (g.setSize _ n).ptr _
        rw [ptr_setSize, ptr_setSize, hmap]
        exact hi.circular
      freep := hmap ▸ hp
      head := by
        rw [List.head?_append, hi.head_of_pos hx.2.1, some_or]
        rfl
      base_pos := hi.base_pos
      free_size := by
        refine hparts ?_ fun y hy ↦ ?_
        · rw [hsize]
          dsimp only
          rw [update_of_ne (by omega), update_self, hdiff]
        · rw [hkeep y (hfree y hy)]
          exact hi.free_size y (hold y hy)
      live_size := by
        refine forall_mem_cons.2 ⟨?_, fun y hy ↦ ?_⟩
        · rw [hsize, update_self]
        · rw [hkeep y (hlive y hy)]
          exact hi.live_size y hy
      sorted := by
        refine pairwise_append.2 ⟨hA, pairwise_cons.2 ⟨fun y hy ↦ ?_, hB⟩, fun y hy ↦
          forall_mem_cons.2 ⟨hi.addr_gt y hy, fun z hz ↦
            hcross y hy z (mem_cons_of_mem x hz)⟩⟩
        have hy' := hxB y hy
        simp only [stop_eq] at hy' ⊢
        omega
      live_apart := by
        refine pairwise_cons.2 ⟨fun y hy ↦ ?_, hi.live_apart⟩
        have hy' := hi.apart x hxG y hy
        simp only [Apart, stop_eq] at hy' ⊢
        omega
      apart := by
        refine hparts (forall_mem_cons.2 ⟨.inl le_rfl, fun y hy ↦ ?_⟩) fun y hy ↦
          forall_mem_cons.2 ⟨?_, hi.apart y (hold y hy)⟩
        · have hy' := hi.apart x hxG y hy
          simp only [Apart, stop_eq] at hy' ⊢
          omega
        · have hy' := hi.lt_or_lt y hy
          simp only [Apart, stop_eq] at hy' ⊢
          omega
      free_inside := by
        refine hparts (.inr ?_) fun y hy ↦ hi.free_inside y (hold y hy)
        simp only [stop_eq]
        exact ⟨hx.1, by omega, by omega⟩
      live_inside := by
        refine forall_mem_cons.2 ⟨?_, hi.live_inside⟩
        rw [hcut]
        exact ⟨hx.1.trans (Nat.le_add_right _ _), hn, hx.2.2⟩
      total_eq := by
        have htotal := hi.total_eq
        simp only [units_append, units_cons] at htotal ⊢
        omega
      bound := hi.bound }

/-- A block that is large enough is taken out of the list, or its tail is cut off. -/
theorem allot (hi : Inv h G L top total) {n : BitVec 32} (hn : 0 < n.toNat) {p q : ℕ}
    (hp : p ∈ G.map addr) (hq : h.ptr p = q) (hle : n ≤ h.size q) :
    ∃ c ∈ G, n.toNat ≤ c.size ∧ ∃ a G', a + 16 * n.toNat = c.stop ∧
      (h.allot n p q).1 = a + headerSize ∧
      Inv (h.allot n p q).2 G' (⟨a, n.toNat⟩ :: L) top total := by
  obtain ⟨y, hy, rfl⟩ := mem_map.1 hp
  obtain ⟨A, B, rfl⟩ := append_of_mem hy
  have hpos : 0 < (h.size q).toNat := hn.trans_le (BitVec.le_def.1 hle)
  cases B with
  | nil =>
    obtain ⟨F, hF⟩ := hi.exists_cons
    have hzero := hi.free_size ⟨h.base, 0⟩ (by rw [hF]; exact mem_cons_self)
    rw [hi.ptr_eq] at hq
    dsimp only at hzero
    rw [← hq, map_nil, headD_nil, hzero] at hpos
    exact absurd hpos (lt_irrefl 0)
  | cons c B =>
    have hcG : c ∈ A ++ y :: c :: B := by simp
    obtain rfl : q = c.addr := hq.symm.trans hi.ptr_eq
    have hsize := hi.free_size c hcG
    rw [hsize] at hpos
    have hcle : n.toNat ≤ c.size := hsize ▸ BitVec.le_def.1 hle
    refine ⟨c, hcG, hcle, ?_⟩
    by_cases heq : h.size c.addr = n
    · have hc : c = ⟨c.addr, n.toNat⟩ := by rw [← heq, hsize]
      rw [Heap.allot, if_pos heq]
      exact ⟨c.addr, A ++ y :: B, by rw [stop_eq, ← heq, hsize], rfl, hc ▸ hi.take hpos⟩
    · rw [Heap.allot, if_neg heq]
      have hlt : n.toNat < c.size := lt_of_le_of_ne hcle fun h ↦
        heq (BitVec.eq_of_toNat_eq (hsize.trans h.symm))
      have hstop := (hi.shorten hcG hlt).2
      rw [← singleton_append, ← append_assoc] at hi hp
      refine ⟨_, _, ?_, rfl, hi.cut hn hlt hp⟩
      rw [hstop, stop_eq]
      omega

end Inv

end Heap

end Xv6.Umalloc

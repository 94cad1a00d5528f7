import Xv6.Umalloc.Malloc
import Xv6.Vm.Phys

/-!
# `malloc` and the break of the process

`malloc` with the `sbrk` that user programs have: `sbrk` of `user/ulib.c` calls `sys_sbrk` for
memory that is mapped at once, and `growproc` of `kernel/proc.c` changes the size of the process.
The page table is left out: `avail` says whether `uvmalloc` finds the memory it needs, and
`uvmdealloc` is the size it returns.

`sbrk` takes an `int`. If the number of bytes that `morecore` wants does not fit into one, the
process gets less memory than the header of the new block says, or even shrinks (`malloc_unsafe`).
`malloc_safe` says when a call is safe: exactly if there is a free block that is large enough, so
that `morecore` is not called; or the number of bytes fits; or `sbrk` fails, and `malloc` with it.
In the one case that is left the block begins where the process ended, and the process has grown by
16 bytes at most (`sbrk_some`, `morecoreBytes_toInt_le`).
-/

namespace Xv6.Umalloc

open Block

/-- The new size that `uvmdealloc(pagetable, oldsz, newsz)` returns. -/
def uvmdealloc (oldsz newsz : ℕ) : ℕ := if newsz ≥ oldsz then oldsz else newsz

/-- `growproc(n)`: the new size of a process of `sz` bytes, `none` for `-1`. -/
def growproc (avail : ℕ → ℕ → Bool) (n : BitVec 32) (sz : ℕ) : Option ℕ :=
  if n.toInt > 0 then
    if sz + n.toNat > trapframeVa then none
    else if avail sz (sz + n.toNat) then some (sz + n.toNat) else none
  else if n.toInt < 0 then
    -- the sum is a `uint64`
    some (uvmdealloc sz ((sz + n.toInt) % 2 ^ 64).toNat)
  else some sz

/-- `sbrk(n)`: `sys_sbrk(n, SBRK_EAGER)` returns where the process ended before. -/
def sbrk (avail : ℕ → ℕ → Bool) (n : BitVec 32) (sz : ℕ) : Option ℕ × ℕ :=
  match growproc avail n sz with
  | none => (none, sz)
  | some sz' => (some sz, sz')

/-- A heap below the break `sz` of the process, with the list of free blocks `G`, the blocks `L` in
use and `total` units in all. -/
structure Sane (h : Heap) (G L : List Block) (sz total : ℕ) : Prop where
  base : h.base + headerSize ≤ sz
  inv : ∃ top, h.start.Inv G L top total ∧ top ≤ sz

theorem sane_start {base sz : ℕ} (hbase : 0 < base) (hsz : base + headerSize ≤ sz)
    (mem : ℕ → Header) : Sane ⟨base, 0, mem⟩ [⟨base, 0⟩] [] sz 0 :=
  ⟨hsz, base + headerSize, Heap.inv_start hbase mem, hsz⟩

variable {avail : ℕ → ℕ → Bool} {n : BitVec 32} {sz sz' a : ℕ}

/-- Where the memory begins that `sbrk` returns, and the size of the process then. -/
theorem sbrk_some (hs : sbrk avail n sz = (some a, sz')) :
    a = sz ∧ (0 < n.toInt → (sz' : ℤ) = sz + n.toInt) ∧ (n.toInt ≤ 0 → sz' ≤ sz) := by
  rw [sbrk] at hs
  split at hs
  case h_1 => cases (Prod.mk.inj hs).1
  case h_2 sz'' hgrow =>
    obtain ⟨ha, rfl⟩ := Prod.mk.inj hs
    refine ⟨(Option.some.inj ha).symm, fun hpos ↦ ?_, fun hle ↦ ?_⟩
    · have hlt := n.isLt
      rw [growproc, if_pos hpos] at hgrow
      split_ifs at hgrow
      obtain rfl := Option.some.inj hgrow
      rw [BitVec.toInt_eq_toNat_cond] at hpos ⊢
      split_ifs at hpos ⊢ <;> omega
    · rw [growproc, if_neg (not_lt.2 hle)] at hgrow
      split_ifs at hgrow
      · obtain rfl := Option.some.inj hgrow
        rw [uvmdealloc]
        split_ifs <;> omega
      · exact (Option.some.inj hgrow).ge

/-- A failure changes nothing. -/
theorem sbrk_of_none (hs : sbrk avail n sz = (none, sz')) : sz' = sz := by
  rw [sbrk] at hs
  split at hs
  · exact (Prod.mk.inj hs).2.symm
  · cases (Prod.mk.inj hs).1

/-- A number of bytes that does not fit into an `int` becomes one that is negative, 0 or 16. -/
theorem morecoreBytes_toInt_le (nbytes : BitVec 32)
    (hint : ¬headerSize * (Heap.nunits nbytes).toNat < 2 ^ 31) :
    (Heap.morecoreUnits (Heap.nunits nbytes)).toNat = (Heap.nunits nbytes).toNat ∧
      (Heap.morecoreBytes (Heap.nunits nbytes)).toInt ≤ 16 := by
  have hlt := nbytes.isLt
  have hunits := Heap.Inv.nunits_toNat nbytes
  replace hint : ¬16 * (Heap.nunits nbytes).toNat < 2 ^ 31 := hint
  have hmore : Heap.morecoreUnits (Heap.nunits nbytes) = Heap.nunits nbytes := by
    refine if_neg fun hsmall ↦ ?_
    have hsmall : (Heap.nunits nbytes).toNat < 4096 := hsmall
    omega
  refine ⟨by rw [hmore], ?_⟩
  show (BitVec.ofNat 32 ((Heap.morecoreUnits (Heap.nunits nbytes)).toNat * 16)).toInt ≤ 16
  rw [hmore, BitVec.toInt_eq_toNat_cond, BitVec.toNat_ofNat]
  split_ifs <;> omega

/-- **When `malloc` is safe.** A call returns `0`, or a block with enough room that is below the
break and apart from all others, without the process shrinking, and with `morecore` asking for what
it writes into the header, if it gets memory; exactly if there is a free block that is large enough,
or the bytes of the units are an `int`, or `sbrk` fails. -/
theorem malloc_safe {h : Heap} {G L : List Block} {total : ℕ} (hsane : Sane h G L sz total)
    (avail : ℕ → ℕ → Bool) (nbytes : BitVec 32)
    (hroom : total + (Heap.morecoreUnits (Heap.nunits nbytes)).toNat < 2 ^ 32) :
    ((∃ g ∈ G, (Heap.nunits nbytes).toNat ≤ g.size) ∨
      headerSize * (Heap.nunits nbytes).toNat < 2 ^ 31 ∨
      (sbrk avail (Heap.morecoreBytes (Heap.nunits nbytes)) sz).1 = none) ↔
    ((∀ g ∈ G, g.size < (Heap.nunits nbytes).toNat) →
      (sbrk avail (Heap.morecoreBytes (Heap.nunits nbytes)) sz).1 ≠ none →
      (Heap.morecoreBytes (Heap.nunits nbytes)).toInt =
        headerSize * (Heap.morecoreUnits (Heap.nunits nbytes)).toNat) ∧
    ∃ ap h' sz', h.malloc (sbrk avail) sz nbytes = some (ap, h', sz') ∧ sz ≤ sz' ∧
      (ap = 0 ∧ Sane h' G L sz' total ∨
        ∃ b : Block, ap = b.addr + headerSize ∧ ap + nbytes.toNat ≤ b.stop ∧ b.stop ≤ sz' ∧
          (∀ c ∈ L, b.Apart c) ∧ ∃ G' total', Sane h' G' (b :: L) sz' total') := by
  obtain ⟨top, hinv, htop⟩ := hsane.inv
  have hunits := Heap.Inv.nunits_toNat nbytes
  have hbase : h.base + 16 ≤ sz := hsane.base
  have hout : ∃ ap h' sz', h.malloc (sbrk avail) sz nbytes = some (ap, h', sz') ∧
      Heap.Malloced (sbrk avail) h.start sz (Heap.nunits nbytes) G L top total ap h' sz' := by
    refine hinv.malloc nbytes fun a sz' hask ↦ ?_
    obtain ⟨rfl, -⟩ := sbrk_some hask
    exact ⟨htop, Heap.base_start.symm ▸ hbase, hroom⟩
  obtain ⟨ap, h', sz', hrun, hout⟩ := hout
  have hbase' : h'.base = h.base := Heap.base_malloc hrun
  constructor
  · intro hwhen
    -- a block of the heap after the call, which is below the break
    have hblock : ∀ {a : ℕ} {G : List Block} {top total : ℕ}, sz ≤ sz' → top ≤ sz' →
        h'.Inv G (⟨a, (Heap.nunits nbytes).toNat⟩ :: L) top total →
        ∃ b : Block, a + headerSize = b.addr + headerSize ∧
          a + headerSize + nbytes.toNat ≤ b.stop ∧ b.stop ≤ sz' ∧ (∀ c ∈ L, b.Apart c) ∧
          ∃ G' total', Sane h' G' (b :: L) sz' total' := by
      intro a G top total hsz htop' hinv'
      refine ⟨_, rfl, ?_, (hinv'.live_inside _ List.mem_cons_self).2.2.trans htop',
        (List.pairwise_cons.1 hinv'.live_apart).1, G, total, ?_, top,
        hinv'.start_eq.symm ▸ hinv', htop'⟩
      · show a + 16 + nbytes.toNat ≤ a + 16 * (Heap.nunits nbytes).toNat
        omega
      · rw [hbase']
        exact hbase.trans hsz
    refine ⟨fun hsmall hsome ↦ ?_, ap, h', sz', hrun, ?_⟩
    · rcases hwhen with ⟨g, hg, hfit⟩ | hint | hnone
      · exact absurd (hsmall g hg) (not_lt.2 hfit)
      · exact Heap.Inv.morecoreBytes_toInt hint
      · exact absurd hnone hsome
    cases hout with
    | fits _ inv => exact ⟨le_rfl, .inr (hblock le_rfl htop inv)⟩
    | failed _ asked =>
      obtain rfl := sbrk_of_none asked
      refine ⟨le_rfl, .inl ⟨rfl, hbase' ▸ hbase, top, ?_, htop⟩⟩
      rw [hinv.start_eq]
      exact hinv
    | grown hsmall asked _ inv =>
      have hint : headerSize * (Heap.nunits nbytes).toNat < 2 ^ 31 := by
        rcases hwhen with ⟨g, hg, hfit⟩ | hint | hnone
        · exact absurd (hsmall g hg) (not_lt.2 hfit)
        · exact hint
        · rw [asked] at hnone
          cases hnone
      have hbytes := Heap.Inv.morecoreBytes_toInt hint
      have hpos := (Heap.Inv.morecoreUnits_spec (Heap.nunits nbytes)).2
      obtain ⟨rfl, hgrown, -⟩ := sbrk_some asked
      replace hgrown := hgrown (by omega)
      rw [hbytes] at hgrown
      exact ⟨by omega, .inr (hblock (by omega) (by omega) inv)⟩
  · rintro ⟨-, ap₂, h₂, sz₂, hrun₂, -, hresult⟩
    by_contra hwhen
    obtain ⟨hfit, hwhen⟩ := not_or.1 hwhen
    obtain ⟨hint, hsome⟩ := not_or.1 hwhen
    cases hout with
    | fits hfit' => exact hfit hfit'
    | failed _ asked =>
      rw [asked] at hsome
      exact hsome rfl
    | @grown a b _ _ _ _ asked hstop =>
      -- the block begins at the old break, and the new one is no more than 16 bytes above it
      obtain ⟨hmore, hbytes⟩ := morecoreBytes_toInt_le nbytes hint
      obtain ⟨rfl, hpos, hneg⟩ := sbrk_some asked
      obtain ⟨rfl, heq⟩ := Prod.mk.inj (Option.some.inj (hrun.symm.trans hrun₂))
      obtain ⟨-, rfl⟩ := Prod.mk.inj heq
      replace hint : ¬16 * (Heap.nunits nbytes).toNat < 2 ^ 31 := hint
      have hend : ¬a + 16 + nbytes.toNat ≤ sz' := by
        rcases lt_or_ge 0 (Heap.morecoreBytes (Heap.nunits nbytes)).toInt with h0 | h0
        · have := hpos h0
          omega
        · have := hneg h0
          omega
      rcases hresult with ⟨hzero, -⟩ | ⟨c, -, hroom, hbelow, -⟩
      · exact Nat.succ_ne_zero (a + 15) hzero
      · exact hend (hroom.trans hbelow)

theorem malloc_safe_start :
    ∃ ap h' sz', Heap.malloc (sbrk fun _ _ ↦ true) ⟨1024, 0, fun _ ↦ ⟨0, 0⟩⟩ 4096 100000 =
        some (ap, h', sz') ∧ 4096 ≤ sz' ∧
      (ap = 0 ∧ Sane h' [⟨1024, 0⟩] [] sz' 0 ∨
        ∃ b : Block, ap = b.addr + headerSize ∧ ap + (100000 : BitVec 32).toNat ≤ b.stop ∧
          b.stop ≤ sz' ∧ (∀ c ∈ ([] : List Block), b.Apart c) ∧
          ∃ G' total', Sane h' G' [b] sz' total') :=
  ((malloc_safe (sane_start (by decide) (by decide) _) (fun _ _ ↦ true) 100000 (by decide)).1
    (.inr (.inl (by decide)))).2

/-- Two calls in a program that has just started. For `2 ^ 32 - 1` bytes `sbrk` is asked for 16
bytes, and the block that is returned begins at the break. For `2 ^ 31` bytes `sbrk` is asked for a
negative number of bytes: a process of `2 ^ 32` bytes is cut in half, and the block begins where it
ended before. -/
theorem malloc_unsafe :
    (Sane ⟨1024, 0, fun _ ↦ ⟨0, 0⟩⟩ [⟨1024, 0⟩] [] 4096 0 ∧
      (Heap.malloc (sbrk fun _ _ ↦ true) ⟨1024, 0, fun _ ↦ ⟨0, 0⟩⟩ 4096 0xffffffff).map
        (fun r ↦ (r.1, r.2.2)) = some (4112, 4112)) ∧
    Sane ⟨1024, 0, fun _ ↦ ⟨0, 0⟩⟩ [⟨1024, 0⟩] [] (2 ^ 32) 0 ∧
      (Heap.malloc (sbrk fun _ _ ↦ true) ⟨1024, 0, fun _ ↦ ⟨0, 0⟩⟩ (2 ^ 32) 0x80000000).map
        (fun r ↦ (r.1, r.2.2)) = some (2 ^ 32 + 16, 2 ^ 31 + 16) :=
  ⟨⟨sane_start (by decide) (by decide) _, by decide +kernel⟩,
    sane_start (by decide) (by decide) _, by decide +kernel⟩

end Xv6.Umalloc

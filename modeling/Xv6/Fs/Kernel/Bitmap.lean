import Xv6.Fs.Kernel.Files

/-!
# The bitmap in machine arithmetic

`balloc` and `bfree` of `kernel/fs.c` with the types of the source: block numbers are `int` in
`balloc` and `uint` in `bfree`, the bitmap is read and written by bytes, and a bit is a mask. The
comparisons with `sb.size` are between unsigned numbers, the divisions in `balloc` between signed
ones. Up to `2 ^ 30` blocks this is the code on numbers and single bits that the rest of the file
system is built on (`balloc_refines`, `bfree_refines`), and what that does is known exactly.
-/

namespace Xv6.Fs.Kernel

open Option

namespace Machine

/-- `bp->data[bi / 8]`, promoted to an `int`. -/
def dataAt (bp : Block) (bi : BitVec 32) : BitVec 32 := (byteAt bp (bi.sdiv 8).toNat).setWidth 32

/-- `bp->data[bi / 8] = x` -/
def setData (bp : Block) (bi x : BitVec 32) : Block :=
  bp.put (8 * (bi.sdiv 8).toNat) (x.setWidth 8)

/-- `1 << (bi % 8)` -/
def mask (bi : BitVec 32) : BitVec 32 := 1#32 <<< bi.srem 8

variable (sb : Superblock)

/-- `sb.size` -/
def size : BitVec 32 := BitVec.ofNat 32 sb.size

/-- `sb.bmapstart` -/
def bmapstart : BitVec 32 := BitVec.ofNat 32 sb.bmapstart

/-- The inner loop of `balloc`. -/
def ballocScan (bp : Block) (b : BitVec 32) : ℕ → BitVec 32 → Option (BitVec 32)
  | 0, _ => none
  | turns + 1, bi =>
    if bi.slt (BitVec.ofNat 32 bpb) ∧ b + bi < size sb then
      if dataAt bp bi &&& mask bi = 0 then some bi else ballocScan bp b turns (bi + 1)
    else none

/-- The outer loop of `balloc`. -/
def ballocFrom : ℕ → BitVec 32 → FsM (BitVec 32)
  | 0, _ => throw .spins
  | turns + 1, b => do
    if b < size sb then
      let blockno := (b.sdiv (BitVec.ofNat 32 bpb) + bmapstart sb).toNat
      let bp ← bread blockno
      match ballocScan sb bp b (bpb + 1) 0#32 with
      | some bi =>
        modifyBlock blockno fun bp ↦ setData bp bi (dataAt bp bi ||| mask bi)
        logWrite blockno
        brelse blockno
        bzero (b + bi).toNat
        return b + bi
      | none => ballocFrom turns (b + BitVec.ofNat 32 bpb)
    else return 0

/-- `balloc`. -/
def balloc : FsM (BitVec 32) := ballocFrom sb (2 ^ 32) 0#32

/-- `bfree`. -/
def bfree (b : BitVec 32) : FsM Unit := do
  let blockno := (b / BitVec.ofNat 32 bpb + bmapstart sb).toNat
  let bp ← bread blockno
  let bi := b % BitVec.ofNat 32 bpb
  if dataAt bp bi &&& mask bi = 0 then throw .freeingFreeBlock
  else
    modifyBlock blockno fun bp ↦ setData bp bi (dataAt bp bi &&& ~~~mask bi)
    logWrite blockno
    brelse blockno

/-! ### Bytes and bits -/

section bits

variable {n k : ℕ}

/-- Signed division of numbers that are not negative. -/
theorem sdiv_ofNat (hn : n < 2 ^ 31) (hk : k < 2 ^ 31) :
    (BitVec.ofNat 32 n).sdiv (BitVec.ofNat 32 k) = BitVec.ofNat 32 (n / k) := by
  have hn' : (BitVec.ofNat 32 n).msb = false := BitVec.msb_eq_false_iff_two_mul_lt.2 (by
    rw [BitVec.toNat_ofNat]; omega)
  have hk' : (BitVec.ofNat 32 k).msb = false := BitVec.msb_eq_false_iff_two_mul_lt.2 (by
    rw [BitVec.toNat_ofNat]; omega)
  rw [BitVec.sdiv_eq, hn', hk', ← BitVec.toNat_inj]
  show (BitVec.ofNat 32 n / BitVec.ofNat 32 k).toNat = _
  have hle := Nat.div_le_self n k
  rw [BitVec.toNat_udiv, BitVec.toNat_ofNat, BitVec.toNat_ofNat, BitVec.toNat_ofNat,
    Nat.mod_eq_of_lt (by omega), Nat.mod_eq_of_lt (by omega), Nat.mod_eq_of_lt (by omega)]

theorem slt_ofNat (hn : n < 2 ^ 31) (hk : k < 2 ^ 31) :
    (BitVec.ofNat 32 n).slt (BitVec.ofNat 32 k) = true ↔ n < k := by
  have hint : ∀ m < 2 ^ 31, (BitVec.ofNat 32 m).toInt = m := fun m hm ↦ by
    have hmod : (BitVec.ofNat 32 m).toNat = m := by
      rw [BitVec.toNat_ofNat]
      omega
    rw [BitVec.toInt_eq_toNat_of_lt (by omega), hmod]
  rw [BitVec.slt_eq_decide, decide_eq_true_iff, hint n hn, hint k hk, Int.ofNat_lt]

theorem mask_ofNat (hn : n < bpb) : mask (BitVec.ofNat 32 n) = BitVec.twoPow 32 (n % 8) := by
  rw [bpb_eq] at hn
  have hn' : (BitVec.ofNat 32 n).msb = false := BitVec.msb_eq_false_iff_two_mul_lt.2 (by
    rw [BitVec.toNat_ofNat]; omega)
  have hmod : ((BitVec.ofNat 32 n).srem 8).toNat = n % 8 := by
    rw [BitVec.srem_eq, hn', show (8 : BitVec 32).msb = false by decide]
    show (BitVec.ofNat 32 n % 8).toNat = _
    rw [BitVec.toNat_umod, BitVec.toNat_ofNat, Nat.mod_eq_of_lt (by omega : n < 2 ^ 32)]
    rfl
  rw [mask, BitVec.shiftLeft_eq', hmod]
  rfl

theorem byte_ofNat (hn : n < bpb) : ((BitVec.ofNat 32 n).sdiv 8).toNat = n / 8 := by
  rw [bpb_eq] at hn
  rw [show (8 : BitVec 32) = BitVec.ofNat 32 8 from rfl, sdiv_ofNat (by omega) (by omega),
    BitVec.toNat_ofNat]
  omega

/-- A bit of the byte is a bit of the block. -/
theorem getLsbD_dataAt (bp : Block) (hn : n < bpb) {i : ℕ} (hi : i < 8) :
    (dataAt bp (BitVec.ofNat 32 n)).getLsbD i = bp.getLsbD (8 * (n / 8) + i) := by
  rw [dataAt, byte_ofNat hn, BitVec.getLsbD_setWidth, byteAt, BitVec.getLsbD_field,
    decide_eq_true (by omega : i < 32), decide_eq_true hi, Bool.true_and, Bool.true_and]

/-- The test. -/
theorem bitTest_iff (bp : Block) (hn : n < bpb) :
    dataAt bp (BitVec.ofNat 32 n) &&& mask (BitVec.ofNat 32 n) = 0 ↔ bp.getLsbD n = false := by
  have hsplit : 8 * (n / 8) + n % 8 = n := Nat.div_add_mod n 8
  have hbit := getLsbD_dataAt bp hn (Nat.mod_lt n (by decide : 0 < 8))
  rw [hsplit] at hbit
  rw [mask_ofNat hn, BitVec.and_twoPow, hbit]
  cases bp.getLsbD n with
  | false => exact iff_of_true rfl rfl
  | true =>
    refine iff_of_false (fun h ↦ ?_) Bool.noConfusion
    have h0 := congrArg (BitVec.getLsbD · (n % 8)) h
    simp only [if_true, BitVec.getLsbD_twoPow] at h0
    have hlt : n % 8 < 32 := by omega
    simp [hlt] at h0

/-- A byte that differs from the old one in one bit. -/
theorem setData_eq (bp : Block) (hn : n < bpb) (v : BitVec 1) {x : BitVec 32}
    (hx : ∀ i < 8, x.getLsbD i = if i = n % 8 then v.getLsbD 0 else bp.getLsbD (8 * (n / 8) + i)) :
    setData bp (BitVec.ofNat 32 n) x = bp.put n v := by
  refine BitVec.eq_of_getLsbD_eq fun i hi ↦ ?_
  rw [setData, byte_ofNat hn, BitVec.getLsbD_put _ _ _ _ hi, BitVec.getLsbD_put _ _ _ _ hi]
  by_cases hbyte : 8 * (n / 8) ≤ i ∧ i < 8 * (n / 8) + 8
  · rw [if_pos hbyte, BitVec.getLsbD_setWidth, decide_eq_true (by omega), Bool.true_and,
      hx _ (by omega)]
    by_cases hin : i = n
    · rw [if_pos (by omega), if_pos (by omega), hin, Nat.sub_self]
    · rw [if_neg (by omega), if_neg (by omega), Nat.add_sub_cancel' hbyte.1]
  · rw [if_neg hbyte, if_neg (by omega)]

theorem setBit_eq (bp : Block) (hn : n < bpb) :
    setData bp (BitVec.ofNat 32 n) (dataAt bp (BitVec.ofNat 32 n) ||| mask (BitVec.ofNat 32 n)) =
      bp.put n 1#1 := by
  refine setData_eq bp hn 1#1 fun i hi ↦ ?_
  rw [BitVec.getLsbD_or, getLsbD_dataAt bp hn hi, mask_ofNat hn, BitVec.getLsbD_twoPow]
  split_ifs with h
  · simp [h]
    omega
  · simp [Ne.symm h]

theorem clearBit_eq (bp : Block) (hn : n < bpb) :
    setData bp (BitVec.ofNat 32 n) (dataAt bp (BitVec.ofNat 32 n) &&& ~~~mask (BitVec.ofNat 32 n)) =
      bp.put n 0#1 := by
  refine setData_eq bp hn 0#1 fun i hi ↦ ?_
  rw [BitVec.getLsbD_and, BitVec.getLsbD_not, getLsbD_dataAt bp hn hi, mask_ofNat hn,
    BitVec.getLsbD_twoPow]
  split_ifs with h
  · simp [h]
  · simp [Ne.symm h]
    omega

end bits

/-! ### The two levels -/

/-- The number of blocks of the bitmap. -/
def bitmapBlocks (sb : Superblock) : ℕ := (sb.size + bpb - 1) / bpb

/-- Block numbers are small enough for `int` and `uint`. -/
structure Fits (sb : Superblock) : Prop where
  size_le : sb.size ≤ 2 ^ 30
  bitmap_le : sb.bmapstart + bitmapBlocks sb ≤ 2 ^ 32

section refines

variable {E : Panic → Prop} {sb : Superblock} {s : Kfs} {b k j n turns : ℕ}

theorem lt_size_iff (h : Fits sb) (hn : n < 2 ^ 31) :
    BitVec.ofNat 32 n < size sb ↔ n < sb.size := by
  have hsize := h.size_le
  rw [size, BitVec.lt_def, BitVec.toNat_ofNat, BitVec.toNat_ofNat, Nat.mod_eq_of_lt (by omega),
    Nat.mod_eq_of_lt (by omega)]

theorem ballocScan_refines (h : Fits sb) (bp : Block) (hb : b ≤ 2 ^ 30) (hn : n + turns = bpb) :
    ballocScan sb bp (BitVec.ofNat 32 b) (turns + 1) (BitVec.ofNat 32 n) =
      (Kernel.ballocScan sb bp b turns n).map (BitVec.ofNat 32) := by
  rw [bpb_eq] at hn
  induction turns generalizing n with
  | zero =>
    have hge : ¬(BitVec.ofNat 32 n).slt (BitVec.ofNat 32 bpb) = true := by
      rw [slt_ofNat (by omega) (by rw [bpb_eq]; omega), bpb_eq]
      omega
    rw [ballocScan, Kernel.ballocScan, if_neg fun hlt ↦ hge hlt.1]
    rfl
  | succ turns ih =>
    have hlt : n < bpb := by
      rw [bpb_eq]
      omega
    have hslt : (BitVec.ofNat 32 n).slt (BitVec.ofNat 32 bpb) = true :=
      (slt_ofNat (by omega) (by rw [bpb_eq]; omega)).2 hlt
    have hsum : BitVec.ofNat 32 b + BitVec.ofNat 32 n < size sb ↔ b + n < sb.size := by
      rw [← BitVec.ofNat_add]
      exact lt_size_iff h (by omega)
    have hnext : BitVec.ofNat 32 n + 1 = BitVec.ofNat 32 (n + 1) := (BitVec.ofNat_add n 1).symm
    rw [ballocScan, Kernel.ballocScan]
    by_cases hin : b + n < sb.size
    · rw [if_pos ⟨hslt, hsum.2 hin⟩, if_pos hin]
      by_cases hclear : bp.getLsbD n = false
      · rw [if_pos ((bitTest_iff bp hlt).2 hclear), if_pos hclear]
        rfl
      · rw [if_neg fun h ↦ hclear ((bitTest_iff bp hlt).1 h), if_neg hclear, hnext]
        exact ih (by omega)
    · rw [if_neg fun h ↦ hin (hsum.1 h.2), if_neg hin]
      rfl

theorem mul_bpb_lt_iff : k * bpb < sb.size ↔ k < bitmapBlocks sb := by
  rw [bitmapBlocks, bpb_eq]
  omega

/-- The block of the bitmap. -/
theorem bblock_refines (h : Fits sb) (hk : k < bitmapBlocks sb) :
    ((BitVec.ofNat 32 (k * bpb)).sdiv (BitVec.ofNat 32 bpb) + bmapstart sb).toNat =
      sb.bblock (k * bpb) := by
  have hlt := mul_bpb_lt_iff.2 hk
  have hsize := h.size_le
  have hmap := h.bitmap_le
  rw [sdiv_ofNat (by omega) (by rw [bpb_eq]; omega), Superblock.bblock, bpb_eq,
    Nat.mul_div_cancel k (by decide), bmapstart, ← BitVec.ofNat_add, BitVec.toNat_ofNat]
  omega

/-- From one block of the bitmap to the next. -/
theorem ballocFrom_refines (h : Fits sb) (hk : k + j = bitmapBlocks sb) (hturns : j < turns)
    {Q : ℕ → Kfs → Prop} (hQ : wpe E (Kernel.ballocFrom sb j (k * bpb)) Q s) :
    wpe E (ballocFrom sb turns (BitVec.ofNat 32 (k * bpb))) (fun r t ↦ Q r.toNat t) s := by
  have hsize := h.size_le
  have hblocks : bitmapBlocks sb * bpb ≤ sb.size + bpb := by
    rw [bitmapBlocks, bpb_eq]
    omega
  induction j generalizing k turns with
  | zero =>
    obtain ⟨turns, rfl⟩ := Nat.exists_eq_succ_of_ne_zero (ne_of_gt hturns)
    have hge : ¬BitVec.ofNat 32 (k * bpb) < size sb := by
      rw [lt_size_iff h (by rw [← hk, bpb_eq] at hblocks; rw [bpb_eq]; omega), mul_bpb_lt_iff]
      omega
    rw [ballocFrom, if_neg hge]
    exact hQ
  | succ j ih =>
    obtain ⟨turns, rfl⟩ := Nat.exists_eq_succ_of_ne_zero (ne_of_gt (Nat.zero_lt_of_lt hturns))
    have hlt : k < bitmapBlocks sb := by omega
    have hmul : k * bpb < sb.size := mul_bpb_lt_iff.2 hlt
    have htest : BitVec.ofNat 32 (k * bpb) < size sb := (lt_size_iff h (by omega)).2 hmul
    have hscan := ballocScan_refines h (s.disk (sb.bblock (k * bpb))) (hmul.le.trans hsize)
      (zero_add bpb)
    rw [Kernel.ballocFrom, wpe_bind, wpe_bread] at hQ
    rw [ballocFrom, if_pos htest, bblock_refines h hlt, wpe_bind, wpe_bread, hscan]
    cases hfree : Kernel.ballocScan sb (s.disk (sb.bblock (k * bpb))) (k * bpb) bpb 0 with
    | none =>
      rw [hfree, ← Nat.succ_mul] at hQ
      rw [map_none, ← BitVec.ofNat_add, ← Nat.succ_mul]
      exact ih (by omega) (by omega) hQ
    | some c =>
      obtain ⟨-, hc, hin, -⟩ := ballocScan_some hfree
      rw [zero_add] at hc
      have hnat : (BitVec.ofNat 32 (k * bpb + c)).toNat = k * bpb + c := by
        rw [BitVec.toNat_ofNat]
        omega
      rw [hfree] at hQ
      rw [map_some]
      dsimp only at hQ ⊢
      rw [← BitVec.ofNat_add]
      rw [wpe_bind, wpe_modifyBlock, setBit_eq _ hc, hnat, wpe_bind, wpe_logWrite, wpe_bind,
        wpe_brelse, wpe_bind]
      rw [wpe_bind, wpe_modifyBlock, wpe_bind, wpe_logWrite, wpe_bind, wpe_brelse, wpe_bind] at hQ
      refine hQ.mono fun _ t ht ↦ ?_
      rw [wpe_pure, hnat]
      exact ht

/-- **`balloc` in machine arithmetic** is `balloc`. -/
theorem balloc_refines (h : Fits sb) {Q : ℕ → Kfs → Prop} (hQ : wpe E (Kernel.balloc sb) Q s) :
    wpe E (balloc sb) (fun r t ↦ Q r.toNat t) s := by
  have hfrom : wpe E (Kernel.ballocFrom sb (bitmapBlocks sb) (0 * bpb)) Q s := by
    rw [zero_mul]
    exact hQ
  have hblocks : bitmapBlocks sb < 2 ^ 32 := by
    have hsize := h.size_le
    rw [bitmapBlocks, bpb_eq]
    omega
  have hrun := ballocFrom_refines h (zero_add _) hblocks hfrom
  rwa [zero_mul] at hrun

/-- **`bfree` in machine arithmetic** is `bfree`. -/
theorem bfree_refines (h : Fits sb) (hb : b < sb.size) {Q : Unit → Kfs → Prop}
    (hQ : wpe E (Kernel.bfree sb b) Q s) : wpe E (bfree sb (BitVec.ofNat 32 b)) Q s := by
  have hsize := h.size_le
  have hmap := h.bitmap_le
  have hlt : b % bpb < bpb := Nat.mod_lt b (by decide)
  have hblock : (BitVec.ofNat 32 b / BitVec.ofNat 32 bpb + bmapstart sb).toNat = sb.bblock b := by
    rw [Superblock.bblock, bmapstart, BitVec.toNat_add, BitVec.toNat_udiv, BitVec.toNat_ofNat,
      BitVec.toNat_ofNat, BitVec.toNat_ofNat, bpb_eq, Nat.mod_eq_of_lt (by omega : b < 2 ^ 32),
      show 8192 % 2 ^ 32 = 8192 from rfl]
    rw [bitmapBlocks, bpb_eq] at hmap
    omega
  have hbit : BitVec.ofNat 32 b % BitVec.ofNat 32 bpb = BitVec.ofNat 32 (b % bpb) := by
    rw [← BitVec.toNat_inj, BitVec.toNat_umod, BitVec.toNat_ofNat, BitVec.toNat_ofNat,
      BitVec.toNat_ofNat, bpb_eq, Nat.mod_eq_of_lt (by omega : b < 2 ^ 32),
      show 8192 % 2 ^ 32 = 8192 from rfl]
    omega
  rw [Kernel.bfree, wpe_bind, wpe_bread, wpe_ite] at hQ
  rw [bfree, hblock, hbit, wpe_bind, wpe_bread, wpe_ite, bitTest_iff _ hlt]
  refine ⟨hQ.1, fun hset ↦ ?_⟩
  have hQ := hQ.2 hset
  rw [wpe_bind, wpe_modifyBlock] at hQ ⊢
  rwa [clearBit_eq _ hlt]

end refines

/-! ### What the scan finds -/

section exact

variable {E : Panic → Prop} {sb : Superblock} {s : Kfs} {a b : ℕ}

/-- All blocks up to the end of the bitmap are in use. -/
def MetadataMarked (sb : Superblock) (d : Disk) : Prop :=
  ∀ b < sb.size, b < sb.bmapstart + bitmapBlocks sb → bit sb d b = true

theorem bblock_lt_of_lt (hb : b < bitmapBlocks sb * bpb) :
    sb.bblock b < sb.bmapstart + bitmapBlocks sb := by
  rw [Superblock.bblock, add_comm]
  exact Nat.add_lt_add_left ((Nat.div_lt_iff_lt_mul (by decide)).2 hb) _

theorem lt_bitmap_of_lt_size (hb : b < sb.size) : b < bitmapBlocks sb * bpb := by
  rw [bitmapBlocks, bpb_eq]
  omega

/-- A free block is not a block of the bitmap. -/
theorem MetadataMarked.le_of_free (h : MetadataMarked sb s.disk) (ha : a < sb.size)
    (hbit : bit sb s.disk a = false) : sb.bmapstart + bitmapBlocks sb ≤ a := by
  by_contra hlt
  rw [h a ha (Nat.lt_of_not_le hlt)] at hbit
  cases hbit

/-- The bits of the bitmap when one is set, and a block that is not of the bitmap is zeroed. -/
theorem MetadataMarked.bit_taken (h : MetadataMarked sb s.disk) (ha : a < sb.size)
    (hbit : bit sb s.disk a = false) (hb : b < bitmapBlocks sb * bpb) :
    bit sb (taken sb s a).disk b = (decide (b = a) || bit sb s.disk b) := by
  have hge := h.le_of_free ha hbit
  have hne : sb.bblock b ≠ a := by
    have hlt := bblock_lt_of_lt hb
    omega
  rw [taken_disk, bit_congr (Function.update_of_ne hne _ _), bit_put]
  by_cases hba : b = a
  · rw [if_pos hba, decide_eq_true hba, Bool.true_or]
    rfl
  · rw [if_neg hba, decide_eq_false hba, Bool.false_or]

/-- `bfree` of a block that was just taken. -/
theorem MetadataMarked.bfree_taken (h : MetadataMarked sb s.disk) (ha : a < sb.size)
    (hbit : bit sb s.disk a = false) :
    wpe E (Kernel.bfree sb a) (fun _ u ↦ ∀ b < bitmapBlocks sb * bpb,
      bit sb u.disk b = bit sb s.disk b) (taken sb s a) := by
  have hset := h.bit_taken ha hbit (lt_bitmap_of_lt_size ha)
  rw [decide_eq_true rfl, Bool.true_or] at hset
  rw [Kernel.bfree, wpe_bind, wpe_bread, wpe_ite]
  refine ⟨fun hclear ↦ ?_, fun _ ↦ ?_⟩
  · rw [bit, hclear] at hset
    cases hset
  intro b hb
  show bit sb (Function.update _ _ _) b = _
  rw [bit_put, h.bit_taken ha hbit hb]
  by_cases hba : b = a
  · rw [if_pos hba, hba, hbit]
    rfl
  · rw [if_neg hba, decide_eq_false hba, Bool.false_or]

end exact

/-- The block that is found depends on the bits below `sb.size`. -/
theorem least_congr {sb : Superblock} {d d' : Disk} {a a' : ℕ}
    (hbits : ∀ b < sb.size, bit sb d' b = bit sb d b) (ha : a < sb.size)
    (hclear : bit sb d a = false) (hleast' : ∀ b < a', bit sb d' b = true) : a' ≤ a := by
  by_contra hlt
  have hset := hleast' a (Nat.lt_of_not_le hlt)
  rw [hbits a ha, hclear] at hset
  cases hset

/-- **What `balloc` returns and leaves behind** when it finds the block `a`. -/
structure Found (sb : Superblock) (s t : Kfs) (a : BitVec 32) : Prop where
  lt : a.toNat < sb.size
  clear : bit sb s.disk a.toNat = false
  /-- There is no smaller one. -/
  least : ∀ b < a.toNat, bit sb s.disk b = true
  /-- Exactly its bit is set, of all bits in the blocks of the bitmap. -/
  bits : ∀ b < bitmapBlocks sb * bpb, bit sb t.disk b = (decide (b = a.toNat) || bit sb s.disk b)
  zeroed : t.disk a.toNat = 0
  logged : t.logged = a.toNat :: sb.bblock a.toNat :: s.logged
  /-- No other block is touched, and nothing else. -/
  kept : ∀ b, b ≠ a.toNat → b ≠ sb.bblock a.toNat → t.disk b = s.disk b
  rest : t = { s with disk := t.disk, ops := t.ops }
  /-- To free it restores the bitmap. -/
  restored : ∃ u, bfree sb a t = .ok ((), u) ∧
    ∀ b < bitmapBlocks sb * bpb, bit sb u.disk b = bit sb s.disk b

/-- A block that is taken is found. -/
theorem MetadataMarked.found {sb : Superblock} {s : Kfs} {a : BitVec 32} (hfits : Fits sb)
    (hmeta : MetadataMarked sb s.disk) (ha : a.toNat < sb.size)
    (hclear : bit sb s.disk a.toNat = false) (hleast : ∀ b < a.toNat, bit sb s.disk b = true) :
    a ≠ 0 ∧ Found sb s (taken sb s a.toNat) a := by
  have hge := hmeta.le_of_free ha hclear
  have hpos : 0 < bitmapBlocks sb := mul_bpb_lt_iff.1 (by rw [zero_mul]; omega)
  refine ⟨fun h0 ↦ ?_, ha, hclear, hleast, fun b hb ↦ hmeta.bit_taken ha hclear hb,
    Function.update_self _ _ _, by rw [taken, logged_edit, logged_edit],
    fun b hb hblock ↦ ?_, Aside.eq ⟨rfl, rfl, rfl⟩ rfl, ?_⟩
  · rw [h0] at hge
    exact absurd hge (not_le.2 (Nat.add_pos_right _ hpos))
  · rw [taken_disk, Function.update_of_ne hb, Function.update_of_ne hblock]
  · have hfree : wpe (fun _ ↦ False) (bfree sb (BitVec.ofNat 32 a.toNat)) _ _ :=
      bfree_refines hfits ha (hmeta.bfree_taken ha hclear)
    rw [BitVec.ofNat_toNat, BitVec.setWidth_eq] at hfree
    obtain ⟨_, u, hu, hbits⟩ := wp_iff_wpe.2 hfree
    exact ⟨u, hu, hbits⟩

/-- **The scan of the allocator is exact.** Whether a block is found, and which, depends on the bits
below `sb.size` alone. -/
theorem balloc_exact {sb : Superblock} (hfits : Fits sb) {s : Kfs}
    (hmeta : MetadataMarked sb s.disk) :
    ∃ a t, balloc sb s = .ok (a, t) ∧ (a = 0 ↔ ∀ b < sb.size, bit sb s.disk b = true) ∧
      (a = 0 → t = s) ∧ (a ≠ 0 → Found sb s t a) ∧
      ∀ s' : Kfs, (∀ b < sb.size, bit sb s'.disk b = bit sb s.disk b) →
        ∃ t', balloc sb s' = .ok (a, t') := by
  have hrun : ∀ s : Kfs, wp (balloc sb) _ s := fun s ↦
    wp_iff_wpe.2 (balloc_refines hfits (balloc_eq sb s))
  obtain ⟨a, t, hat, hcase⟩ := hrun s
  rcases hcase with ⟨h0, hts, hall⟩ | ⟨ha, hclear, hts, hleast⟩
  · have ha0 : a = 0 := BitVec.toNat_inj.1 h0
    refine ⟨a, t, hat, iff_of_true ha0 hall, fun _ ↦ hts, fun hne ↦ absurd ha0 hne,
      fun s' hbits ↦ ?_⟩
    obtain ⟨a', t', hat', ⟨h0', -, -⟩ | ⟨ha', hclear', -, -⟩⟩ := hrun s'
    · rw [BitVec.toNat_inj.1 (h0'.trans h0.symm)] at hat'
      exact ⟨t', hat'⟩
    · rw [hbits _ ha', hall _ ha'] at hclear'
      cases hclear'
  · obtain ⟨hne, hfound⟩ := hmeta.found hfits ha hclear hleast
    refine ⟨a, t, hat, iff_of_false hne fun hall ↦ ?_, fun h0 ↦ absurd h0 hne, fun _ ↦ ?_,
      fun s' hbits ↦ ?_⟩
    · rw [hall _ ha] at hclear
      cases hclear
    · rw [hts]
      exact hfound
    obtain ⟨a', t', hat', ⟨-, -, hall'⟩ | ⟨ha', hclear', -, hleast'⟩⟩ := hrun s'
    · have hset := hall' _ ha
      rw [hbits _ ha, hclear] at hset
      cases hset
    · have hle := least_congr hbits ha hclear hleast'
      have hge := least_congr (fun b hb ↦ (hbits b hb).symm) ha' hclear' hleast
      rw [BitVec.toNat_inj.1 (le_antisymm hle hge)] at hat'
      exact ⟨t', hat'⟩

theorem balloc_exact_small :
    ∃ t, balloc smallSb (small fun _ ↦ none) = .ok (6, t) ∧
      Found smallSb (small fun _ ↦ none) t 6 := by
  have hbits : ∀ b < 8, bit smallSb smallDisk b = decide (b < 6) := by decide +kernel
  have hmeta : MetadataMarked smallSb smallDisk := fun b hb hlt ↦ by
    have hlt : b < 4 := hlt
    rw [hbits b hb, decide_eq_true_iff]
    omega
  obtain ⟨a, t, hat, hzero, -, hfound, -⟩ :=
    balloc_exact (s := small fun _ ↦ none) ⟨by decide, by decide⟩ hmeta
  have hne : a ≠ 0 := fun h0 ↦ by
    have hset := hzero.1 h0 6 (by decide)
    rw [small_disk, hbits 6 (by decide)] at hset
    cases hset
  have hfound := hfound hne
  have hge : 6 ≤ a.toNat := by
    have hclear := hfound.clear
    rw [small_disk, hbits _ hfound.lt, decide_eq_false_iff_not] at hclear
    omega
  have hle : a.toNat ≤ 6 := by
    by_contra hlt
    have hset := hfound.least 6 (by omega)
    rw [small_disk, hbits 6 (by decide)] at hset
    cases hset
  obtain rfl : a = 6 := BitVec.toNat_inj.1 (le_antisymm hle hge)
  exact ⟨t, hat, hfound⟩

end Machine

end Xv6.Fs.Kernel

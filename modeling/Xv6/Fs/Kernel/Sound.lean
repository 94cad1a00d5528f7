import Xv6.Fs.Kernel.Model
import Xv6.Library.Ownership

/-!
# Sound block structure

An inode refers to blocks in 269 places: twelve direct ones, the 256 entries of its indirect block,
and the indirect block itself (`blockAt`). A file system is sound if every block in use is in one of
these places only, and in the bitmap (`Sound`); between the allocation of a block and the place it
gets, the block is in hand. `Sound` takes the inodes as a function, as those in the inode table may
be newer than those on disk.

The steps of `balloc` and `bmap` are the moves of `Owns`.
-/

namespace Xv6.Fs.Kernel

open Function

/-! ### Places for blocks -/

/-- The block number in place `p` of an inode: the blocks of the file, then the indirect block. -/
def blockAt (d : Disk) (x : Dinode) (p : ℕ) : ℕ :=
  if p < ndirect then (x.addr p).toNat
  else if p < maxFile then
    if x.addr ndirect = 0 then 0 else (wordAt (d (x.addr ndirect).toNat) (p - ndirect)).toNat
  else if p = maxFile then (x.addr ndirect).toNat
  else 0

variable {d d' : Disk} {x x' : Dinode} {p k a b : ℕ}

theorem blockAt_direct (h : p < ndirect) : blockAt d x p = (x.addr p).toNat := if_pos h

theorem blockAt_ind : blockAt d x maxFile = (x.addr ndirect).toNat := rfl

theorem blockAt_entry (hp : ndirect ≤ p) (h : p < maxFile) : blockAt d x p =
    if x.addr ndirect = 0 then 0 else (wordAt (d (x.addr ndirect).toNat) (p - ndirect)).toNat := by
  rw [blockAt, if_neg (not_lt.2 hp), if_pos h]

theorem blockAt_of_gt (h : maxFile < p) : blockAt d x p = 0 := by
  have hlt : ndirect ≤ maxFile := by decide
  rw [blockAt, if_neg (by omega), if_neg (by omega), if_neg (by omega)]

/-- Only the indirect block of an inode matters. -/
theorem blockAt_congr (h : x.addr ndirect ≠ 0 →
    d' (x.addr ndirect).toNat = d (x.addr ndirect).toNat)
    (haddr : ∀ k ≤ ndirect, x'.addr k = x.addr k) (p : ℕ) : blockAt d' x' p = blockAt d x p := by
  rw [blockAt, blockAt, haddr ndirect le_rfl]
  split_ifs with h₁ h₂ h₃
  · rw [haddr p h₁.le]
  · rfl
  · rw [h h₃]
  · rfl
  · rfl

theorem toNat_ofNat_of_lt {a : ℕ} (ha : a < 2 ^ 32) : (BitVec.ofNat 32 a).toNat = a := by
  rw [BitVec.toNat_ofNat, Nat.mod_eq_of_lt ha]

/-- A block gets a direct place. -/
theorem blockAt_setAddr (hk : k < ndirect) (ha : a < 2 ^ 32) (p : ℕ) :
    blockAt d (x.setAddr k (.ofNat 32 a)) p = if p = k then a else blockAt d x p := by
  have hne : ndirect ≠ k := by omega
  rw [blockAt, blockAt, Dinode.addr_setAddr_of_ne _ hne]
  split_ifs with h₁ h₂
  · rw [h₂, Dinode.addr_setAddr_self _ hk.le, toNat_ofNat_of_lt ha]
  · rw [Dinode.addr_setAddr_of_ne _ h₂]
  all_goals first | rfl | (rw [ndirect_eq] at *; rw [maxFile_eq] at *; omega)

/-- An inode gets an indirect block, which is empty. -/
theorem blockAt_setAddr_ind (hx : x.addr ndirect = 0) (hd : d a = 0) (ha : a < 2 ^ 32) (p : ℕ) :
    blockAt d (x.setAddr ndirect (.ofNat 32 a)) p = if p = maxFile then a else blockAt d x p := by
  have hlt : ndirect < maxFile := by decide
  rw [blockAt, blockAt, Dinode.addr_setAddr_self _ le_rfl, toNat_ofNat_of_lt ha, hx, hd,
    wordAt_zero]
  rcases lt_trichotomy p maxFile with h | rfl | h
  · rw [if_pos h, if_neg h.ne]
    by_cases hdir : p < ndirect
    · rw [if_pos hdir, if_pos hdir, Dinode.addr_setAddr_of_ne _ hdir.ne]
    · rw [if_neg hdir, if_neg hdir]
      simp
  · simp
  · rw [if_neg (by omega), if_neg (by omega), if_neg h.ne', if_neg h.ne', if_neg (by omega),
      if_neg (by omega), if_neg h.ne']

/-- A block gets an entry of the indirect block. -/
theorem blockAt_setWord (hx : x.addr ndirect ≠ 0) (hk : k < nindirect) (ha : a < 2 ^ 32)
    (hd : d' (x.addr ndirect).toNat = setWord (d (x.addr ndirect).toNat) k (.ofNat 32 a)) (p : ℕ) :
    blockAt d' x p = if p = ndirect + k then a else blockAt d x p := by
  have hmax : maxFile = ndirect + nindirect := rfl
  by_cases hdir : p < ndirect
  · rw [blockAt_direct hdir, blockAt_direct hdir, if_neg (by omega)]
  by_cases hp : p < maxFile
  · rw [blockAt_entry (not_lt.1 hdir) hp, blockAt_entry (not_lt.1 hdir) hp, if_neg hx,
      if_neg hx, hd]
    by_cases hpk : p = ndirect + k
    · rw [if_pos hpk, hpk, Nat.add_sub_cancel_left, wordAt_setWord_self _ hk, toNat_ofNat_of_lt ha]
    · rw [if_neg hpk, wordAt_setWord_of_ne _ (by omega)]
  · rw [if_neg (by omega), blockAt, if_neg hdir, if_neg hp, blockAt, if_neg hdir, if_neg hp]

/-! ### The layout -/

namespace Superblock

variable (sb : Superblock)

/-- The first block of the data area. -/
def datastart : ℕ := sb.size - sb.nblocks

/-- The inode blocks, the bitmap and the data area lie one behind the other. Block numbers are
positive as numbers of type `int`. -/
structure LaidOut : Prop where
  start : 0 < sb.inodestart
  inodes : sb.inodestart + (sb.ninodes + ipb - 1) / ipb ≤ sb.bmapstart
  bitmap : sb.bmapstart + (sb.size + bpb - 1) / bpb ≤ sb.datastart
  size_lt : sb.size < 2 ^ 31

variable {sb} {i : ℕ}

namespace LaidOut

theorem inodestart_le (h : sb.LaidOut) : sb.inodestart ≤ sb.bmapstart :=
  (Nat.le_add_right _ _).trans h.inodes

theorem bmapstart_le_datastart (h : sb.LaidOut) : sb.bmapstart ≤ sb.datastart :=
  (Nat.le_add_right _ _).trans h.bitmap

theorem datastart_pos (h : sb.LaidOut) : 0 < sb.datastart :=
  h.start.trans_le (h.inodestart_le.trans h.bmapstart_le_datastart)

theorem datastart_le (sb : Superblock) : sb.datastart ≤ sb.size := Nat.sub_le _ _

/-- The block of an inode is an inode block. -/
theorem iblock_lt (h : sb.LaidOut) (hi : i < sb.ninodes) : sb.iblock i < sb.bmapstart := by
  have h₂ := h.inodes
  rw [ipb_eq] at h₂
  rw [iblock, ipb_eq]
  omega

theorem bmapstart_le (sb : Superblock) (b : ℕ) : sb.bmapstart ≤ sb.bblock b := Nat.le_add_left _ _

/-- The block of a bit is a bitmap block. -/
theorem bblock_lt (h : sb.LaidOut) (hb : b < sb.size) : sb.bblock b < sb.datastart := by
  have h₃ := h.bitmap
  have hbpb : bpb = 8192 := rfl
  rw [hbpb] at h₃
  rw [bblock, hbpb]
  omega

end LaidOut

end Superblock

variable (sb : Superblock)

/-! ### The bitmap -/

/-- The bit of a block in the bitmap. -/
def bit (d : Disk) (b : ℕ) : Bool := (d (sb.bblock b)).getLsbD (b % bpb)

variable {sb} {i : ℕ}

theorem bit_congr (h : d' (sb.bblock b) = d (sb.bblock b)) : bit sb d' b = bit sb d b := by
  rw [bit, bit, h]

/-- Setting and clearing a bit. -/
theorem bit_put (v : BitVec 1) (a b : ℕ) :
    bit sb (update d (sb.bblock a) ((d (sb.bblock a)).put (a % bpb) v)) b =
      if b = a then v.getLsbD 0 else bit sb d b := by
  have hbpb : bpb = 8192 := rfl
  have hlt : b % bpb < 8192 := Nat.mod_lt b (by decide)
  rw [bit]
  by_cases hblock : sb.bblock b = sb.bblock a
  · rw [hblock, update_self, BitVec.getLsbD_put _ _ _ _ hlt]
    have hdiv : b / bpb = a / bpb := by
      rw [Superblock.bblock, Superblock.bblock] at hblock
      omega
    by_cases hba : b = a
    · rw [if_pos (by rw [hba]; omega), if_pos hba, hba, Nat.sub_self]
    · rw [if_neg (by rw [hbpb] at hdiv ⊢; omega), if_neg hba, bit, hblock]
  · have hba : b ≠ a := by
      rintro rfl
      exact hblock rfl
    rw [update_of_ne hblock, if_neg hba]
    rfl

/-! ### Soundness -/

/-- The block in a place of an inode of the file system. -/
def held (sb : Superblock) (d : Disk) (I : ℕ → Dinode) (c : ℕ × ℕ) : ℕ :=
  if c.1 < sb.ninodes then blockAt d (I c.1) c.2 else 0

/-- The block structure of the file system with the inodes `I`, when the blocks in `hand` are
allocated but in no place. -/
structure Sound (sb : Superblock) (d : Disk) (I : ℕ → Dinode) (hand : Finset ℕ) : Prop where
  laidOut : sb.LaidOut
  /-- No block is in two places, and the bits that are set in the data area are those of the blocks
  in places. -/
  owns : Owns (held sb d I) hand fun b ↦ sb.datastart ≤ b ∧ b < sb.size ∧ bit sb d b = true
  metadata : ∀ b < sb.datastart, bit sb d b = true
  size_le : ∀ i < sb.ninodes, (I i).size.toNat ≤ maxFile * bsize
  /-- There are no holes. -/
  full : ∀ i < sb.ninodes, ∀ k, k * bsize < (I i).size.toNat → blockAt d (I i) k ≠ 0
  free : ∀ i < sb.ninodes, (I i).type = 0 → ∀ k ≤ ndirect, (I i).addr k = 0

variable {I I' : ℕ → Dinode} {hand : Finset ℕ} {c : ℕ × ℕ}

theorem held_of_lt (hi : i < sb.ninodes) (p : ℕ) : held sb d I (i, p) = blockAt d (I i) p :=
  if_pos hi

theorem held_update_of_ne (h : c.1 ≠ i) (x : Dinode) :
    held sb d (update I i x) c = held sb d I c := by
  rw [held, held, update_of_ne h]

theorem held_update_self (hi : i < sb.ninodes) (x : Dinode) (p : ℕ) :
    held sb d (update I i x) (i, p) = blockAt d x p := by
  rw [held_of_lt hi, update_self]

/-- Only the indirect blocks matter. -/
theorem held_congr_ind (h : ∀ i < sb.ninodes, (I i).addr ndirect ≠ 0 →
    d' ((I i).addr ndirect).toNat = d ((I i).addr ndirect).toNat) :
    held sb d' I = held sb d I := by
  funext c
  rw [held, held]
  split_ifs with hc
  · exact blockAt_congr (h c.1 hc) (fun _ _ ↦ rfl) c.2
  · rfl

theorem toNat_ne_zero {w : ℕ} {y : BitVec w} (h : y ≠ 0) : y.toNat ≠ 0 := fun h0 ↦
  h (BitVec.eq_of_toNat_eq (by rw [h0]; rfl))

/-- Only blocks that are in places matter. -/
theorem held_congr (h : ∀ c, held sb d I c ≠ 0 → d' (held sb d I c) = d (held sb d I c)) :
    held sb d' I = held sb d I := by
  refine held_congr_ind fun i hi hne ↦ ?_
  have hind := h (i, maxFile)
  rw [held_of_lt hi, blockAt_ind] at hind
  exact hind (toNat_ne_zero hne)

namespace Sound

theorem held_mem_data (h : Sound sb d I hand) (hc : held sb d I c ≠ 0) :
    sb.datastart ≤ held sb d I c ∧ held sb d I c < sb.size :=
  ⟨(h.owns.used_of_hold hc).1, (h.owns.used_of_hold hc).2.1⟩

/-- What blocks have in them does not matter, apart from indirect blocks and the bitmap. -/
theorem of_held (h : Sound sb d I hand) (hheld : held sb d' I = held sb d I)
    (hbits : ∀ b < sb.size, bit sb d' b = bit sb d b) : Sound sb d' I hand := by
  have hle := Superblock.LaidOut.datastart_le sb
  refine ⟨h.laidOut, ?_, fun b hb ↦ ?_, h.size_le, fun i hi k hk ↦ ?_, h.free⟩
  · rw [hheld]
    refine h.owns.congr fun b ↦ and_congr_right fun _ ↦ and_congr_right fun hb ↦ ?_
    rw [hbits b hb]
  · rw [hbits b (by omega), h.metadata b hb]
  · rw [← held_of_lt hi, hheld, held_of_lt hi]
    exact h.full i hi k hk

/-- Only the inodes of the file system matter. -/
theorem congr_inodes (h : Sound sb d I hand) (hI : ∀ i < sb.ninodes, I' i = I i) :
    Sound sb d I' hand := by
  have hheld : held sb d I' = held sb d I := by
    funext c
    rw [held, held]
    split_ifs with hc
    · rw [hI c.1 hc]
    · rfl
  refine ⟨h.laidOut, by rw [hheld]; exact h.owns, h.metadata, fun i hi ↦ ?_, fun i hi ↦ ?_,
    fun i hi ↦ ?_⟩
  · rw [hI i hi]
    exact h.size_le i hi
  · rw [hI i hi]
    exact h.full i hi
  · rw [hI i hi]
    exact h.free i hi

/-- An inode changes, but for its block numbers; its size stays within its blocks. -/
theorem replace (h : Sound sb d (update I i x) hand) (hi : i < sb.ninodes)
    (haddr : ∀ k ≤ ndirect, x'.addr k = x.addr k) (hsize : x'.size.toNat ≤ maxFile * bsize)
    (hfull : ∀ k, k * bsize < x'.size.toNat → blockAt d x k ≠ 0)
    (hfree : x'.type = 0 → ∀ k ≤ ndirect, x'.addr k = 0) :
    Sound sb d (update I i x') hand := by
  have hblock : ∀ q, blockAt d x' q = blockAt d x q := blockAt_congr (fun _ ↦ rfl) haddr
  have hheld : held sb d (update I i x') = held sb d (update I i x) := by
    funext ⟨j, q⟩
    by_cases hj : j = i
    · rw [hj, held_update_self hi, held_update_self hi, hblock]
    · rw [held_update_of_ne hj, held_update_of_ne hj]
  refine ⟨h.laidOut, by rw [hheld]; exact h.owns, h.metadata, fun j hj ↦ ?_, fun j hj k ↦ ?_,
    fun j hj ↦ ?_⟩
  · by_cases hji : j = i
    · rwa [hji, update_self]
    · have hle := h.size_le j hj
      rwa [update_of_ne hji] at hle ⊢
  · by_cases hji : j = i
    · rw [hji, update_self, hblock]
      exact hfull k
    · have hk := h.full j hj k
      rwa [update_of_ne hji] at hk ⊢
  · by_cases hji : j = i
    · rwa [hji, update_self]
    · have hfree := h.free j hj
      rwa [update_of_ne hji] at hfree ⊢

/-- A block with a clear bit is a free block of the data area. -/
theorem free_mem_data (h : Sound sb d I hand) (hbit : bit sb d b = false) : sb.datastart ≤ b := by
  by_contra hlt
  rw [h.metadata b (by omega)] at hbit
  exact Bool.noConfusion hbit

theorem held_ne_of_free (h : Sound sb d I hand) (hbit : bit sb d b = false)
    (hc : held sb d I c ≠ 0) : held sb d I c ≠ b := by
  rintro rfl
  have hused := (h.owns.used_of_hold hc).2.2
  rw [hbit] at hused
  exact Bool.noConfusion hused

theorem ne_zero_of_free (h : Sound sb d I hand) (hbit : bit sb d b = false) : b ≠ 0 := by
  have hle := h.free_mem_data hbit
  have hpos := h.laidOut.datastart_pos
  omega

/-- Allocate a block: it is zeroed, its bit is set, and it is in hand. -/
theorem take (h : Sound sb d I hand) (ha : a < sb.size) (hbit : bit sb d a = false)
    (hbits : ∀ b < sb.size, bit sb d' b = (decide (b = a) || bit sb d b))
    (hd : ∀ c, held sb d I c ≠ 0 → d' (held sb d I c) = d (held sb d I c)) :
    Sound sb d' I (insert a hand) := by
  have hheld := held_congr hd
  have hblock : ∀ i < sb.ninodes, ∀ k, blockAt d' (I i) k = blockAt d (I i) k := fun i hi k ↦ by
    rw [← held_of_lt hi, ← held_of_lt hi, hheld]
  have hle := Superblock.LaidOut.datastart_le sb
  refine ⟨h.laidOut, ?_, fun b hb ↦ ?_, h.size_le, fun i hi k hk ↦ ?_, h.free⟩
  · rw [hheld]
    refine (h.owns.take (fun hused ↦ ?_) (h.ne_zero_of_free hbit)).congr fun b ↦ ?_
    · rw [hbit] at hused
      exact Bool.noConfusion hused.2.2
    · by_cases hb : b < sb.size
      · rw [hbits b hb, Bool.or_eq_true, decide_eq_true_eq]
        constructor
        · rintro ⟨h₁, h₂, rfl | h₃⟩
          · exact .inl rfl
          · exact .inr ⟨h₁, h₂, h₃⟩
        · rintro (rfl | ⟨h₁, h₂, h₃⟩)
          · exact ⟨h.free_mem_data hbit, hb, .inl rfl⟩
          · exact ⟨h₁, h₂, .inr h₃⟩
      · constructor
        · rintro ⟨-, h₂, -⟩
          exact absurd h₂ hb
        · rintro (rfl | ⟨-, h₂, -⟩)
          · exact absurd ha hb
          · exact absurd h₂ hb
  · rw [hbits b (by omega), h.metadata b hb, Bool.or_true]
  · rw [hblock i hi]
    exact h.full i hi k hk

/-- A block in hand gets a place of an inode. -/
theorem put (h : Sound sb d I hand) (ha : a ∈ hand) (hi : i < sb.ninodes)
    (hp : blockAt d (I i) p = 0)
    (hheld : held sb d' I' = update (held sb d I) (i, p) a)
    (hbits : ∀ b < sb.size, bit sb d' b = bit sb d b)
    (hsize : ∀ j < sb.ninodes, (I' j).size = (I j).size)
    (hfree : ∀ j < sb.ninodes, (I' j).type = 0 → ∀ k ≤ ndirect, (I' j).addr k = 0) :
    Sound sb d' I' (hand.erase a) := by
  have hle := Superblock.LaidOut.datastart_le sb
  refine ⟨h.laidOut, ?_, fun b hb ↦ ?_, fun j hj ↦ ?_, fun j hj k hk ↦ ?_, hfree⟩
  · rw [hheld]
    refine (h.owns.put ha ?_).congr fun b ↦ ?_
    · rw [held_of_lt hi, hp]
    · refine and_congr_right fun _ ↦ and_congr_right fun hb ↦ ?_
      rw [hbits b hb]
  · rw [hbits b (by omega), h.metadata b hb]
  · rw [hsize j hj]
    exact h.size_le j hj
  · rw [hsize j hj] at hk
    have hold := h.full j hj k hk
    rw [← held_of_lt hj, hheld]
    by_cases hjk : (j, k) = (i, p)
    · rw [hjk, update_self]
      rintro rfl
      exact h.owns.zero ha
    · rw [update_of_ne hjk, held_of_lt hj]
      exact hold

end Sound

end Xv6.Fs.Kernel

import Xv6.Fs.Read

/-!
# Files, as their inodes map them

`Maps d ip f` says that the block numbers in the inode `ip` and in its indirect block are those of
the file `f`, in order and with nothing after them, and that its blocks have its bytes, filled up
with zeroes. It does not mention the size in the inode, which `mkfs` rounds up for the root
directory and which is out of date while a file is being written.

From it follows what the kernel reads: `bmap` finds the blocks of the file and allocates behind
them, and `readi` returns the bytes as long as the size does not reach past the blocks.
-/

namespace Xv6.Fs

open Option

/-- A file: the type of its inode, its bytes, the blocks that have them, and the indirect block. -/
structure File where
  type : BitVec 16
  bytes : List Byte
  blocks : List ℕ
  ind : Option ℕ

namespace File

/-- All blocks of a file. -/
def owned (f : File) : List ℕ := f.blocks ++ f.ind.toList

/-- Byte `j` of a file, and the zeroes behind its end. -/
def byte (f : File) (j : ℕ) : Byte := f.bytes.getD j 0

theorem mem_owned_of_getElem? {f : File} {k b : ℕ} (h : f.blocks[k]? = some b) : b ∈ f.owned :=
  List.mem_append_left _ (List.mem_of_getElem? h)

theorem mem_owned_of_ind {f : File} {b : ℕ} (h : f.ind = some b) : b ∈ f.owned :=
  List.mem_append_right _ (by rw [h]; exact List.mem_singleton_self b)

end File

/-- The inode `ip` is that of the file `f` on the disk `d`. -/
structure Maps (d : Disk) (ip : Dinode) (f : File) : Prop where
  type : ip.type = f.type
  covers : f.bytes.length ≤ bsize * f.blocks.length
  length_le : f.blocks.length ≤ maxFile
  ne_zero : ∀ b ∈ f.owned, b ≠ 0
  direct : ∀ k < ndirect, (ip.addr k).toNat = f.blocks.getD k 0
  indirect : (ip.addr ndirect).toNat = f.ind.getD 0
  ind_isSome : f.ind.isSome ↔ ndirect < f.blocks.length
  entry : ∀ b, f.ind = some b → ∀ k < nindirect,
    (wordAt (d b) k).toNat = f.blocks.getD (ndirect + k) 0
  byte : ∀ k b, f.blocks[k]? = some b → ∀ j < bsize, byteAt (d b) j = f.byte (bsize * k + j)

variable {d : Disk} {ip : Dinode} {f : File}

theorem ne_zero_of_toNat {w b : ℕ} {x : BitVec w} (h : x.toNat = b) (hb : b ≠ 0) : x ≠ 0 := by
  rintro rfl
  exact hb (h.symm.trans BitVec.toNat_zero)

theorem eq_zero_of_toNat {w : ℕ} {x : BitVec w} (h : x.toNat = 0) : x = 0 :=
  BitVec.eq_of_toNat_eq (h.trans BitVec.toNat_zero.symm)

/-- A range before the end of the file is read as it is. -/
theorem readi_inside {off n : ℕ} (hsize : off + n ≤ ip.size.toNat) :
    readi d ip (.ofNat 32 off) (.ofNat 32 n) = readiLoop d ip off n := by
  have hlt := ip.size.isLt
  have hoff : (BitVec.ofNat 32 off).toNat = off := by
    rw [BitVec.toNat_ofNat, Nat.mod_eq_of_lt (by omega)]
  have hn : (BitVec.ofNat 32 n).toNat = n := by
    rw [BitVec.toNat_ofNat, Nat.mod_eq_of_lt (by omega)]
  have hsum : (BitVec.ofNat 32 off + BitVec.ofNat 32 n).toNat = off + n := by
    rw [BitVec.toNat_add, hoff, hn, Nat.mod_eq_of_lt (by omega)]
  have hguard : ¬(ip.size < BitVec.ofNat 32 off ∨
      BitVec.ofNat 32 off + BitVec.ofNat 32 n < BitVec.ofNat 32 off) := by
    rw [BitVec.lt_def, BitVec.lt_def, hsum, hoff]
    omega
  have hcut : ¬ip.size < BitVec.ofNat 32 off + BitVec.ofNat 32 n := by
    rw [BitVec.lt_def, hsum]
    omega
  rw [readi, if_neg hguard]
  dsimp only
  rw [if_neg hcut, hoff, hn]

namespace Maps

/-- Only the blocks of the file matter. -/
theorem congr (h : Maps d ip f) {d' : Disk} (hd : ∀ b ∈ f.owned, d' b = d b) : Maps d' ip f :=
  { h with
    entry := fun b hb ↦ by
      rw [hd b (File.mem_owned_of_ind hb)]
      exact h.entry b hb
    byte := fun k b hb ↦ by
      rw [hd b (File.mem_owned_of_getElem? hb)]
      exact h.byte k b hb }

/-! ### Blocks -/

theorem getD_blocks {k b : ℕ} (hb : f.blocks[k]? = some b) : f.blocks.getD k 0 = b := by
  rw [List.getD_eq_getElem?_getD, hb, getD_some]

theorem getD_blocks_of_le {k : ℕ} (hk : f.blocks.length ≤ k) : f.blocks.getD k 0 = 0 := by
  rw [List.getD_eq_getElem?_getD, List.getElem?_eq_none hk, getD_none]

theorem bmap_eq (h : Maps d ip f) {k b : ℕ} (hb : f.blocks[k]? = some b) : bmap d ip k = .ok b := by
  obtain ⟨hk, -⟩ := List.getElem?_eq_some_iff.1 hb
  have hle := h.length_le
  have hb0 : b ≠ 0 := h.ne_zero b (File.mem_owned_of_getElem? hb)
  rw [maxFile_eq] at hle
  rw [bmap]
  by_cases hdir : k < ndirect
  · have haddr := (h.direct k hdir).trans (getD_blocks hb)
    rw [if_pos hdir, if_neg (ne_zero_of_toNat haddr hb0), haddr]
  · have hlt : k - ndirect < nindirect := by
      rw [ndirect_eq] at hdir ⊢
      rw [nindirect_eq]
      omega
    obtain ⟨i, hi⟩ := isSome_iff_exists.1 (h.ind_isSome.2 (by omega))
    have hind : (ip.addr ndirect).toNat = i := by rw [h.indirect, hi, getD_some]
    have hword := h.entry i hi (k - ndirect) hlt
    rw [Nat.add_sub_cancel' (Nat.not_lt.1 hdir), getD_blocks hb] at hword
    rw [if_neg hdir, if_pos hlt,
      if_neg (ne_zero_of_toNat hind (h.ne_zero i (File.mem_owned_of_ind hi)))]
    dsimp only
    rw [hind, if_neg (ne_zero_of_toNat hword hb0), hword]

/-- Behind the blocks of a file `bmap` allocates. -/
theorem bmap_of_le (h : Maps d ip f) {k : ℕ} (hk : f.blocks.length ≤ k) (hk' : k < maxFile) :
    bmap d ip k = .error .allocates := by
  rw [bmap]
  by_cases hdir : k < ndirect
  · rw [if_pos hdir, if_pos (eq_zero_of_toNat ((h.direct k hdir).trans (getD_blocks_of_le hk)))]
  · have hlt : k - ndirect < nindirect := by
      rw [maxFile_eq] at hk'
      rw [ndirect_eq, nindirect_eq]
      omega
    rw [if_neg hdir, if_pos hlt]
    cases hi : f.ind with
    | none =>
      rw [if_pos (eq_zero_of_toNat (by rw [h.indirect, hi, getD_none]))]
    | some i =>
      have hind : (ip.addr ndirect).toNat = i := by rw [h.indirect, hi, getD_some]
      have hword := h.entry i hi (k - ndirect) hlt
      rw [Nat.add_sub_cancel' (Nat.not_lt.1 hdir), getD_blocks_of_le hk] at hword
      rw [if_neg (ne_zero_of_toNat hind (h.ne_zero i (File.mem_owned_of_ind hi)))]
      dsimp only
      rw [hind, if_pos (eq_zero_of_toNat hword)]

/-! ### Bytes -/

/-- Within one block. -/
theorem slice_block (h : Maps d ip f) {off m b : ℕ} (hb : f.blocks[off / bsize]? = some b)
    (hm : off % bsize + m ≤ bsize) :
    slice (byteAt (d b)) (off % bsize) m = slice f.byte off m := by
  refine slice_congr fun j hj ↦ ?_
  rw [h.byte _ b hb _ (by omega), ← Nat.add_assoc, Nat.div_add_mod]

theorem readiLoop_eq (h : Maps d ip f) {off n : ℕ} (hn : off + n ≤ bsize * f.blocks.length) :
    readiLoop d ip off n = .ok (slice f.byte off n) := by
  induction n using Nat.strongRecOn generalizing off with
  | _ n ih =>
    rw [readiLoop]
    by_cases h0 : n = 0
    · rw [if_pos h0, h0, slice_zero]
    · have hblk : off / bsize < f.blocks.length := Nat.div_lt_of_lt_mul (by omega)
      have hmod := Nat.mod_lt off (show 0 < bsize by decide)
      have hb := List.getElem?_eq_getElem hblk
      rw [if_neg h0, h.bmap_eq hb]
      show (readiLoop d ip _ _ >>= _) = _
      rw [ih _ (by omega) (by omega)]
      show Except.ok _ = _
      rw [h.slice_block hb (by omega), ← slice_add]
      congr 2
      omega

/-- A range before the end of the file, within its blocks. -/
theorem readi_of_le (h : Maps d ip f) {off n : ℕ} (hsize : off + n ≤ ip.size.toNat)
    (hn : off + n ≤ bsize * f.blocks.length) :
    readi d ip (.ofNat 32 off) (.ofNat 32 n) = .ok (slice f.byte off n) := by
  rw [readi_inside hsize, h.readiLoop_eq hn]

/-- Behind the blocks of the file, a read before its end comes to an allocation. -/
theorem readi_of_hole (h : Maps d ip f) {off n : ℕ} (hsize : off + n ≤ ip.size.toNat) (hn : n ≠ 0)
    (hhole : f.blocks.length ≤ off / bsize) (hmax : off / bsize < maxFile) :
    readi d ip (.ofNat 32 off) (.ofNat 32 n) = .error .allocates := by
  rw [readi_inside hsize, readiLoop, if_neg hn, h.bmap_of_le hhole hmax]
  rfl

/-- **What `readi` returns.** The bytes of the file, as long as the size in the inode does not reach
past its blocks; nothing, if the end of the range is past the largest `uint`. -/
theorem readi_eq (h : Maps d ip f) (hsize : ip.size.toNat ≤ bsize * f.blocks.length)
    (off n : BitVec 32) :
    readi d ip off n = .ok (if off.toNat + n.toNat < 2 ^ 32 then
      slice f.byte off.toNat (min n.toNat (ip.size.toNat - off.toNat)) else []) := by
  have hoff := off.isLt
  have hnlt := n.isLt
  rw [readi]
  by_cases hwrap : off.toNat + n.toNat < 2 ^ 32
  · have hsum : (off + n).toNat = off.toNat + n.toNat := by
      rw [BitVec.toNat_add, Nat.mod_eq_of_lt hwrap]
    rw [if_pos hwrap]
    by_cases hlt : ip.size.toNat < off.toNat
    · rw [if_pos (.inl hlt), show ip.size.toNat - off.toNat = 0 by omega, Nat.min_zero, slice_zero]
    · have hguard : ¬(ip.size < off ∨ off + n < off) := by
        rw [BitVec.lt_def, BitVec.lt_def, hsum]
        omega
      rw [if_neg hguard]
      dsimp only
      by_cases hcut : ip.size < off + n
      · have hsub : (ip.size - off).toNat = ip.size.toNat - off.toNat :=
          BitVec.toNat_sub_of_le (Nat.not_lt.1 hlt)
        rw [BitVec.lt_def, hsum] at hcut
        rw [if_pos (by rw [BitVec.lt_def, hsum]; exact hcut), hsub,
          h.readiLoop_eq (by omega), Nat.min_eq_right (by omega)]
      · rw [BitVec.lt_def, hsum] at hcut
        rw [if_neg (by rw [BitVec.lt_def, hsum]; exact hcut), h.readiLoop_eq (by omega),
          Nat.min_eq_left (by omega)]
  · have hsum : (off + n).toNat = off.toNat + n.toNat - 2 ^ 32 := by
      rw [BitVec.toNat_add, Nat.mod_eq_sub_mod (by omega), Nat.mod_eq_of_lt (by omega)]
    have hlt : off + n < off := by
      rw [BitVec.lt_def, hsum]
      omega
    rw [if_neg hwrap, if_pos (.inr hlt)]

end Maps

end Xv6.Fs

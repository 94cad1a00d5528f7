import Mathlib.Data.List.Nodup
import Xv6.Fs.Contents
import Xv6.Library.Outcome
import Xv6.Mkfs.Model

/-!
# Appending to a file

The loop of `iappend` keeps an inode in memory, the blocks of its file on disk and the counter
`freeblock`. `Ready` is what holds of them before every turn: the inode maps a file that has just as
many blocks as its bytes need, and the blocks from `freeblock` on are zero, which is why a new
indirect block is an empty one. A turn finds or takes the block at the end of the file
(`fileBlock_outcome`) and copies bytes into it (`Maps.write`); what the whole loop does is
`iappendLoop_outcome`.
-/

namespace Xv6.Mkfs

open Fs Function List Option

/-! ### Blocks a file needs -/

/-- The blocks of a file of `len` bytes, its indirect block included. -/
def need (len : ℕ) : ℕ :=
  (len + bsize - 1) / bsize + if ndirect * bsize < len then 1 else 0

theorem need_mono {a b : ℕ} (h : a ≤ b) : need a ≤ need b := by
  have hdiv : (a + bsize - 1) / bsize ≤ (b + bsize - 1) / bsize := Nat.div_le_div_right (by omega)
  rw [need, need]
  split_ifs <;> omega

/-- How many blocks a file takes when its next block is added. -/
def newBlocks (f : File) : ℕ := if f.blocks.length = ndirect then 2 else 1

/-- The next block of a file, taken from `fb` on; with the thirteenth comes the indirect block. -/
def addBlock (f : File) (fb : ℕ) : File :=
  if f.blocks.length = ndirect then { f with blocks := f.blocks ++ [fb + 1], ind := some fb }
  else { f with blocks := f.blocks ++ [fb] }

variable {m : State} {din : Dinode} {f : File} {d : Disk} {fb : ℕ}

@[simp] theorem bytes_addBlock : (addBlock f fb).bytes = f.bytes := by
  rw [addBlock]
  split_ifs <;> rfl

@[simp] theorem type_addBlock : (addBlock f fb).type = f.type := by
  rw [addBlock]
  split_ifs <;> rfl

theorem blocks_addBlock : (addBlock f fb).blocks = f.blocks ++ [fb + newBlocks f - 1] := by
  rw [addBlock, newBlocks]
  split_ifs <;> rfl

theorem owned_addBlock (h : f.ind.isSome ↔ ndirect < f.blocks.length) :
    (addBlock f fb).owned.Perm (f.owned ++ List.range' fb (newBlocks f)) := by
  rw [addBlock, newBlocks]
  by_cases hlen : f.blocks.length = ndirect
  · have hnone : f.ind = none := by
      rw [← not_isSome_iff_eq_none, h]
      omega
    rw [if_pos hlen, if_pos hlen, File.owned, File.owned, hnone]
    simp only [toList_some, toList_none, append_nil, append_assoc]
    exact List.Perm.append_left _ (List.Perm.swap _ _ _)
  · rw [if_neg hlen, if_neg hlen, File.owned, File.owned]
    simp only [append_assoc]
    exact List.Perm.append_left _ perm_append_comm

theorem getD_append_singleton (l : List ℕ) (x k : ℕ) :
    (l ++ [x]).getD k 0 = if k = l.length then x else l.getD k 0 := by
  simp only [getD_eq_getElem?_getD]
  rcases Nat.lt_trichotomy k l.length with h | rfl | h
  · rw [if_neg (by omega), List.getElem?_append_left h]
  · rw [if_pos rfl, List.getElem?_concat_length, getD_some]
  · have hlen : (l ++ [x]).length ≤ k := by
      rw [length_append, length_singleton]
      omega
    rw [if_neg (by omega), List.getElem?_eq_none hlen, List.getElem?_eq_none (Nat.le_of_lt h)]

/-! ### One turn of the loop -/

/-- Before a turn of the loop: the inode in memory is that of `f`, the file has no block too many,
and `freeblock` is behind its blocks. -/
structure Ready (m : State) (din : Dinode) (f : File) : Prop where
  maps : Maps m.disk din f
  tight : f.blocks.length = (f.bytes.length + bsize - 1) / bsize
  nodup : f.owned.Nodup
  lt : ∀ b ∈ f.owned, b < m.freeblock
  fresh : ∀ b, m.freeblock ≤ b → m.disk b = 0
  pos : 0 < m.freeblock
  room : m.freeblock ≤ fssize

/-- What `fileBlock` has done when it returns `r`: the file `f` has become `f'`, with the same bytes
and with the block `fbn` that the result names. -/
structure Located (m : State) (f : File) (fbn k : ℕ) (r : State × Dinode × ℕ) (f' : File) :
    Prop where
  maps : Maps r.1.disk r.2.1 f'
  type : f'.type = f.type
  bytes : f'.bytes = f.bytes
  length : f'.blocks.length = fbn + 1
  block : f'.blocks[fbn]? = some r.2.2
  owned : f'.owned.Perm (f.owned ++ List.range' m.freeblock k)
  freeblock : r.1.freeblock = m.freeblock + k
  last : k = 0 ∨ r.2.2 + 1 = m.freeblock + k
  freeinode : r.1.freeinode = m.freeinode
  frame : ∀ b ∉ f'.owned, r.1.disk b = m.disk b

theorem ofNat_toNat_of_le (h : fb ≤ fssize + 1) : (BitVec.ofNat 32 fb).toNat = fb := by
  rw [BitVec.toNat_ofNat, Nat.mod_eq_of_lt]
  have : fssize = 2000 := rfl
  omega

theorem rsect_of_lt (h : fb < fssize) : rsect d fb = .ok (d fb) := if_pos h

/-- A block that the file has is found. -/
theorem fileBlock_of_block (h : Ready m din f) {k x : ℕ} (hx : f.blocks[k]? = some x) :
    fileBlock m din k = .ok (m, din, x) := by
  obtain ⟨hk, -⟩ := List.getElem?_eq_some_iff.1 hx
  have hx0 := h.maps.ne_zero x (File.mem_owned_of_getElem? hx)
  have hle := h.maps.length_le
  rw [maxFile_eq] at hle
  rw [fileBlock]
  by_cases hdir : k < ndirect
  · have haddr := (h.maps.direct k hdir).trans (Maps.getD_blocks hx)
    rw [if_pos hdir]
    simp only [allocAddr, xint_eq, if_neg (ne_zero_of_toNat haddr hx0), haddr]
  · have hlt : k - ndirect < nindirect := by
      rw [ndirect_eq] at hdir ⊢
      rw [nindirect_eq]
      omega
    obtain ⟨i, hi⟩ := isSome_iff_exists.1 (h.maps.ind_isSome.2 (by omega))
    have hind : (din.addr ndirect).toNat = i := by rw [h.maps.indirect, hi, getD_some]
    have hi0 := h.maps.ne_zero i (File.mem_owned_of_ind hi)
    have hroom := h.lt i (File.mem_owned_of_ind hi)
    have hword := h.maps.entry i hi (k - ndirect) hlt
    rw [Nat.add_sub_cancel' (Nat.not_lt.1 hdir), Maps.getD_blocks hx] at hword
    rw [if_neg hdir]
    simp only [allocAddr, xint_eq, if_neg (ne_zero_of_toNat hind hi0), hind,
      rsect_of_lt (d := m.disk) (Nat.lt_of_lt_of_le hroom h.room), except_ok_bind,
      if_neg (ne_zero_of_toNat hword hx0), hword]

theorem getElem?_addBlock (k : ℕ) {b : ℕ} (hb : (addBlock f fb).blocks[k]? = some b) :
    f.blocks[k]? = some b ∨ k = f.blocks.length ∧ b = fb + newBlocks f - 1 := by
  rw [blocks_addBlock] at hb
  rcases Nat.lt_trichotomy k f.blocks.length with hk | rfl | hk
  · rw [List.getElem?_append_left hk] at hb
    exact .inl hb
  · rw [List.getElem?_concat_length, some_inj] at hb
    exact .inr ⟨rfl, hb.symm⟩
  · rw [List.getElem?_eq_none (by rw [length_append, length_singleton]; omega)] at hb
    exact nomatch hb

/-- The file with its next block, given what the inode and the indirect block say of it. The block
has the zeroes behind the end of the file. -/
theorem maps_addBlock (h : Ready m din f) (hlen : f.blocks.length < maxFile) {d' : Disk}
    {din' : Dinode} (htype : din'.type = din.type)
    (hdisk : ∀ k b : ℕ, (addBlock f m.freeblock).blocks[k]? = some b → d' b = m.disk b)
    (hdirect : ∀ k < ndirect, (din'.addr k).toNat =
      if k = f.blocks.length then m.freeblock + newBlocks f - 1 else (din.addr k).toNat)
    (hindirect : (din'.addr ndirect).toNat = (addBlock f m.freeblock).ind.getD 0)
    (hentry : ∀ b, (addBlock f m.freeblock).ind = some b → ∀ k < nindirect,
      (wordAt (d' b) k).toNat = if ndirect + k = f.blocks.length then
        m.freeblock + newBlocks f - 1 else f.blocks.getD (ndirect + k) 0) :
    Maps d' din' (addBlock f m.freeblock) where
  type := by rw [htype, h.maps.type, type_addBlock]
  covers := by
    have hcov := h.maps.covers
    rw [bytes_addBlock, blocks_addBlock, length_append, length_singleton, Nat.mul_add]
    omega
  length_le := by
    rw [blocks_addBlock, length_append, length_singleton]
    exact hlen
  ne_zero b hb := by
    rcases mem_append.1 ((owned_addBlock h.maps.ind_isSome).subset hb) with hb | hb
    · exact h.maps.ne_zero b hb
    · have hpos := h.pos
      have hle := (mem_range'_1.1 hb).1
      omega
  direct k hk := by
    rw [hdirect k hk, blocks_addBlock, getD_append_singleton, h.maps.direct k hk]
  indirect := hindirect
  ind_isSome := by
    have hind := h.maps.ind_isSome
    rw [blocks_addBlock, length_append, length_singleton, addBlock]
    split_ifs with hn
    · simp [hn]
    · rw [hind]
      omega
  entry b hb k hk := by
    rw [hentry b hb k hk, blocks_addBlock, getD_append_singleton]
  byte k b hb j hj := by
    have hcov := h.maps.covers
    rw [hdisk k b hb, File.byte, bytes_addBlock]
    rcases getElem?_addBlock k hb with hb | ⟨rfl, rfl⟩
    · exact h.maps.byte k b hb j hj
    · rw [h.fresh _ (by rw [newBlocks]; split_ifs <;> omega), byteAt_zero,
        getD_eq_getElem?_getD, List.getElem?_eq_none (by omega), getD_none]

/-- The file has its next block once its inode maps it. -/
theorem located_addBlock (h : Ready m din f) {r : State × Dinode × ℕ}
    (hmaps : Maps r.1.disk r.2.1 (addBlock f m.freeblock))
    (hx : r.2.2 = m.freeblock + newBlocks f - 1)
    (hfree : r.1.freeblock = m.freeblock + newBlocks f) (hino : r.1.freeinode = m.freeinode)
    (hframe : ∀ b ∉ (addBlock f m.freeblock).owned, r.1.disk b = m.disk b) :
    Located m f f.blocks.length (newBlocks f) r (addBlock f m.freeblock) where
  maps := hmaps
  type := type_addBlock
  bytes := bytes_addBlock
  length := by rw [blocks_addBlock, length_append, length_singleton]
  block := by rw [blocks_addBlock, List.getElem?_concat_length, hx]
  owned := owned_addBlock h.maps.ind_isSome
  freeblock := hfree
  last := by
    rw [hx, newBlocks]
    split_ifs <;> omega
  freeinode := hino
  frame := hframe

/-- A direct block is taken from `freeblock`. -/
theorem fileBlock_direct (h : Ready m din f) (hlen : f.blocks.length < ndirect) :
    ∃ r, fileBlock m din f.blocks.length = .ok r ∧
      Located m f f.blocks.length (newBlocks f) r (addBlock f m.freeblock) := by
  have hroom := h.room
  have hfb : (BitVec.ofNat 32 m.freeblock).toNat = m.freeblock := ofNat_toNat_of_le (by omega)
  have hnew : newBlocks f = 1 := if_neg (by omega)
  have hadd : addBlock f m.freeblock = { f with blocks := f.blocks ++ [m.freeblock] } :=
    if_neg (by omega)
  have hzero : din.addr f.blocks.length = 0 :=
    eq_zero_of_toNat ((h.maps.direct _ hlen).trans (Maps.getD_blocks_of_le (Nat.le_refl _)))
  refine ⟨({ m with freeblock := m.freeblock + 1 },
    din.setAddr f.blocks.length (.ofNat 32 m.freeblock), m.freeblock), ?_, ?_⟩
  · rw [fileBlock, if_pos hlen]
    simp only [allocAddr, xint_eq, if_pos hzero]
    rw [Dinode.addr_setAddr_self _ (Nat.le_of_lt hlen), hfb]
  · refine located_addBlock h (maps_addBlock h ?_ (Dinode.type_setAddr ..) (fun _ _ _ ↦ rfl) ?_ ?_
      ?_) (by rw [hnew]; rfl) (by rw [hnew]) rfl fun _ _ ↦ rfl
    · rw [maxFile_eq]
      rw [ndirect_eq] at hlen
      omega
    · intro k hk
      split_ifs with hkl
      · rw [hkl, Dinode.addr_setAddr_self _ (Nat.le_of_lt hlen), hfb, hnew]
        rfl
      · rw [Dinode.addr_setAddr_of_ne _ hkl]
    · rw [Dinode.addr_setAddr_of_ne _ (by omega), h.maps.indirect, hadd]
    · intro b hb
      rw [hadd] at hb
      have := h.maps.ind_isSome.1 (isSome_iff_exists.2 ⟨b, hb⟩)
      omega

/-- With the first block behind the direct ones comes the indirect block, which is still empty. -/
theorem fileBlock_first (h : Ready m din f) (hlen : f.blocks.length = ndirect)
    (hlt : m.freeblock < fssize) :
    ∃ r, fileBlock m din f.blocks.length = .ok r ∧
      Located m f f.blocks.length (newBlocks f) r (addBlock f m.freeblock) := by
  have hfb : (BitVec.ofNat 32 m.freeblock).toNat = m.freeblock := ofNat_toNat_of_le (by omega)
  have hfb' : (BitVec.ofNat 32 (m.freeblock + 1)).toNat = m.freeblock + 1 :=
    ofNat_toNat_of_le (by omega)
  have hnew : newBlocks f = 2 := if_pos hlen
  have hadd : addBlock f m.freeblock =
      { f with blocks := f.blocks ++ [m.freeblock + 1], ind := some m.freeblock } := if_pos hlen
  have hnone : f.ind = none := by
    rw [← not_isSome_iff_eq_none, h.maps.ind_isSome]
    omega
  have hzero : din.addr ndirect = 0 :=
    eq_zero_of_toNat (h.maps.indirect.trans (by rw [hnone, getD_none]))
  have hempty : m.disk m.freeblock = 0 := h.fresh _ (Nat.le_refl _)
  refine ⟨({ m with
      disk := wsect m.disk m.freeblock (setWord 0 0 (.ofNat 32 (m.freeblock + 1)))
      freeblock := m.freeblock + 2 },
    din.setAddr ndirect (.ofNat 32 m.freeblock), m.freeblock + 1), ?_, ?_⟩
  · rw [fileBlock, if_neg (by omega), hlen, Nat.sub_self]
    simp only [allocAddr, xint_eq, if_pos hzero, Dinode.addr_setAddr_self _ (Nat.le_refl _), hfb,
      rsect_of_lt (d := m.disk) hlt, hempty, except_ok_bind, if_pos (wordAt_zero 0)]
    rw [wordAt_setWord_self _ (by decide), hfb']
  · refine located_addBlock h (maps_addBlock h ?_ (Dinode.type_setAddr ..) ?_ ?_ ?_ ?_)
      (by rw [hnew]; rfl) (by rw [hnew]) rfl ?_
    · rw [hlen]
      decide
    · intro k b hb
      refine update_of_ne ?_ _ _
      rcases getElem?_addBlock k hb with hb | ⟨-, rfl⟩
      · have := h.lt b (File.mem_owned_of_getElem? hb)
        omega
      · omega
    · intro k hk
      rw [if_neg (by omega), Dinode.addr_setAddr_of_ne _ (by omega)]
    · rw [Dinode.addr_setAddr_self _ (Nat.le_refl _), hfb, hadd]
      rfl
    · intro b hb k hk
      rw [hadd, some_inj] at hb
      dsimp only
      rw [← hb, wsect, update_self, hlen]
      split_ifs with hk0
      · rw [show k = 0 by omega, wordAt_setWord_self _ (by decide), hfb', hnew]
        rfl
      · rw [wordAt_setWord_of_ne _ (by omega), wordAt_zero, Maps.getD_blocks_of_le (by omega)]
        rfl
    · intro b hb
      refine update_of_ne ?_ _ _
      rintro rfl
      exact hb (File.mem_owned_of_ind (by rw [hadd]))

/-- There may be no room for the indirect block. -/
theorem fileBlock_full (h : Ready m din f) (hlen : f.blocks.length = ndirect)
    (hge : fssize ≤ m.freeblock) : fileBlock m din f.blocks.length = .error .read := by
  have hroom := h.room
  have hfb : (BitVec.ofNat 32 m.freeblock).toNat = m.freeblock := ofNat_toNat_of_le (by omega)
  have hnone : f.ind = none := by
    rw [← not_isSome_iff_eq_none, h.maps.ind_isSome]
    omega
  have hzero : din.addr ndirect = 0 :=
    eq_zero_of_toNat (h.maps.indirect.trans (by rw [hnone, getD_none]))
  rw [fileBlock, if_neg (by omega)]
  simp only [allocAddr, xint_eq, if_pos hzero, Dinode.addr_setAddr_self _ (Nat.le_refl _), hfb,
    rsect, if_neg (Nat.not_lt.2 hge)]
  rfl

/-- A later block is entered in the indirect block. -/
theorem fileBlock_indirect (h : Ready m din f) (hlen : ndirect < f.blocks.length)
    (hmax : f.blocks.length < maxFile) :
    ∃ r, fileBlock m din f.blocks.length = .ok r ∧
      Located m f f.blocks.length (newBlocks f) r (addBlock f m.freeblock) := by
  have hroom := h.room
  have hfb : (BitVec.ofNat 32 m.freeblock).toNat = m.freeblock := ofNat_toNat_of_le (by omega)
  have hnew : newBlocks f = 1 := if_neg (by omega)
  have hadd : addBlock f m.freeblock = { f with blocks := f.blocks ++ [m.freeblock] } :=
    if_neg (by omega)
  have hidx : f.blocks.length - ndirect < nindirect := by
    rw [maxFile_eq] at hmax
    rw [ndirect_eq, nindirect_eq]
    omega
  obtain ⟨i, hi⟩ := isSome_iff_exists.1 (h.maps.ind_isSome.2 hlen)
  have hind : (din.addr ndirect).toNat = i := by rw [h.maps.indirect, hi, getD_some]
  have hi0 := h.maps.ne_zero i (File.mem_owned_of_ind hi)
  have hilt := h.lt i (File.mem_owned_of_ind hi)
  have hentry := h.maps.entry i hi
  have hzero : wordAt (m.disk i) (f.blocks.length - ndirect) = 0 := by
    refine eq_zero_of_toNat ((hentry _ hidx).trans (Maps.getD_blocks_of_le ?_))
    omega
  have hblock : ∀ k b : ℕ, (addBlock f m.freeblock).blocks[k]? = some b → b ≠ i := by
    rintro k b hb rfl
    rcases getElem?_addBlock k hb with hb | ⟨-, hb⟩
    · exact (nodup_append.1 h.nodup).2.2 b (mem_of_getElem? hb) b
        (by rw [hi]; exact mem_singleton_self b) rfl
    · rw [hnew] at hb
      omega
  refine ⟨({ m with
      disk := wsect m.disk i
        (setWord (m.disk i) (f.blocks.length - ndirect) (.ofNat 32 m.freeblock))
      freeblock := m.freeblock + 1 }, din, m.freeblock), ?_, ?_⟩
  · rw [fileBlock, if_neg (by omega)]
    simp only [allocAddr, xint_eq, if_neg (ne_zero_of_toNat hind hi0), hind,
      rsect_of_lt (d := m.disk) (Nat.lt_of_lt_of_le hilt hroom), except_ok_bind, if_pos hzero]
    rw [wordAt_setWord_self _ hidx, hfb]
  · refine located_addBlock h (maps_addBlock h hmax rfl ?_ ?_ ?_ ?_) (by rw [hnew]; rfl)
      (by rw [hnew]) rfl ?_
    · exact fun k b hb ↦ update_of_ne (hblock k b hb) _ _
    · intro k hk
      rw [if_neg (by omega)]
    · rw [hadd]
      exact h.maps.indirect
    · intro b hb k hk
      rw [hadd] at hb
      dsimp only
      rw [← some_inj.1 (hi.symm.trans hb), wsect, update_self]
      split_ifs with hkl
      · rw [show k = f.blocks.length - ndirect by omega, wordAt_setWord_self _ hidx, hfb, hnew]
        rfl
      · rw [wordAt_setWord_of_ne _ (by omega), hentry k hk]
    · intro b hb
      refine update_of_ne ?_ _ _
      rintro rfl
      exact hb (File.mem_owned_of_ind (by rw [hadd]; exact hi))

/-- The blocks that the next turn of the loop takes. -/
def turnBlocks (f : File) : ℕ := if f.bytes.length % bsize = 0 then newBlocks f else 0

/-- **The block at the end of a file.** It is found if the last block is not full; otherwise the
next one is taken, unless there is no room for the indirect block. -/
theorem fileBlock_outcome (h : Ready m din f) (hmax : f.bytes.length / bsize < maxFile) :
    Outcome (fileBlock m din (f.bytes.length / bsize)) (fssize < m.freeblock + turnBlocks f)
      fun r ↦ ∃ f', Located m f (f.bytes.length / bsize) (turnBlocks f) r f' := by
  have htight := h.tight
  rw [bsize_eq] at htight
  rw [turnBlocks]
  by_cases hmod : f.bytes.length % bsize = 0
  · have hlen : f.bytes.length / bsize = f.blocks.length := by
      rw [bsize_eq] at hmod ⊢
      omega
    rw [if_pos hmod, hlen]
    rw [hlen] at hmax
    rcases Nat.lt_trichotomy f.blocks.length ndirect with hlt | heq | hgt
    · obtain ⟨r, hr, hloc⟩ := fileBlock_direct h hlt
      exact .of_eq_ok hr ⟨_, hloc⟩
    · by_cases hfull : m.freeblock < fssize
      · obtain ⟨r, hr, hloc⟩ := fileBlock_first h heq hfull
        exact .of_eq_ok hr ⟨_, hloc⟩
      · refine .of_eq_error (fileBlock_full h heq (Nat.not_lt.1 hfull)) ?_
        rw [newBlocks, if_pos heq]
        omega
    · obtain ⟨r, hr, hloc⟩ := fileBlock_indirect h hgt hmax
      exact .of_eq_ok hr ⟨_, hloc⟩
  · have hlen : f.blocks.length = f.bytes.length / bsize + 1 := by
      rw [bsize_eq] at hmod ⊢
      omega
    have hx := List.getElem?_eq_getElem (show f.bytes.length / bsize < f.blocks.length by omega)
    rw [if_neg hmod]
    exact .of_eq_ok (fileBlock_of_block h hx)
      ⟨f, h.maps, rfl, rfl, hlen, hx, by simp, rfl, .inl rfl, rfl, fun _ _ ↦ rfl⟩

/-- Copying bytes into the block at the end of a file appends them to it. -/
theorem maps_write {ip : Dinode} (h : Maps d ip f) (hnd : f.owned.Nodup) {k x o : ℕ}
    {q : List Byte} (hx : f.blocks[k]? = some x) (ho : f.bytes.length = bsize * k + o)
    (hq : o + q.length ≤ bsize) :
    Maps (wsect d x (copyIn (d x) o q)) ip { f with bytes := f.bytes ++ q } := by
  obtain ⟨hk, hkx⟩ := List.getElem?_eq_some_iff.1 hx
  have hbyte : { f with bytes := f.bytes ++ q }.byte = overwrite f.byte (bsize * k + o) q := by
    rw [← ho]
    exact (overwrite_getD f.bytes q 0).symm
  refine { h with covers := ?_, entry := fun b hb j hj ↦ ?_, byte := fun k' b hb j hj ↦ ?_ }
  · have hle : bsize * (k + 1) ≤ bsize * f.blocks.length := Nat.mul_le_mul_left _ hk
    rw [Nat.mul_add] at hle
    show (f.bytes ++ q).length ≤ bsize * f.blocks.length
    rw [length_append]
    omega
  · have hne : b ≠ x := by
      rintro rfl
      exact (nodup_append.1 hnd).2.2 b (mem_of_getElem? hx) b
        (by rw [show f.ind = some b from hb]; exact mem_singleton_self b) rfl
    rw [wsect, update_of_ne hne]
    exact h.entry b hb j hj
  · rw [hbyte]
    by_cases hkk : k' = k
    · subst hkk
      rw [some_inj.1 (hb.symm.trans hx), wsect, update_self,
        byteAt_copyIn _ hq]
      exact overwrite_shift (h.byte k' x hx j hj)
    · have hne : b ≠ x := by
        rintro rfl
        exact hkk ((List.Nodup.getElem_inj_iff (nodup_append.1 hnd).1).1
          ((List.getElem?_eq_some_iff.1 hb).2.trans hkx.symm))
      rw [wsect, update_of_ne hne, h.byte k' b hb j hj, overwrite_of_lt_or_le]
      rw [bsize_eq] at hj ⊢
      rw [bsize_eq] at hq
      omega

/-! ### The loop -/

/-- The file `f` has become `f'`, with `q` at its end; the blocks it has taken come from
`freeblock`, and no other block has changed. -/
structure Grown (m : State) (f : File) (q : List Byte) (m' : State) (f' : File) : Prop where
  type : f'.type = f.type
  bytes : f'.bytes = f.bytes ++ q
  le : m.freeblock ≤ m'.freeblock
  owned : f'.owned.Perm (f.owned ++ List.range' m.freeblock (m'.freeblock - m.freeblock))
  freeinode : m'.freeinode = m.freeinode
  frame : ∀ b ∉ f'.owned, m'.disk b = m.disk b

theorem Grown.refl (m : State) (f : File) : Grown m f [] m f where
  type := rfl
  bytes := (append_nil _).symm
  le := Nat.le_refl _
  owned := by simp
  freeinode := rfl
  frame _ _ := rfl

theorem Grown.trans {m₁ m₂ : State} {f₁ f₂ : File} {q r : List Byte} (h : Grown m f q m₁ f₁)
    (h' : Grown m₁ f₁ r m₂ f₂) : Grown m f (q ++ r) m₂ f₂ where
  type := h'.type.trans h.type
  bytes := by rw [h'.bytes, h.bytes, append_assoc]
  le := Nat.le_trans h.le h'.le
  owned := by
    have hle := h.le
    have hle' := h'.le
    refine h'.owned.trans ((h.owned.append_right _).trans ?_)
    rw [append_assoc, show m₂.freeblock - m.freeblock =
      (m₁.freeblock - m.freeblock) + (m₂.freeblock - m₁.freeblock) by omega, ← List.range'_append_1,
      Nat.add_sub_cancel' hle]
  freeinode := h'.freeinode.trans h.freeinode
  frame b hb := by
    rw [h'.frame b hb]
    exact h.frame b fun hb' ↦ hb (h'.owned.symm.subset (mem_append_left _ hb'))

/-- Blocks taken from `freeblock` are none of those a file had. -/
theorem Ready.nodup_append (h : Ready m din f) (k : ℕ) :
    (f.owned ++ List.range' m.freeblock k).Nodup := by
  refine List.nodup_append.2 ⟨h.nodup, nodup_range', fun a ha b hb ↦ ?_⟩
  have hlt := h.lt a ha
  have hle := (mem_range'_1.1 hb).1
  omega

/-- After the block has been found, the bytes are copied into it. -/
theorem ready_write (h : Ready m din f) {k n : ℕ} {r : State × Dinode × ℕ} {f₁ : File}
    {q : List Byte} (hloc : Located m f (f.bytes.length / bsize) k r f₁) (hx : r.2.2 < fssize)
    (hq : q.length = n) (hpos : 0 < n)
    (hn : n ≤ (f.bytes.length / bsize + 1) * bsize - f.bytes.length) :
    let m₂ : State := { r.1 with
      disk := wsect r.1.disk r.2.2
        (copyIn (r.1.disk r.2.2) (f.bytes.length - f.bytes.length / bsize * bsize) q) }
    let f₂ : File := { f₁ with bytes := f₁.bytes ++ q }
    Ready m₂ r.2.1 f₂ ∧ Grown m f q m₂ f₂ := by
  have hmod := Nat.div_add_mod f.bytes.length bsize
  have hmlt := Nat.mod_lt f.bytes.length (show 0 < bsize by decide)
  have hoff : f.bytes.length - f.bytes.length / bsize * bsize = f.bytes.length % bsize := by
    rw [Nat.mul_comm]
    omega
  have hn' : f.bytes.length % bsize + n ≤ bsize := by
    rw [Nat.add_mul, Nat.mul_comm] at hn
    omega
  have hroom : r.1.freeblock ≤ fssize := by
    have := h.room
    have := hloc.freeblock
    rcases hloc.last with hk | hk <;> omega
  have hmem : r.2.2 ∈ f₁.owned := File.mem_owned_of_getElem? hloc.block
  have hlt : ∀ b ∈ f₁.owned, b < r.1.freeblock := by
    intro b hb
    have hfree := hloc.freeblock
    rcases mem_append.1 (hloc.owned.subset hb) with hb | hb
    · have := h.lt b hb
      omega
    · have := (mem_range'_1.1 hb).2
      omega
  have hframe : ∀ b ∉ f₁.owned, wsect r.1.disk r.2.2
      (copyIn (r.1.disk r.2.2) (f.bytes.length - f.bytes.length / bsize * bsize) q) b =
        m.disk b := by
    intro b hb
    have hne : b ≠ r.2.2 := fun heq ↦ hb (heq ▸ hmem)
    rw [wsect, update_of_ne hne, hloc.frame b hb]
  dsimp only
  refine ⟨?_, ?_⟩
  · refine ⟨?_, ?_, (hloc.owned.nodup_iff.2 (h.nodup_append k)), hlt, fun b hb ↦ ?_, ?_, hroom⟩
    · rw [hoff]
      refine maps_write hloc.maps (hloc.owned.nodup_iff.2 (h.nodup_append k)) hloc.block ?_ ?_
      · rw [hloc.bytes, hmod]
      · rw [hq]
        exact hn'
    · dsimp only
      rw [hloc.length, hloc.bytes, length_append, hq]
      rw [bsize_eq] at hmod hn' hmlt ⊢
      omega
    · have hfree := hloc.freeblock
      dsimp only at hb ⊢
      rw [hframe b fun hb' ↦ absurd (hlt b hb') (Nat.not_lt.2 hb)]
      exact h.fresh b (by omega)
    · have hpos := h.pos
      have hfree := hloc.freeblock
      dsimp only
      omega
  · refine ⟨hloc.type, by rw [hloc.bytes], ?_, ?_, hloc.freeinode, hframe⟩
    · rw [hloc.freeblock]
      exact Nat.le_add_right _ _
    · rw [hloc.freeblock, Nat.add_sub_cancel_left]
      exact hloc.owned

/-- What a turn takes is what the file needs more. -/
theorem need_add (h : Ready m din f) {n : ℕ} (hpos : 0 < n)
    (hn : n ≤ (f.bytes.length / bsize + 1) * bsize - f.bytes.length) :
    need (f.bytes.length + n) = need f.bytes.length + turnBlocks f := by
  have htight := h.tight
  rw [need, need, turnBlocks, newBlocks]
  rw [ndirect_eq, bsize_eq] at *
  split_ifs <;> omega

/-- **What the loop of `iappend` does.** It fails only if the file gets too big or the image is too
small for it. -/
theorem iappendLoop_outcome (h : Ready m din f) (p : List Byte) :
    Outcome (iappendLoop m din f.bytes.length p)
      (maxFile * bsize < f.bytes.length + p.length ∨
        fssize + need f.bytes.length < m.freeblock + need (f.bytes.length + p.length))
      fun r ↦ ∃ f', Ready r.1 r.2.1 f' ∧ Grown m f p r.1 f' ∧ r.2.2 = f'.bytes.length := by
  induction hlen : p.length using Nat.strongRecOn generalizing m din f p with
  | _ len ih =>
    rw [iappendLoop]
    by_cases hp : p = []
    · rw [if_pos hp, hp]
      exact .of_eq_ok rfl ⟨f, h, Grown.refl m f, rfl⟩
    rw [if_neg hp]
    have hpos := length_pos_iff.2 hp
    by_cases hmax : f.bytes.length / bsize < maxFile
    · have hdiv := Nat.lt_div_mul_add (a := f.bytes.length) (show 0 < bsize by decide)
      have hn₁ : 0 < min p.length ((f.bytes.length / bsize + 1) * bsize - f.bytes.length) := by
        rw [Nat.add_mul]
        omega
      have hle := Nat.min_le_right p.length
        ((f.bytes.length / bsize + 1) * bsize - f.bytes.length)
      have hle' := Nat.min_le_left p.length
        ((f.bytes.length / bsize + 1) * bsize - f.bytes.length)
      generalize hn : min p.length ((f.bytes.length / bsize + 1) * bsize - f.bytes.length) = n at *
      have hneed := need_add h hn₁ hle
      have hmono := need_mono (show f.bytes.length + n ≤ f.bytes.length + len by omega)
      rw [if_pos hmax]
      refine ((fileBlock_outcome h hmax).mono (fun hbad ↦ .inr (by omega)) fun _ h ↦ h).bind ?_
      rintro ⟨m₁, din₁, x⟩ ⟨f₁, hloc⟩
      have hfree := hloc.freeblock
      by_cases hx : x < fssize
      · have htake : (p.take n).length = n := by rw [length_take, Nat.min_eq_left hle']
        obtain ⟨hready, hgrown⟩ := ready_write h hloc hx htake hn₁ hle
        have hnext := ih (p.drop n).length (by rw [length_drop]; omega) hready (p.drop n) rfl
        have hbytes : f.bytes.length + n = (f₁.bytes ++ p.take n).length := by
          rw [length_append, hloc.bytes, htake]
        dsimp only
        rw [rsect_of_lt hx, except_ok_bind, hbytes]
        have hdrop : (p.drop n).length = len - n := by rw [length_drop, hlen]
        refine hnext.mono (fun hbad ↦ ?_) ?_
        · dsimp only at hbad
          rw [← hbytes, hdrop, show f.bytes.length + n + (len - n) = f.bytes.length + len by omega,
            hneed] at hbad
          dsimp only at hfree
          omega
        · rintro r ⟨f', hr, hg, hlen'⟩
          refine ⟨f', hr, ?_, hlen'⟩
          have hall := hgrown.trans hg
          rwa [take_append_drop] at hall
      · refine .of_eq_error (e := .read) ?_ (.inr ?_)
        · dsimp only
          rw [rsect, if_neg hx]
          rfl
        · have hroom := h.room
          rcases mem_append.1 (hloc.owned.subset (File.mem_owned_of_getElem? hloc.block))
            with hmem | hmem
          · have hlt : x < m.freeblock := h.lt x hmem
            omega
          · have hlt : x < m.freeblock + turnBlocks f := (mem_range'_1.1 hmem).2
            omega
    · rw [if_neg hmax]
      refine .of_eq_error rfl (.inl ?_)
      rw [bsize_eq] at hmax ⊢
      omega

end Xv6.Mkfs

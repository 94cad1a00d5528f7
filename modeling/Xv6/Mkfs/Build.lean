import Mathlib.Algebra.BigOperators.Group.List.Basic
import Mathlib.Algebra.Ring.Nat
import Mathlib.Data.List.Nodup
import Xv6.Mkfs.Append

/-!
# Building the image

The files of the image, as a list: file `i` has inode `i + 1`. `Inv` says that each has its inode on
disk, that no two share a block, that the blocks they have are those from `nmeta` up to `freeblock`,
each once, and that the blocks from there on are zero. `ialloc` and `iappend` keep it
(`ialloc_inv`, `iappend_outcome`), so `freeblock` counts the blocks that the files need
(`Inv.freeblock_eq`).
-/

namespace Xv6.Mkfs

open Fs Function List Option

variable {m : State} {d : Disk} {fs : List File}

/-! ### Inodes on disk -/

theorem inodestart_superblock : inodestart superblock = 33 := by
  rw [inodestart, superblock, wordAt_setWord_of_ne _ (by decide),
    wordAt_setWord_self _ (by decide), xint_eq]
  rfl

theorem bmapstart_superblock : bmapstart superblock = 46 := by
  rw [bmapstart, superblock, wordAt_setWord_self _ (by decide), xint_eq]
  rfl

theorem iblock_superblock (inum : ℕ) : iblock inum superblock = inum / ipb + 33 := by
  rw [iblock, inodestart_superblock]

/-- The inode `inum` of the image. -/
def inodeOf (d : Disk) (inum : ℕ) : Dinode := dinodeAt (d (iblock inum superblock)) (inum % ipb)

/-- The image with another inode `inum`. -/
def putInode (d : Disk) (inum : ℕ) (ip : Dinode) : Disk :=
  wsect d (iblock inum superblock) (setDinode (d (iblock inum superblock)) (inum % ipb) ip)

section Inode

variable {inum : ℕ} (ip : Dinode)

/-- Inodes are before the bitmap. -/
theorem iblock_lt (h : inum < ninodes) : iblock inum superblock < 46 := by
  have : ninodes = 200 := rfl
  rw [iblock_superblock, ipb_eq]
  omega

theorem rinode_eq (h : inum < ninodes) : rinode d inum = .ok (inodeOf d inum) := by
  have hlt := iblock_lt h
  rw [rinode, rsect_of_lt (lt_trans hlt (by decide))]
  rfl

theorem winode_eq (h : inum < ninodes) : winode d inum ip = .ok (putInode d inum ip) := by
  have hlt := iblock_lt h
  rw [winode, rsect_of_lt (lt_trans hlt (by decide))]
  rfl

@[simp] theorem inodeOf_putInode_self : inodeOf (putInode d inum ip) inum = ip := by
  rw [inodeOf, putInode, wsect, update_self,
    dinodeAt_setDinode_self _ (Nat.mod_lt _ (by decide))]

theorem inodeOf_putInode_of_ne {j : ℕ} (h : j ≠ inum) :
    inodeOf (putInode d inum ip) j = inodeOf d j := by
  rw [inodeOf, inodeOf, putInode, wsect]
  by_cases hb : iblock j superblock = iblock inum superblock
  · have hmod : j % ipb ≠ inum % ipb := by
      rw [iblock_superblock, iblock_superblock] at hb
      rw [ipb_eq] at hb ⊢
      omega
    rw [hb, update_self, dinodeAt_setDinode_of_ne _ hmod]
  · rw [update_of_ne hb]

theorem putInode_of_le {b : ℕ} (h : inum < ninodes) (hb : nmeta ≤ b) :
    putInode d inum ip b = d b := by
  have hlt := iblock_lt h
  rw [nmeta_eq] at hb
  have hne : b ≠ iblock inum superblock := by omega
  rw [putInode, wsect, update_of_ne hne]

theorem putInode_one : putInode d inum ip 1 = d 1 := by
  have hne : 1 ≠ iblock inum superblock := by
    rw [iblock_superblock, ipb_eq]
    omega
  rw [putInode, wsect, update_of_ne hne]

/-- Data blocks do not matter for inodes. -/
theorem inodeOf_congr {d' : Disk} (h : inum < ninodes) (hd : ∀ b < nmeta, d' b = d b) :
    inodeOf d' inum = inodeOf d inum := by
  have hlt := iblock_lt h
  rw [inodeOf, inodeOf, hd _ (by rw [nmeta_eq]; omega)]

/-- The size in the inode does not matter. -/
theorem maps_setSize {f : File} {x : BitVec 32} (h : Maps d ip f) : Maps d (ip.setSize x) f :=
  { h with
    type := by rw [Dinode.type_setSize, h.type]
    direct := fun k hk ↦ by rw [Dinode.addr_setSize, h.direct k hk]
    indirect := by rw [Dinode.addr_setSize, h.indirect] }

end Inode

/-! ### The invariant -/

/-- The inode `inum` is that of the file `f`, which has no block too many. -/
structure Stored (d : Disk) (inum : ℕ) (f : File) : Prop where
  maps : Maps d (inodeOf d inum) f
  size : (inodeOf d inum).size.toNat = f.bytes.length
  tight : f.blocks.length = (f.bytes.length + bsize - 1) / bsize

/-- The files of the image, the free inodes and the free blocks. -/
structure Inv (m : State) (fs : List File) : Prop where
  freeinode : m.freeinode = fs.length + 1
  freeinode_le : m.freeinode ≤ ninodes
  file : ∀ i f, fs[i]? = some f → Stored m.disk (i + 1) f
  free : ∀ inum < ninodes, inum = 0 ∨ m.freeinode ≤ inum → inodeOf m.disk inum = 0
  blocks : (fs.flatMap File.owned).Perm (List.range' nmeta (m.freeblock - nmeta))
  nmeta_le : nmeta ≤ m.freeblock
  room : m.freeblock ≤ fssize
  fresh : ∀ b, m.freeblock ≤ b → m.disk b = 0
  sb : m.disk 1 = superblock

/-- A file has the blocks it needs. -/
theorem Stored.length_owned {inum : ℕ} {f : File} (h : Stored d inum f) :
    f.owned.length = need f.bytes.length := by
  have htight := h.tight
  have hind := h.maps.ind_isSome
  rw [File.owned, length_append, need, ndirect_eq, bsize_eq] at *
  rw [← htight]
  congr 1
  cases hi : f.ind with
  | none =>
    rw [hi, isSome_none] at hind
    rw [if_neg (by simp at hind; omega)]
    rfl
  | some b =>
    rw [hi, isSome_some] at hind
    rw [if_pos (by simp at hind; omega)]
    rfl

namespace Inv

theorem mem_owned (h : Inv m fs) {i b : ℕ} {f : File} (hf : fs[i]? = some f) (hb : b ∈ f.owned) :
    nmeta ≤ b ∧ b < m.freeblock := by
  have hle := h.nmeta_le
  have hmem := h.blocks.subset (mem_flatMap.2 ⟨f, mem_of_getElem? hf, hb⟩)
  rw [mem_range'_1] at hmem
  omega

theorem nodup (h : Inv m fs) : (fs.flatMap File.owned).Nodup :=
  h.blocks.nodup_iff.2 nodup_range'

/-- `freeblock` counts the blocks that the files need. -/
theorem freeblock_eq (h : Inv m fs) :
    m.freeblock = nmeta + (fs.map fun f ↦ need f.bytes.length).sum := by
  have hle := h.nmeta_le
  have hlen := h.blocks.length_eq
  rw [length_flatMap, length_range'] at hlen
  have hmap : fs.map (fun f ↦ f.owned.length) = fs.map fun f ↦ need f.bytes.length := by
    refine map_congr_left fun f hf ↦ ?_
    obtain ⟨i, hi⟩ := mem_iff_getElem?.1 hf
    exact (h.file i f hi).length_owned
  rw [← hmap]
  omega

/-- The inode of a file, ready to be appended to. -/
theorem ready (h : Inv m fs) {i : ℕ} {f : File} (hf : fs[i]? = some f) :
    Ready m (inodeOf m.disk (i + 1)) f where
  maps := (h.file i f hf).maps
  tight := (h.file i f hf).tight
  nodup := (nodup_flatMap.1 h.nodup).1 f (mem_of_getElem? hf)
  lt b hb := (h.mem_owned hf hb).2
  fresh := h.fresh
  pos := lt_of_lt_of_le (by decide) h.nmeta_le
  room := h.room

/-- No two files share a block. -/
theorem disjoint (h : Inv m fs) {i j b : ℕ} {f g : File} (hf : fs[i]? = some f)
    (hg : fs[j]? = some g) (hij : i ≠ j) (hb : b ∈ g.owned) : b ∉ f.owned := by
  intro hb'
  obtain ⟨hi, rfl⟩ := List.getElem?_eq_some_iff.1 hf
  obtain ⟨hj, rfl⟩ := List.getElem?_eq_some_iff.1 hg
  have hpw := pairwise_iff_getElem.1 (nodup_flatMap.1 h.nodup).2
  rcases Nat.lt_or_gt_of_ne hij with hlt | hlt
  · exact hpw i j hi hj hlt hb' hb
  · exact hpw j i hj hi hlt hb hb'

end Inv

/-! ### Making an inode -/

/-- A file that has just been made. -/
def newFile (type : BitVec 16) : File := ⟨type, [], [], none⟩

theorem stored_newInode {type : BitVec 16} {inum : ℕ} (h : inodeOf d inum = newInode type) :
    Stored d inum (newFile type) := by
  refine ⟨?_, ?_, by simp [newFile, bsize]⟩
  · rw [h, newInode]
    refine ⟨?_, Nat.zero_le _, Nat.zero_le _, nofun, fun k hk ↦ ?_, ?_, ?_, nofun, nofun⟩
    · rw [Dinode.type_setSize, Dinode.type_setNlink, Dinode.type_setType, xshort_eq]
      rfl
    · rw [Dinode.addr_setSize, Dinode.addr_setNlink, Dinode.addr_setType, Dinode.addr_zero]
      rfl
    · rw [Dinode.addr_setSize, Dinode.addr_setNlink, Dinode.addr_setType, Dinode.addr_zero]
      rfl
    · simp [newFile]
  · rw [h, newInode, Dinode.size_setSize, xint_eq]
    rfl

/-- An inode that does not change keeps its file. -/
theorem Stored.congr {d' : Disk} {inum : ℕ} {f : File} (h : Stored d inum f)
    (hino : inodeOf d' inum = inodeOf d inum) (hd : ∀ b ∈ f.owned, d' b = d b) :
    Stored d' inum f := by
  refine ⟨?_, ?_, h.tight⟩
  · rw [hino]
    exact h.maps.congr hd
  · rw [hino]
    exact h.size

theorem ialloc_inv (h : Inv m fs) (hlt : m.freeinode < ninodes) (type : BitVec 16) :
    ∃ m', ialloc m type = .ok m' ∧ Inv m' (fs ++ [newFile type]) := by
  refine ⟨⟨putInode m.disk m.freeinode (newInode type), m.freeinode + 1, m.freeblock⟩, ?_, ?_⟩
  · rw [ialloc, winode_eq _ hlt]
    rfl
  · refine { h with
      freeinode := ?_, freeinode_le := hlt, file := fun i f hf ↦ ?_, free := fun inum hi hfree ↦ ?_,
      blocks := ?_, fresh := fun b hb ↦ ?_, sb := ?_ }
    · rw [h.freeinode, length_append, length_singleton]
    · dsimp only
      rcases lt_trichotomy i fs.length with hi | rfl | hi
      · rw [List.getElem?_append_left hi] at hf
        have hne : i + 1 ≠ m.freeinode := by
          rw [h.freeinode]
          omega
        refine (h.file i f hf).congr (inodeOf_putInode_of_ne _ hne) fun b hb ↦ ?_
        exact putInode_of_le _ hlt (h.mem_owned hf hb).1
      · rw [List.getElem?_concat_length, some_inj] at hf
        rw [← hf, ← h.freeinode]
        exact stored_newInode (inodeOf_putInode_self _)
      · rw [List.getElem?_eq_none (by rw [length_append, length_singleton]; omega)] at hf
        exact nomatch hf
    · dsimp only at hfree ⊢
      have hne : inum ≠ m.freeinode := by
        have := h.freeinode
        omega
      rw [inodeOf_putInode_of_ne _ hne]
      exact h.free inum hi (by omega)
    · rw [flatMap_append, flatMap_singleton]
      show (fs.flatMap File.owned ++ []).Perm _
      rw [append_nil]
      exact h.blocks
    · dsimp only
      rw [putInode_of_le _ hlt (le_trans h.nmeta_le hb)]
      exact h.fresh b hb
    · dsimp only
      rw [putInode_one, h.sb]

/-! ### Appending -/

theorem perm_flatMap_set {i : ℕ} {f f' : File} {l : List ℕ} (hf : fs[i]? = some f)
    (hp : f'.owned.Perm (f.owned ++ l)) :
    ((fs.set i f').flatMap File.owned).Perm (fs.flatMap File.owned ++ l) := by
  induction fs generalizing i with
  | nil => exact nomatch hf
  | cons g fs ih =>
    cases i with
    | zero =>
      rw [List.getElem?_cons_zero, some_inj] at hf
      rw [set_cons_zero, flatMap_cons, flatMap_cons, hf]
      refine (hp.append_right _).trans ?_
      rw [append_assoc, append_assoc]
      exact List.Perm.append_left _ perm_append_comm
    | succ i =>
      rw [set_cons_succ, flatMap_cons, flatMap_cons, append_assoc]
      exact (ih hf).append_left _

/-- What `iappend` has done after its loop, and what it writes back. -/
theorem inv_of_grown (h : Inv m fs) {i : ℕ} {f f' : File} {p : List Byte} {m₁ : State}
    {din : Dinode} (hf : fs[i]? = some f) (hready : Ready m₁ din f') (hg : Grown m f p m₁ f') :
    Inv { m₁ with
      disk := putInode m₁.disk (i + 1) (din.setSize (.ofNat 32 f'.bytes.length)) }
      (fs.set i f') := by
  have hino : i + 1 < ninodes := by
    have := (List.getElem?_eq_some_iff.1 hf).1
    have := h.freeinode
    have := h.freeinode_le
    omega
  have howned : ∀ b ∈ f'.owned, b ∈ f.owned ∨ m.freeblock ≤ b := by
    intro b hb
    rcases mem_append.1 (hg.owned.subset hb) with hb | hb
    · exact .inl hb
    · exact .inr (mem_range'_1.1 hb).1
  have hmeta : ∀ b < nmeta, m₁.disk b = m.disk b := by
    intro b hb
    refine hg.frame b fun hmem ↦ ?_
    have hle := h.nmeta_le
    rcases howned b hmem with hmem | hmem
    · have := (h.mem_owned hf hmem).1
      omega
    · omega
  refine ⟨?_, ?_, fun j g hj ↦ ?_, fun inum hi hfree ↦ ?_, ?_, le_trans h.nmeta_le hg.le,
    hready.room, fun b hb ↦ ?_, ?_⟩
  · dsimp only
    rw [length_set, hg.freeinode, h.freeinode]
  · dsimp only
    rw [hg.freeinode]
    exact h.freeinode_le
  · dsimp only
    by_cases hji : j = i
    · subst hji
      have hset : (fs.set j f')[j]? = some f' := by
        rw [List.getElem?_set_self (List.getElem?_eq_some_iff.1 hf).1]
      rw [← some_inj.1 (hset.symm.trans hj)]
      refine ⟨?_, ?_, hready.tight⟩
      · rw [inodeOf_putInode_self]
        refine maps_setSize _ (hready.maps.congr fun b hb ↦ ?_)
        refine putInode_of_le _ hino ?_
        rcases howned b hb with hb | hb
        · exact (h.mem_owned hf hb).1
        · exact le_trans h.nmeta_le hb
      · have hcov := hready.maps.covers
        have hle := hready.maps.length_le
        rw [inodeOf_putInode_self, Dinode.size_setSize, BitVec.toNat_ofNat, Nat.mod_eq_of_lt]
        rw [bsize_eq] at hcov
        rw [maxFile_eq] at hle
        omega
    · rw [List.getElem?_set_ne (fun hij ↦ hji hij.symm)] at hj
      have hjino : j + 1 < ninodes := by
        have := (List.getElem?_eq_some_iff.1 hj).1
        have := h.freeinode
        have := h.freeinode_le
        omega
      refine (h.file j g hj).congr ?_ fun b hb ↦ ?_
      · rw [inodeOf_putInode_of_ne _ (by omega), inodeOf_congr hjino hmeta]
      · obtain ⟨hle, hlt⟩ := h.mem_owned hj hb
        rw [putInode_of_le _ hino hle]
        refine hg.frame b fun hmem ↦ ?_
        rcases howned b hmem with hmem | hmem
        · exact h.disjoint hf hj (fun hij ↦ hji hij.symm) hb hmem
        · omega
  · dsimp only at hfree ⊢
    have hlen := (List.getElem?_eq_some_iff.1 hf).1
    rw [hg.freeinode, h.freeinode] at hfree
    rw [inodeOf_putInode_of_ne _ (by omega), inodeOf_congr hi hmeta]
    refine h.free inum hi ?_
    rw [h.freeinode]
    exact hfree
  · have hle := hg.le
    have hle' := h.nmeta_le
    refine (perm_flatMap_set hf hg.owned).trans ((h.blocks.append_right _).trans ?_)
    dsimp only
    rw [show m₁.freeblock - nmeta = (m.freeblock - nmeta) + (m₁.freeblock - m.freeblock) by omega,
      ← List.range'_append_1, Nat.add_sub_cancel' hle']
  · have hle := le_trans h.nmeta_le hg.le
    dsimp only at hb ⊢
    rw [putInode_of_le _ hino (by omega)]
    exact hready.fresh b hb
  · dsimp only
    rw [putInode_one, hmeta 1 (by decide), h.sb]

/-- **What `iappend` does.** -/
theorem iappend_outcome (h : Inv m fs) {i : ℕ} {f : File} (hf : fs[i]? = some f) (p : List Byte) :
    Outcome (iappend m (i + 1) p)
      (maxFile * bsize < f.bytes.length + p.length ∨
        fssize + need f.bytes.length < m.freeblock + need (f.bytes.length + p.length))
      fun m' ↦ ∃ f', Inv m' (fs.set i f') ∧ f'.type = f.type ∧ f'.bytes = f.bytes ++ p := by
  have hino : i + 1 < ninodes := by
    have := (List.getElem?_eq_some_iff.1 hf).1
    have := h.freeinode
    have := h.freeinode_le
    omega
  rw [iappend, rinode_eq hino, except_ok_bind, xint_eq, (h.file i f hf).size]
  refine (iappendLoop_outcome (h.ready hf) p).bind ?_
  rintro ⟨m₁, din, off⟩ ⟨f', hready, hg, rfl⟩
  simp only [xint_eq, winode_eq _ hino, except_ok_bind]
  exact .of_eq_ok rfl ⟨f', inv_of_grown h hf hready hg, hg.type, hg.bytes⟩

end Xv6.Mkfs

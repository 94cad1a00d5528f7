import Xv6.Mkfs.ReadBack

/-!
# Holes in the image

`mkfs` rounds the size of the root directory up to the next multiple of a block even if it is one
already. With `files + 2` a multiple of 64 the entries of the root directory fill its blocks, and
the rounded size reaches a block further than them: a lookup of a name that is not there reads on
into that block, and `bmap` allocates it. For every other number of files the image has no holes.
-/

namespace Xv6.Mkfs

open Fs

variable {d : Disk} {first : ℕ} {files : List InputFile} {root : File} {fs : List File}

namespace Image

/-- The last block of the root directory is not full. -/
theorem root_size_eq (h : Image d first files root fs) (hmod : (files.length + 2) % 64 ≠ 0) :
    (dinode d rootIno).size.toNat = bsize * root.blocks.length := by
  have hlen := h.length_root
  have hd : direntSize = 16 := rfl
  rw [hd] at hlen
  rw [h.root_size, h.root_tight, bsize_eq]
  omega

/-- **No holes.** Every block index before the end of a file has a block. -/
theorem bmap_ok (h : Image d first files root fs) (hmod : (files.length + 2) % 64 ≠ 0) {inum : ℕ}
    (hinum : inum < ninodes) {k : ℕ}
    (hk : k < ((dinode d inum).size.toNat + bsize - 1) / bsize) :
    ∃ b, b ≠ 0 ∧ bmap d (dinode d inum) k = .ok b := by
  -- it is enough to know the file of the inode
  have hfile : ∀ f : File, Maps d (dinode d inum) f → k < f.blocks.length →
      ∃ b, b ≠ 0 ∧ bmap d (dinode d inum) k = .ok b := by
    intro f hf hlt
    have hb := List.getElem?_eq_getElem hlt
    exact ⟨_, hf.ne_zero _ (File.mem_owned_of_getElem? hb), hf.bmap_eq hb⟩
  by_cases hfree : inum = 0 ∨ files.length + 2 ≤ inum
  · rw [h.free inum hinum hfree, Dinode.size_zero, bsize_eq] at hk
    exact absurd hk (by simp)
  · obtain ⟨i, rfl⟩ : ∃ i, inum = i + 1 := ⟨inum - 1, by omega⟩
    cases i with
    | zero =>
      refine hfile root h.root_maps ?_
      rw [h.root_size_eq hmod, bsize_eq] at hk
      omega
    | succ i =>
      obtain ⟨f, hf⟩ : ∃ f, fs[i]? = some f :=
        ⟨_, List.getElem?_eq_getElem (by rw [h.length_eq]; omega)⟩
      have hst := h.file i f hf
      refine hfile f (by rw [dinode_eq h.sb]; exact hst.maps) ?_
      rwa [dinode_eq h.sb, hst.size, ← hst.tight] at hk

/-- A lookup in the root directory reads only. -/
theorem dirlookup_ok (h : Image d first files root fs) (hmod : (files.length + 2) % 64 ≠ 0)
    (name : List Byte) : ∃ r, dirlookup d (dinode d rootIno) name = .ok r := by
  have hsize := h.root_size_eq hmod
  rw [dirlookup, if_neg (by rw [h.root_maps.type, h.root_type]; exact fun hn ↦ hn rfl)]
  refine dirlookupLoop_ok fun off hoff ↦ ?_
  obtain ⟨k, hk, rfl⟩ := List.mem_map.1 hoff
  have hle : direntSize * k + direntSize ≤ (dinode d rootIno).size.toNat := by
    have hd : direntSize = 16 := rfl
    rw [List.mem_range, hsize, hd, bsize_eq] at hk
    rw [hsize, hd, bsize_eq]
    omega
  refine ⟨_, h.root_maps.readi_of_le hle (by omega), length_slice _ _ _⟩

/-- With `files + 2` a multiple of 64 the root directory is a block larger than what it has. -/
theorem root_size_of_full (h : Image d first files root fs) (hmod : (files.length + 2) % 64 = 0) :
    (dinode d rootIno).size.toNat = bsize * root.blocks.length + bsize ∧
      root.blocks.length = (files.length + 2) / 64 := by
  have hroot := h.length_root
  have hd : direntSize = 16 := rfl
  rw [hd] at hroot
  rw [h.root_size, h.root_tight, bsize_eq]
  omega

/-- **The hole.** With `files + 2` a multiple of 64, a lookup of a name that is not in the root
directory comes to an allocation. -/
theorem dirlookup_hole (h : Image d first files root fs) (hcount : files.length + 2 ≤ ninodes)
    (hname : ∀ f ∈ files, ∃ s, shortname f.path = .ok s) (hmod : (files.length + 2) % 64 = 0)
    {name : List Byte} (hnul : 0 ∉ name) (hlen : name.length ≤ dirsiz)
    (hnew : ∀ e ∈ entries files, name ≠ e.2) :
    dirlookup d (dinode d rootIno) name = .error .allocates := by
  have hd : direntSize = 16 := rfl
  have hn : ninodes = 200 := rfl
  have hm := maxFile_eq
  obtain ⟨hsize, hblocks⟩ := h.root_size_of_full hmod
  obtain ⟨r, hr⟩ : ∃ r, (List.range (files.length + 2 + (r + 1))).map (direntSize * ·) =
      direntOffsets (dinode d rootIno).size.toNat := by
    refine ⟨63, ?_⟩
    rw [direntOffsets, hsize, hblocks, hd, bsize_eq]
    congr 2
    omega
  have hfind : (entries files).find? (fun e ↦ name = e.2) = none :=
    List.find?_eq_none.2 fun e he ↦ by simpa using hnew e he
  have hread := @Maps.readi_of_hole _ _ _ h.root_maps (direntSize * (files.length + 2)) direntSize
    (by rw [hd, hsize, bsize_eq]; omega) (by decide)
    (by rw [hd, bsize_eq, hblocks]; omega) (by rw [hd, bsize_eq]; omega)
  rw [dirlookup, if_neg (by rw [h.root_maps.type, h.root_type]; exact fun hn ↦ hn rfl), ← hr,
    List.range_add, List.map_append, dirlookupLoop_append,
    h.dirlookup_entries hcount hname hnul hlen, hfind, Option.map_none, except_ok_bind]
  dsimp only
  rw [List.range_succ_eq_map, List.map_cons, List.map_cons, add_zero, dirlookupLoop, hread]
  rfl

end Image

/-- **`mkfs` output has no holes**, exactly if the number of files is not two less than a multiple of
64: every inode of the image has a block for every index before its end, and no lookup in the root
directory comes to an allocation. -/
theorem mkfs_noHoles {m : State} (hcount : files.length ≤ ninodes - 2) (hm : mkfs files = .ok m) :
    ((∀ inum < ninodes, ∀ k < ((dinode m.disk inum).size.toNat + bsize - 1) / bsize,
      ∃ b, b ≠ 0 ∧ bmap m.disk (dinode m.disk inum) k = .ok b) ∧
    ∀ name, ∃ r, dirlookup m.disk (dinode m.disk rootIno) name = .ok r) ↔
      (files.length + 2) % 64 ≠ 0 := by
  have hcount' : files.length + 2 ≤ ninodes := by
    have : ninodes = 200 := rfl
    omega
  obtain ⟨root, fs, h⟩ := (mkfs_outcome hcount').of_ok m hm
  refine ⟨fun ⟨hblocks, _⟩ hmod ↦ ?_,
    fun hmod ↦ ⟨fun inum hinum k hk ↦ h.bmap_ok hmod hinum hk, h.dirlookup_ok hmod⟩⟩
  -- the block that the size of the root directory has too many
  obtain ⟨hsize, hlen⟩ := h.root_size_of_full hmod
  obtain ⟨b, -, hb⟩ := hblocks rootIno (by decide) root.blocks.length
    (by rw [hsize, bsize_eq]; omega)
  have hn : ninodes = 200 := rfl
  rw [h.root_maps.bmap_of_le le_rfl (by rw [hlen, maxFile_eq]; omega)] at hb
  cases hb

theorem mkfs_noHoles_smallFile : ∃ m, mkfs [smallFile] = .ok m ∧
    ∀ name, ∃ r, dirlookup m.disk (dinode m.disk rootIno) name = .ok r := by
  have hfits : Fits [smallFile] := by
    refine ⟨fun f hf ↦ ?_, by decide, by decide⟩
    rw [List.mem_singleton.1 hf]
    exact ⟨[0x61], rfl⟩
  obtain ⟨m, hm, -⟩ := (@mkfs_outcome [smallFile] (by decide)).exists_ok
    (not_not_intro hfits)
  exact ⟨m, hm, ((mkfs_noHoles (by decide) hm).2 (by decide)).2⟩

/-- An empty file with a name of two characters. -/
def emptyFile (i : Fin 62) : InputFile where
  path := [0x61, .ofNat 8 (0x30 + i)]
  reads := []
  path_ne_nul := by
    revert i
    decide
  reads_le := nofun

/-- As many files as make 64 entries in the root directory. -/
def emptyFiles : List InputFile := (List.finRange 62).map emptyFile

theorem fits_emptyFiles : Fits emptyFiles := by
  refine ⟨fun f hf ↦ ?_, fun f hf ↦ ?_, by decide⟩
  · obtain ⟨i, -, rfl⟩ := List.mem_map.1 hf
    have hall : ∀ i, shortname (emptyFile i).path = .ok (emptyFile i).path := by decide
    exact ⟨_, hall i⟩
  · obtain ⟨i, -, rfl⟩ := List.mem_map.1 hf
    exact Nat.zero_le _

/-- 62 empty files give an image whose root directory has two blocks by its size and one by its
inode; looking up a name that is not there allocates the other. -/
theorem mkfs_emptyFiles_hole : Fits emptyFiles ∧ emptyFiles.length ≤ ninodes - 2 ∧
    (emptyFiles.map InputFile.name).Nodup ∧ ∃ m, mkfs emptyFiles = .ok m ∧
      (dinode m.disk rootIno).size.toNat = 2 * bsize ∧ (dinode m.disk rootIno).addr 1 = 0 ∧
      dirlookup m.disk (dinode m.disk rootIno) [0x7a] = .error .allocates := by
  obtain ⟨m, hm, root, fs, h⟩ := (@mkfs_outcome emptyFiles (by decide)).exists_ok
    (not_not_intro fits_emptyFiles)
  have hlen : root.bytes.length = 1024 := h.length_root
  refine ⟨fits_emptyFiles, by decide, by decide, m, hm, ?_, ?_, ?_⟩
  · rw [h.root_size, hlen, bsize_eq]
  · have haddr := h.root_maps.direct 1 (by decide)
    rw [Maps.getD_blocks_of_le (by rw [h.root_tight, hlen, bsize_eq])] at haddr
    exact eq_zero_of_toNat haddr
  · exact h.dirlookup_hole (by decide) fits_emptyFiles.name (by decide) (by decide) (by decide)
      (by decide)

end Xv6.Mkfs

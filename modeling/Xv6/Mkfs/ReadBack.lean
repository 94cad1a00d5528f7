import Xv6.Mkfs.RootDir

/-!
# The kernel reads back what `mkfs` has written

For files whose names are distinct and that fit, `mkfs` writes an image in which the kernel finds
every file by its path and reads its bytes, in which the bitmap marks the blocks before the first
unallocated one, and in which each data block before it is referred to once. A file that is called
`.` or `..` is an exception: the entry is written, but a lookup finds the one that the root
directory has for itself.
-/

namespace Xv6.Mkfs

open Fs List Option

/-! ### References to blocks -/

/-- The block numbers in an inode and in its indirect block. -/
def inodeRefs (d : Disk) (ip : Dinode) : List ℕ :=
  let addrs := (List.range (ndirect + 1)).map fun k ↦ (ip.addr k).toNat
  let entries := if ip.addr ndirect = 0 then [] else
    (List.range nindirect).map fun k ↦ (wordAt (d (ip.addr ndirect).toNat) k).toNat
  (addrs ++ entries).filter (· ≠ 0)

/-- The block numbers in all inodes of the image. -/
def references (d : Disk) : List ℕ := (List.range ninodes).flatMap fun i ↦ inodeRefs d (dinode d i)

theorem map_range_getD (l : List ℕ) (n : ℕ) :
    (List.range n).map (l.getD · 0) = l.take n ++ List.replicate (n - l.length) 0 := by
  refine ext_getElem? fun k ↦ ?_
  rw [List.getElem?_map]
  by_cases hk : k < n
  · rw [List.getElem?_range hk, map_some, getD_eq_getElem?_getD]
    by_cases hl : k < l.length
    · rw [List.getElem?_append_left (by rw [length_take]; omega), List.getElem?_take_of_lt hk,
        List.getElem?_eq_getElem hl, getD_some]
    · rw [List.getElem?_append_right (by rw [length_take]; omega), length_take,
        List.getElem?_replicate_of_lt (by omega), List.getElem?_eq_none (by omega),
        getD_none]
  · rw [List.getElem?_eq_none (by rw [length_range]; omega), map_none,
      List.getElem?_eq_none]
    rw [length_append, length_take, length_replicate]
    omega

/-- The numbers in an array that are not zero. -/
theorem filter_map_range_getD {l : List ℕ} (hl : ∀ b ∈ l, b ≠ 0) (n : ℕ) :
    ((List.range n).map (l.getD · 0)).filter (· ≠ 0) = l.take n := by
  rw [map_range_getD, filter_append, filter_eq_self.2, filter_eq_nil_iff.2,
    append_nil]
  · intro b hb
    simp [(mem_replicate.1 hb).2]
  · intro b hb
    simpa using hl b (mem_of_mem_take hb)

/-- An inode refers to the blocks of its file, each once. -/
theorem inodeRefs_perm {d : Disk} {ip : Dinode} {f : File} (h : Maps d ip f) :
    (inodeRefs d ip).Perm f.owned := by
  have hblocks : ∀ b ∈ f.blocks, b ≠ 0 := fun b hb ↦ h.ne_zero b (mem_append_left _ hb)
  have hdirect : (List.range ndirect).map (fun k ↦ (ip.addr k).toNat) =
      (List.range ndirect).map (f.blocks.getD · 0) :=
    map_congr_left fun k hk ↦ h.direct k (mem_range.1 hk)
  have hlen := h.length_le
  rw [inodeRefs, range_succ, map_append, hdirect, map_singleton, filter_append,
    filter_append, filter_map_range_getD hblocks, h.indirect, File.owned]
  cases hi : f.ind with
  | none =>
    have hle : f.blocks.length ≤ ndirect := by
      have hind := h.ind_isSome
      rw [hi] at hind
      exact not_lt.1 fun hlt ↦ by cases hind.2 hlt
    rw [if_pos (eq_zero_of_toNat (by rw [h.indirect, hi]; rfl)), take_of_length_le hle]
    simp
  | some b =>
    have hb := h.ne_zero b (File.mem_owned_of_ind hi)
    have haddr : (ip.addr ndirect).toNat = b := by rw [h.indirect, hi]; rfl
    have hentry : (List.range nindirect).map (fun k ↦ (wordAt (d b) k).toNat) =
        (List.range nindirect).map ((f.blocks.drop ndirect).getD · 0) := by
      refine map_congr_left fun k hk ↦ ?_
      rw [h.entry b hi k (mem_range.1 hk)]
      simp only [getD_eq_getElem?_getD, List.getElem?_drop]
    have hdrop : (f.blocks.drop ndirect).length ≤ nindirect := by
      rw [maxFile_eq] at hlen
      rw [length_drop, ndirect_eq, nindirect_eq]
      omega
    rw [if_neg (ne_zero_of_toNat haddr hb), getD_some, hentry,
      filter_map_range_getD (fun x hx ↦ hblocks x (mem_of_mem_drop hx)),
      take_of_length_le hdrop, append_assoc]
    have hone : [b].filter (· ≠ 0) = [b] := by simp [hb]
    rw [hone, toList_some]
    refine (List.Perm.append_left _ perm_append_comm).trans ?_
    rw [← append_assoc, take_append_drop]

theorem inodeRefs_zero (d : Disk) : inodeRefs d 0 = [] := by
  rw [inodeRefs]
  simp only [Dinode.addr_zero, if_pos]
  simp

theorem perm_flatMap_range {g : ℕ → List ℕ} {fs : List File}
    (h : ∀ i f, fs[i]? = some f → (g i).Perm f.owned) :
    ((List.range fs.length).flatMap g).Perm (fs.flatMap File.owned) := by
  induction fs generalizing g with
  | nil => exact List.Perm.refl _
  | cons f fs ih =>
    rw [length_cons, range_succ_eq_map, flatMap_cons, flatMap_cons,
      flatMap_map]
    exact (h 0 f rfl).append (ih fun i f' hf ↦ h (i + 1) f' hf)

variable {d : Disk} {first : ℕ} {files : List InputFile} {root : File} {fs : List File}

namespace Image

theorem length_eq (h : Image d first files root fs) : fs.length = files.length := by
  have hlen := congrArg List.length h.contents
  rwa [length_map, length_map] at hlen

/-- **Each data block before the first unallocated one is referred to once.** -/
theorem references_perm (h : Image d first files root fs) (hcount : files.length + 2 ≤ ninodes) :
    (references d).Perm (List.range' nmeta (first - nmeta)) := by
  refine List.Perm.trans ?_ h.blocks
  obtain ⟨r, hr⟩ := Nat.le.dest hcount
  have hlen := h.length_eq
  have hrange : List.range ninodes = [0] ++ ((List.range (root :: fs).length).map (1 + ·) ++
      (List.range r).map (files.length + 2 + ·)) := by
    rw [← hr, range_add, length_cons, hlen, show files.length + 2 =
      1 + (files.length + 1) by omega, range_add, append_assoc]
    rfl
  have hzero : inodeRefs d (dinode d 0) = [] := by
    rw [h.free 0 (by decide) (.inl rfl), inodeRefs_zero]
  have hrest : (List.range r).flatMap (fun i ↦ inodeRefs d (dinode d (files.length + 2 + i))) =
      [] := by
    refine flatMap_eq_nil_iff.2 fun i hi ↦ ?_
    have hlt := mem_range.1 hi
    rw [h.free _ (by omega) (.inr (Nat.le_add_right _ _)), inodeRefs_zero]
  rw [references, hrange, flatMap_append, flatMap_append, flatMap_map,
    flatMap_map, flatMap_singleton, hzero, hrest, nil_append, append_nil]
  refine perm_flatMap_range fun i f hf ↦ inodeRefs_perm ?_
  cases i with
  | zero =>
    rw [List.getElem?_cons_zero, some_inj] at hf
    rw [← hf]
    exact h.root_maps
  | succ i =>
    rw [show 1 + (i + 1) = i + 2 by omega, dinode_eq h.sb]
    exact (h.file i f hf).maps

/-- **The contents of a file are read back.** -/
theorem readi_file (h : Image d first files root fs) {i : ℕ} {f : InputFile}
    (hf : files[i]? = some f) :
    (dinode d (i + 2)).type = tFile ∧ ∀ off n : BitVec 32, readi d (dinode d (i + 2)) off n =
      .ok (if off.toNat + n.toNat < 2 ^ 32 then (f.contents.drop off.toNat).take n.toNat
        else []) := by
  obtain ⟨hi, -⟩ := List.getElem?_eq_some_iff.1 hf
  obtain ⟨g, hg⟩ : ∃ g, fs[i]? = some g :=
    ⟨_, List.getElem?_eq_getElem (by rw [h.length_eq]; exact hi)⟩
  have hpair := congrArg (·[i]?) h.contents
  rw [List.getElem?_map, List.getElem?_map, hg, hf, map_some, map_some,
    some_inj, Prod.mk.injEq] at hpair
  have hst := h.file i _ hg
  rw [dinode_eq h.sb]
  refine ⟨hst.maps.type.trans hpair.1, fun off n ↦ ?_⟩
  rw [hst.maps.readi_eq (by rw [hst.size]; exact hst.maps.covers), hst.size]
  refine congrArg _ (if_congr Iff.rfl ?_ rfl)
  rw [← hpair.2]
  by_cases hoff : off.toNat ≤ g.bytes.length
  · show slice (g.bytes.getD · 0) _ _ = _
    rw [slice_getD _ _ (by omega), ← take_take]
    refine congrArg _ (take_of_length_le ?_)
    rw [length_drop]
  · rw [drop_eq_nil_of_le (by omega), take_nil, Nat.sub_eq_zero_of_le (by omega),
      Nat.min_zero, slice_zero]

/-- The path of a file leads to its inode. -/
theorem namei_file (h : Image d first files root fs) (hcount : files.length + 2 ≤ ninodes)
    (hname : ∀ f ∈ files, ∃ s, shortname f.path = .ok s)
    (hdistinct : (files.map InputFile.name).Nodup) {i : ℕ} {f : InputFile}
    (hf : files[i]? = some f) (hne : f.name ≠ []) (hdot : f.name ≠ [dot])
    (hdotdot : f.name ≠ [dot, dot]) (cwd : ℕ) :
    namei d cwd (slash :: f.name) = .ok (some (i + 2)) := by
  obtain ⟨s, hs⟩ := hname f (mem_of_getElem? hf)
  obtain ⟨-, hslash, hlen⟩ := shortname_spec hs
  have hentry : ∀ j g, files[j]? = some g → (entries files)[j + 2]? = some (j + 2, g.name) := by
    intro j g hg
    show (files.mapIdx _)[j]? = _
    rw [List.getElem?_mapIdx, hg]
    rfl
  have hlook := h.dirlookup_eq hcount hname (hentry i f hf) fun j hj e' he' ↦ ?_
  · rw [← shortname_eq hs] at hslash hlen
    exact h.namei_slash hne hslash hlen hlook cwd
  · match j with
    | 0 => exact fun heq ↦ hdot ((congrArg Prod.snd (Option.some.inj he')).trans heq).symm
    | 1 => exact fun heq ↦ hdotdot ((congrArg Prod.snd (Option.some.inj he')).trans heq).symm
    | j + 2 =>
      obtain ⟨hi, hfi⟩ := List.getElem?_eq_some_iff.1 hf
      have hj' : j < files.length := by omega
      have hg := List.getElem?_eq_getElem hj'
      rw [← Option.some.inj ((hentry j _ hg).symm.trans he')]
      have hne' := pairwise_iff_getElem.1 hdistinct j i (by rw [length_map]; exact hj')
        (by rw [length_map]; exact hi) (by omega)
      rwa [getElem_map, getElem_map, hfi] at hne'

end Image

/-! ### The round trip -/

/-- **`mkfs` output is read back by the kernel.** Files that fit, with distinct names that are not
those of the root directory itself, are put into an image in which every path leads to an inode with
the bytes of its file. `readi` takes a range whose end is no `uint` for an empty one. The bitmap
marks the blocks before the first unallocated one, and of these each data block is referred to
once. -/
theorem mkfs_readBack (hfits : Fits files) (hcount : files.length ≤ ninodes - 2)
    (hne : ∀ f ∈ files, f.name ≠ []) (hdistinct : (files.map InputFile.name).Nodup)
    (hdots : ∀ f ∈ files, f.name ≠ [dot] ∧ f.name ≠ [dot, dot]) :
    ∃ m, mkfs files = .ok m ∧
      (∀ f ∈ files, ∃ inum, (∀ cwd, namei m.disk cwd (slash :: f.name) = .ok (some inum)) ∧
        (dinode m.disk inum).type = tFile ∧
        ∀ off n : BitVec 32, readi m.disk (dinode m.disk inum) off n =
          .ok (if off.toNat + n.toNat < 2 ^ 32 then (f.contents.drop off.toNat).take n.toNat
            else [])) ∧
      (∀ b < bpb, (m.disk (bmapstart (m.disk 1))).getLsbD b = decide (b < m.freeblock)) ∧
      ∀ b, (references m.disk).count b = if nmeta ≤ b ∧ b < m.freeblock then 1 else 0 := by
  have hcount' : files.length + 2 ≤ ninodes := by
    have : ninodes = 200 := rfl
    omega
  obtain ⟨m, hm, root, fs, h⟩ := (mkfs_outcome hcount').exists_ok (not_not_intro hfits)
  refine ⟨m, hm, fun f hf ↦ ?_, h.bitmap, fun b ↦ ?_⟩
  · obtain ⟨i, hi⟩ := List.mem_iff_getElem?.1 hf
    obtain ⟨htype, hread⟩ := h.readi_file hi
    exact ⟨i + 2, fun cwd ↦ h.namei_file hcount' hfits.name hdistinct hi (hne f hf) (hdots f hf).1
      (hdots f hf).2 cwd, htype, hread⟩
  · have hle := h.nmeta_le
    rw [(h.references_perm hcount').count_eq, List.Nodup.count List.nodup_range']
    refine if_congr ?_ rfl rfl
    rw [List.mem_range'_1]
    omega

/-- A file of the bytes `1`, `2`, `3`, the first two read at once. -/
def smallFile : InputFile where
  path := userDir ++ [0x5f, 0x61]
  reads := [[1, 2], [3]]
  path_ne_nul := by decide
  reads_le := by decide

theorem mkfs_readBack_smallFile : ∃ m, mkfs [smallFile] = .ok m ∧
    namei m.disk rootIno [slash, 0x61] = .ok (some 2) ∧
    readi m.disk (dinode m.disk 2) 1 10 = .ok [2, 3] := by
  have hfits : Fits [smallFile] := by
    refine ⟨fun f hf ↦ ?_, by decide, by decide⟩
    rw [List.mem_singleton.1 hf]
    exact ⟨[0x61], rfl⟩
  obtain ⟨m, hm, hfile, -, -⟩ := mkfs_readBack hfits (by decide) (by decide) (by decide) (by decide)
  obtain ⟨inum, hpath, -, hread⟩ := hfile smallFile (List.mem_singleton_self _)
  have hinum : inum = 2 := by
    obtain ⟨m', hm', root, fs, h⟩ := (@mkfs_outcome [smallFile] (by decide)).exists_ok
      (not_not_intro hfits)
    rw [Except.ok.inj (hm.symm.trans hm')] at hpath
    have hpath' := h.namei_file (by decide) hfits.name (by decide) (i := 0) rfl (by decide)
      (by decide) (by decide) rootIno
    exact Option.some.inj (Except.ok.inj ((hpath rootIno).symm.trans hpath'))
  subst hinum
  exact ⟨m, hm, hpath rootIno, hread 1 10⟩

/-- The file `user/_.`, which is called `.` in the image. -/
def dotFile : InputFile where
  path := userDir ++ [0x5f, dot]
  reads := [[1]]
  path_ne_nul := by decide
  reads_le := by decide

/-- The path of a file that is called `.` leads to the root directory. -/
theorem mkfs_dotFile : Fits [dotFile] ∧ dotFile.name = [dot] ∧ ∃ m, mkfs [dotFile] = .ok m ∧
    namei m.disk rootIno (slash :: dotFile.name) = .ok (some rootIno) ∧
    (dinode m.disk rootIno).type = tDir := by
  have hfits : Fits [dotFile] := by
    refine ⟨fun f hf ↦ ?_, by decide, by decide⟩
    rw [List.mem_singleton.1 hf]
    exact ⟨[dot], rfl⟩
  obtain ⟨m, hm, root, fs, h⟩ := (@mkfs_outcome [dotFile] (by decide)).exists_ok
    (not_not_intro hfits)
  have hlook := h.dirlookup_eq (by decide) hfits.name (k := 0) rfl nofun
  refine ⟨hfits, rfl, m, hm, h.namei_slash (by decide) (by decide) (by decide) hlook rootIno, ?_⟩
  rw [h.root_maps.type, h.root_type]

end Xv6.Mkfs

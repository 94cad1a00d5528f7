import Mathlib.Tactic.Ring
import Xv6.Fs.Read
import Xv6.Mkfs.Build

/-!
# The image

`Built` is what holds after each turn of the loop over the files: the root directory has an entry
for each file so far, and each has its contents. `Image` is what holds at the end, when the size of
the root directory has been rounded up and the bitmap written. `mkfs` fails only if a name or the
size of a file is not allowed or the blocks do not fit (`mkfs_outcome`).
-/

namespace Xv6.Mkfs

open Fs Function List

variable {m : State} {files : List InputFile}

/-- The name of a file in the image. -/
def InputFile.name (f : InputFile) : List Byte := (shortname f.path).toOption.getD []

/-- The entries of the root directory: inode number and name. -/
def entries (files : List InputFile) : List (ℕ × List Byte) :=
  [(rootIno, [dot]), (rootIno, [dot, dot])] ++ files.mapIdx fun i f ↦ (i + 2, f.name)

/-- The bytes of a directory. -/
def dirBytes (es : List (ℕ × List Byte)) : List Byte := es.flatMap fun e ↦ dirent e.1 e.2

theorem length_strncpy (n : ℕ) (s : List Byte) : (strncpy n s).length = n := by
  rw [strncpy, length_append, length_take, length_replicate]
  omega

theorem length_dirent (inum : ℕ) (name : List Byte) : (dirent inum name).length = direntSize := by
  rw [dirent, length_append, length_strncpy]
  rfl

theorem length_dirBytes (es : List (ℕ × List Byte)) :
    (dirBytes es).length = direntSize * es.length := by
  rw [dirBytes, length_flatMap]
  simp only [length_dirent, map_const', sum_replicate_nat]
  exact mul_comm _ _

theorem length_entries : (entries files).length = files.length + 2 := by
  rw [entries, length_append, length_mapIdx, add_comm]
  rfl

theorem entries_concat (f : InputFile) :
    entries (files ++ [f]) = entries files ++ [(files.length + 2, f.name)] := by
  rw [entries, entries, mapIdx_concat, append_assoc]

/-! ### One file -/

/-- The files that can be put into one image. -/
structure Fits (files : List InputFile) : Prop where
  name : ∀ f ∈ files, ∃ s, shortname f.path = .ok s
  size : ∀ f ∈ files, f.contents.length ≤ maxFile * bsize
  blocks : nmeta + need (direntSize * (files.length + 2)) +
    (files.map fun f ↦ need f.contents.length).sum ≤ fssize

/-- What the loop over the files keeps: `root` is the root directory, `fs` are the others. -/
structure Built (m : State) (files : List InputFile) (root : File) (fs : List File) : Prop where
  inv : Inv m (root :: fs)
  root_type : root.type = tDir
  root_bytes : root.bytes = dirBytes (entries files)
  contents : fs.map (fun f ↦ (f.type, f.bytes)) = files.map fun f ↦ (tFile, f.contents)

namespace Built

variable {root : File} {fs : List File}

theorem length_eq (h : Built m files root fs) : fs.length = files.length := by
  have hlen := congrArg List.length h.contents
  rwa [length_map, length_map] at hlen

theorem length_root (h : Built m files root fs) :
    root.bytes.length = direntSize * (files.length + 2) := by
  rw [h.root_bytes, length_dirBytes, length_entries]

/-- The blocks that the files need. -/
theorem sum_need (h : Built m files root fs) :
    (fs.map fun f ↦ need f.bytes.length).sum =
      (files.map fun f ↦ need f.contents.length).sum := by
  have hmap := congrArg (List.map fun p : BitVec 16 × List Byte ↦ need p.2.length) h.contents
  rw [map_map, map_map] at hmap
  exact congrArg List.sum hmap

theorem freeblock_eq (h : Built m files root fs) :
    m.freeblock = nmeta + need (direntSize * (files.length + 2)) +
      (files.map fun f ↦ need f.contents.length).sum := by
  rw [h.inv.freeblock_eq, map_cons, sum_cons, h.length_root, h.sum_need, add_assoc]

end Built

theorem shortname_eq {f : InputFile} {s : List Byte} (h : shortname f.path = .ok s) :
    f.name = s := by
  rw [InputFile.name, h]
  rfl

/-- Behind the other files, another one is appended to without changing them. -/
theorem set_last {α : Type*} (x : α) (l : List α) (y z : α) :
    (x :: (l ++ [y])).set (l.length + 1) z = x :: (l ++ [z]) := by
  rw [set_cons_succ, set_append_right _ _ (le_refl _), Nat.sub_self]
  rfl

/-- The contents of a file, as they are read. -/
theorem reads_outcome {root : File} {fs : List File} {f : InputFile}
    (hinv : Inv m (root :: (fs ++ [newFile tFile])))
    (hsum : root.bytes.length = direntSize * (files.length + 3) ∧
      (fs.map fun f ↦ need f.bytes.length).sum =
        (files.map fun f ↦ need f.contents.length).sum) :
    Outcome (f.reads.foldlM (fun m buf ↦ iappend m (fs.length + 2) buf) m)
      (maxFile * bsize < f.contents.length ∨
        fssize < nmeta + need (direntSize * (files.length + 3)) +
          (files.map fun f ↦ need f.contents.length).sum + need f.contents.length)
      fun m' ↦ ∃ g : File, Inv m' (root :: (fs ++ [g])) ∧ g.type = tFile ∧
        g.bytes = f.contents := by
  refine Outcome.foldlM (I := fun rs m' ↦ ∃ g : File, Inv m' (root :: (fs ++ [g])) ∧
    g.type = tFile ∧ g.bytes = rs.flatten) f.reads ⟨_, hinv, rfl, rfl⟩ ?_
  rintro rs buf m' ⟨rest, hrest⟩ ⟨g, hg, htype, hbytes⟩
  have hlast : (root :: (fs ++ [g]))[fs.length + 1]? = some g := by
    rw [List.getElem?_cons_succ, List.getElem?_concat_length]
  have hflat : (rs ++ [buf]).flatten = g.bytes ++ buf := by
    rw [flatten_append, flatten_singleton, hbytes]
  have hle : g.bytes.length + buf.length ≤ f.contents.length := by
    rw [← length_append, ← hflat, InputFile.contents, ← hrest,
      @flatten_append _ (rs ++ [buf]) rest, @length_append _ _ rest.flatten]
    exact Nat.le_add_right _ _
  have hmono := need_mono hle
  have hfree := hg.freeblock_eq
  rw [map_cons, sum_cons, map_append, sum_append, map_singleton,
    sum_singleton, hsum.1, hsum.2] at hfree
  refine (iappend_outcome hg hlast buf).mono (fun hbad ↦ ?_) ?_
  · omega
  · rintro m'' ⟨g', hinv', htype', hbytes'⟩
    rw [set_last] at hinv'
    exact ⟨g', hinv', htype'.trans htype, by rw [hbytes', hflat]⟩

/-- **One turn of the loop over the files.** -/
theorem addFile_outcome {all : List InputFile} {f : InputFile} {root : File} {fs : List File}
    (hcount : all.length + 2 ≤ ninodes) (hpre : files ++ [f] <+: all)
    (h : Built m files root fs) :
    Outcome (addFile m f) (¬Fits all) fun m' ↦
      ∃ root' fs', Built m' (files ++ [f]) root' fs' := by
  have hlen := hpre.length_le
  rw [length_append, length_singleton] at hlen
  have hmem : f ∈ all := hpre.subset (mem_append_right _ (mem_singleton_self f))
  -- what the files up to this one need is part of what all files need
  have hneed : nmeta + need (direntSize * (files.length + 3)) +
      (files.map fun f ↦ need f.contents.length).sum + need f.contents.length ≤
        nmeta + need (direntSize * (all.length + 2)) +
          (all.map fun f ↦ need f.contents.length).sum := by
    obtain ⟨rest, rfl⟩ := hpre
    have hmono : need (direntSize * (files.length + 3)) ≤
        need (direntSize * ((files ++ [f] ++ rest).length + 2)) :=
      need_mono (Nat.mul_le_mul_left _ (by omega))
    rw [map_append, map_append, sum_append, sum_append, map_singleton,
      sum_singleton]
    omega
  rw [addFile]
  cases hname : shortname f.path with
  | error e =>
    refine .of_eq_error (e := e) rfl fun hfits ↦ ?_
    obtain ⟨s, hs⟩ := hfits.name f hmem
    rw [hname] at hs
    exact nomatch hs
  | ok name =>
    have hino : m.freeinode = files.length + 2 := by
      rw [h.inv.freeinode, length_cons, h.length_eq]
    obtain ⟨m₁, hm₁, hinv₁⟩ := ialloc_inv h.inv (by omega : m.freeinode < ninodes) tFile
    simp only [except_ok_bind, hm₁]
    have hroot : (root :: fs ++ [newFile tFile])[0]? = some root := rfl
    have hfree₁ : m₁.freeblock = m.freeblock := by
      rw [hinv₁.freeblock_eq, h.inv.freeblock_eq, map_append, sum_append]
      rfl
    refine ((iappend_outcome hinv₁ hroot (dirent m.freeinode name)).mono (fun hbad hfits ↦ ?_)
      fun _ hm ↦ hm).bind ?_
    · have hblocks := hfits.blocks
      have hfree := h.freeblock_eq
      have hnames : direntSize * (files.length + 2) + direntSize =
          direntSize * (files.length + 3) := rfl
      rw [h.length_root, length_dirent, hfree₁, hfree, hnames] at hbad
      have hdirent : direntSize * (files.length + 3) ≤ direntSize * ninodes :=
        Nat.mul_le_mul_left _ (by omega)
      have hmax : direntSize * ninodes ≤ maxFile * bsize := by decide
      omega
    · rintro m₂ ⟨root', hinv₂, htype₂, hbytes₂⟩
      have hset : (root :: fs ++ [newFile tFile]).set 0 root' = root' :: (fs ++ [newFile tFile]) :=
        rfl
      have hroot' : root'.bytes = dirBytes (entries (files ++ [f])) := by
        rw [hbytes₂, h.root_bytes, entries_concat, dirBytes, dirBytes, flatMap_append,
          flatMap_singleton, shortname_eq hname, hino]
      have hlength : root'.bytes.length = direntSize * (files.length + 3) := by
        rw [hroot', length_dirBytes, length_entries, length_append, length_singleton]
      rw [hset] at hinv₂
      rw [hino, ← h.length_eq]
      refine (reads_outcome (f := f) hinv₂ ⟨hlength, h.sum_need⟩).mono (fun hbad hfits ↦ ?_) ?_
      · have hblocks := hfits.blocks
        have hsize := hfits.size f hmem
        omega
      · rintro m₃ ⟨g, hinv₃, htype₃, hbytes₃⟩
        refine ⟨root', fs ++ [g], hinv₃, htype₂.trans h.root_type, hroot', ?_⟩
        rw [map_append, map_append, h.contents, map_singleton, map_singleton,
          htype₃, hbytes₃]

/-! ### The root directory and the bitmap -/

/-- The image before the first inode. -/
theorem inv_blank : Inv ⟨wsect (fun _ ↦ 0) 1 superblock, 1, nmeta⟩ [] where
  freeinode := rfl
  freeinode_le := by decide
  file := nofun
  free inum _ _ := by
    have hne : iblock inum superblock ≠ 1 := by
      rw [iblock_superblock, ipb_eq]
      omega
    dsimp only
    rw [inodeOf, wsect, update_of_ne hne, dinodeAt_zero]
  blocks := by
    rw [Nat.sub_self]
    exact List.Perm.refl _
  nmeta_le := le_refl _
  room := by decide
  fresh b hb := by
    have hne : b ≠ 1 := by
      rintro rfl
      exact absurd hb (by decide)
    dsimp only
    rw [wsect, update_of_ne hne]
  sb := by
    dsimp only
    rw [wsect, update_self]

/-- The root directory with its entries for itself. -/
theorem makeRoot_outcome :
    Outcome makeRoot False fun m ↦ ∃ root fs, Built m [] root fs := by
  obtain ⟨m₁, hm₁, hinv₁⟩ := ialloc_inv inv_blank (by decide) tDir
  rw [makeRoot]
  simp only [hm₁, except_ok_bind]
  rw [if_neg (by decide)]
  have hfree₁ : m₁.freeblock = nmeta := hinv₁.freeblock_eq
  refine ((iappend_outcome (i := 0) hinv₁ rfl _).mono (fun hbad ↦ ?_) fun _ hm ↦ hm).bind ?_
  · rw [length_dirent, hfree₁] at hbad
    exact absurd hbad (by decide)
  rintro m₂ ⟨root, hinv₂, htype₂, hbytes₂⟩
  have hlen₂ : root.bytes.length = direntSize := by
    rw [hbytes₂, length_append, length_dirent]
    rfl
  have hfree₂ : m₂.freeblock = nmeta + need direntSize := by
    rw [hinv₂.freeblock_eq]
    show nmeta + (need root.bytes.length + 0) = _
    rw [hlen₂]
    rfl
  refine (iappend_outcome (i := 0) hinv₂ rfl _).mono (fun hbad ↦ ?_) ?_
  · rw [length_dirent, hfree₂, hlen₂] at hbad
    exact absurd hbad (by decide)
  rintro m₃ ⟨root', hinv₃, htype₃, hbytes₃⟩
  refine ⟨root', [], hinv₃, htype₃.trans htype₂, ?_, rfl⟩
  rw [hbytes₃, hbytes₂]
  simp [dirBytes, entries, newFile]

theorem getLsbD_bitmap {used b : ℕ} (hused : used ≤ bpb) (hb : b < bpb) :
    (bitmap used).getLsbD b = decide (b < used) := by
  have hbpb : bpb = 8192 := rfl
  induction used with
  | zero => simp [bitmap]
  | succ n ih =>
    have hn := ih (by omega)
    rw [bitmap] at hn
    rw [bitmap, range_succ, foldl_append, foldl_cons, foldl_nil,
      BitVec.getLsbD_put _ _ _ _ (by omega)]
    by_cases hbyte : 8 * (n / 8) ≤ b ∧ b < 8 * (n / 8) + 8
    · have hidx : 8 * (n / 8) + (b - 8 * (n / 8)) = b := by omega
      have hlt : b - 8 * (n / 8) < 8 := by omega
      rw [if_pos hbyte, BitVec.getLsbD_or, byteAt, BitVec.getLsbD_field, hidx, hn,
        BitVec.getLsbD_shiftLeft, BitVec.getLsbD_one]
      simp only [hlt, decide_true, Bool.true_and]
      rw [Bool.eq_iff_iff]
      simp only [Bool.or_eq_true, Bool.and_eq_true, Bool.not_eq_true', decide_eq_true_eq,
        decide_eq_false_iff_not]
      omega
    · rw [if_neg hbyte, hn]
      congr 1
      rw [eq_iff_iff]
      omega

/-! ### The whole program -/

/-- The finished image, whose first unallocated block is `first`. -/
structure Image (d : Disk) (first : ℕ) (files : List InputFile) (root : File) (fs : List File) :
    Prop where
  sb : d 1 = superblock
  root_maps : Maps d (dinode d rootIno) root
  root_type : root.type = tDir
  root_bytes : root.bytes = dirBytes (entries files)
  root_tight : root.blocks.length = (root.bytes.length + bsize - 1) / bsize
  root_size : (dinode d rootIno).size.toNat = (root.bytes.length / bsize + 1) * bsize
  file : ∀ i f, fs[i]? = some f → Stored d (i + 2) f
  contents : fs.map (fun f ↦ (f.type, f.bytes)) = files.map fun f ↦ (tFile, f.contents)
  free : ∀ inum < ninodes, inum = 0 ∨ files.length + 2 ≤ inum → dinode d inum = 0
  blocks : ((root :: fs).flatMap File.owned).Perm (List.range' nmeta (first - nmeta))
  nmeta_le : nmeta ≤ first
  bitmap : ∀ b < bpb, (d (bmapstart (d 1))).getLsbD b = decide (b < first)

/-- The inode that `mkfs` writes is the one that the kernel reads. -/
theorem dinode_eq {d : Disk} (h : d 1 = superblock) (inum : ℕ) :
    dinode d inum = inodeOf d inum := by
  rw [dinode, inodeOf, h]

theorem fixRoot_eq {root : File} {fs : List File} (h : Built m files root fs) :
    fixRoot m = .ok { m with disk := putInode m.disk rootIno ((inodeOf m.disk rootIno).setSize
      (.ofNat 32 ((root.bytes.length / bsize + 1) * bsize))) } := by
  have hroot := h.inv.file 0 root rfl
  rw [fixRoot, rinode_eq (by decide), except_ok_bind]
  simp only [xint_eq, hroot.size, winode_eq _ (show rootIno < ninodes by decide), except_ok_bind]

/-- What rounding the size of the root directory up and writing the bitmap leave. -/
theorem image_of_built {root : File} {fs : List File} (hcount : files.length + 2 ≤ ninodes)
    (h : Built m files root fs) :
    Image (wsect (putInode m.disk rootIno ((inodeOf m.disk rootIno).setSize
      (.ofNat 32 ((root.bytes.length / bsize + 1) * bsize)))) 46 (bitmap m.freeblock))
      m.freeblock files root fs := by
  set ip := (inodeOf m.disk rootIno).setSize
    (.ofNat 32 ((root.bytes.length / bsize + 1) * bsize)) with hip
  set d := wsect (putInode m.disk rootIno ip) 46 (bitmap m.freeblock) with hd
  have hrootlt : rootIno < ninodes := by decide
  have hroot := h.inv.file 0 root rfl
  have hsb : d 1 = superblock := by
    rw [hd, wsect, update_of_ne (by decide), putInode_one, h.inv.sb]
  have hdata : ∀ b, nmeta ≤ b → d b = m.disk b := by
    intro b hb
    have hne : b ≠ 46 := by
      rw [nmeta_eq] at hb
      omega
    rw [hd, wsect, update_of_ne hne, putInode_of_le _ hrootlt hb]
  have hino : ∀ inum < ninodes, inodeOf d inum = inodeOf (putInode m.disk rootIno ip) inum := by
    intro inum hi
    rw [inodeOf, inodeOf, hd, wsect, update_of_ne (Nat.ne_of_lt (iblock_lt hi))]
  have hself : inodeOf d rootIno = ip := by rw [hino _ hrootlt, inodeOf_putInode_self]
  have hother : ∀ inum < ninodes, inum ≠ rootIno → inodeOf d inum = inodeOf m.disk inum := by
    intro inum hi hne
    rw [hino _ hi, inodeOf_putInode_of_ne _ hne]
  have hfree : m.freeinode = files.length + 2 := by
    rw [h.inv.freeinode, length_cons, h.length_eq]
  refine ⟨hsb, ?_, h.root_type, h.root_bytes, hroot.tight, ?_, fun i f hf ↦ ?_, h.contents,
    fun inum hi hnot ↦ ?_, h.inv.blocks, h.inv.nmeta_le, fun b hb ↦ ?_⟩
  · rw [dinode_eq hsb, hself, hip]
    exact maps_setSize _ (hroot.maps.congr fun b hb ↦ hdata b (h.inv.mem_owned (i := 0) rfl hb).1)
  · rw [dinode_eq hsb, hself, hip, Dinode.size_setSize, BitVec.toNat_ofNat, Nat.mod_eq_of_lt]
    have hlen := h.length_root
    rw [bsize_eq]
    have : ninodes = 200 := rfl
    have : direntSize = 16 := rfl
    rw [this] at hlen
    omega
  · have hlt : i + 2 < ninodes := by
      have := (List.getElem?_eq_some_iff.1 hf).1
      rw [h.length_eq] at this
      omega
    refine (h.inv.file (i + 1) f hf).congr (hother _ hlt (Nat.succ_succ_ne_one i)) fun b hb ↦ ?_
    exact hdata b (h.inv.mem_owned (i := i + 1) hf hb).1
  · have hne : inum ≠ 1 := by omega
    rw [dinode_eq hsb, hother inum hi hne]
    exact h.inv.free inum hi (by omega)
  · have hroom := h.inv.room
    have : bpb = 8192 := rfl
    have : fssize = 2000 := rfl
    rw [hsb, bmapstart_superblock, hd, wsect, update_self,
      getLsbD_bitmap (by omega) hb]

/-- **What `mkfs` does.** With at most `NINODES - 2` files it fails only if they do not fit. -/
theorem mkfs_outcome (hcount : files.length + 2 ≤ ninodes) :
    Outcome (mkfs files) (¬Fits files) fun m ↦
      ∃ root fs, Image m.disk m.freeblock files root fs := by
  rw [mkfs]
  refine (makeRoot_outcome.mono False.elim fun _ h ↦ h).bind fun m hm ↦ ?_
  refine (Outcome.foldlM (I := fun done m ↦ ∃ root fs, Built m done root fs) files hm
    fun done f m' hpre ⟨root, fs, hbuilt⟩ ↦ addFile_outcome hcount hpre hbuilt).bind ?_
  rintro m' ⟨root, fs, hbuilt⟩
  have hused : m'.freeblock < bpb := lt_of_le_of_lt hbuilt.inv.room (by decide)
  simp only [fixRoot_eq hbuilt, except_ok_bind, balloc, if_pos hused, bmapstart_superblock]
  exact .of_eq_ok rfl ⟨root, fs, image_of_built hcount hbuilt⟩

end Xv6.Mkfs

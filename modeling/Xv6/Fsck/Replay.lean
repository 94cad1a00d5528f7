import Xv6.Fsck.Image
import Xv6.Log.CrashAtomic

/-!
# The shadow is what recovery leaves

The kernel replays the log through the buffer cache, block by block, and then writes the header back
with the count cleared; the checker works on the bytes of the image. Both leave the same disk.
-/

namespace Xv6

open Function Option

namespace Fsck

/-! ### Images as disks -/

/-- The disk that an image is of. -/
def disk (data : ByteSeq) : Disk := fun b ↦ (block data b).le 0 8192

/-- The image of the first `size` blocks of a disk. -/
def image (size : ℕ) (d : Disk) : ByteSeq where
  length := size * bsize
  byte j := if j < size * bsize then (d (j / bsize)).field (8 * (j % bsize)) 8 else 0
  byte_of_le _ hj := if_neg (Nat.not_lt.2 hj)

variable {data s : ByteSeq} {g : Geometry}

theorem disk_apply (data : ByteSeq) (b : ℕ) : disk data b = data.le (b * bsize) 8192 := by
  rw [disk, block, ByteSeq.le_sub _ _ (by decide), Nat.add_zero]

theorem byte_disk (data : ByteSeq) (j : ℕ) :
    (disk data (j / bsize)).field (8 * (j % bsize)) 8 = data.byte j := by
  have hmod : j % bsize < 1024 := Nat.mod_lt _ (by decide)
  have hj : j / bsize * bsize + j % bsize = j := Nat.div_add_mod' j bsize
  rw [disk_apply, ByteSeq.field_le _ _ (by omega), hj, ByteSeq.le_eight]

theorem image_disk {size : ℕ} (h : data.length = size * bsize) : image size (disk data) = data := by
  refine ByteSeq.ext h.symm (funext fun j ↦ ?_)
  by_cases hj : j < size * bsize
  · exact (if_pos hj).trans (byte_disk data j)
  · exact (if_neg hj).trans (data.byte_of_le j (by omega)).symm

theorem length_block {b : ℕ} (h : (b + 1) * bsize ≤ data.length) :
    (block data b).length = bsize := by
  show min bsize (data.length - b * bsize) = bsize
  rw [Nat.add_mul, Nat.one_mul] at h
  omega

/-- Overwriting a block by a block. -/
theorem disk_write_block {t b : ℕ} (ht : (t + 1) * bsize ≤ s.length)
    (hb : (b + 1) * bsize ≤ data.length) :
    disk (s.write (t * bsize) (block data b)) = update (disk s) t (disk data b) := by
  have hlen : (block data b).length = 1024 := length_block hb
  rw [bsize_eq] at ht
  funext c
  by_cases hc : c = t
  · subst hc
    rw [update_self, disk_apply, disk, bsize_eq]
    refine ByteSeq.le_congr fun i hi ↦ ?_
    rw [ByteSeq.byte_write (by omega), if_pos (by omega)]
    congr 1
    omega
  · rw [update_of_ne hc, disk_apply, disk_apply, bsize_eq]
    exact ByteSeq.le_congr fun i hi ↦ ByteSeq.byte_write_of_lt_or_le (by omega)

/-- Overwriting the first word of a block. -/
theorem disk_write_word {t : ℕ} (ht : (t + 1) * bsize ≤ s.length) (x : BitVec 32) :
    disk (s.write (t * bsize) (.ofWord x)) =
      update (disk s) t ((disk s t).put 0 x) := by
  have hlen : (ByteSeq.ofWord x).length = 4 := rfl
  rw [bsize_eq] at ht
  funext c
  by_cases hc : c = t
  · subst hc
    rw [update_self, disk_apply, disk_apply, bsize_eq]
    refine BitVec.eq_of_getLsbD_eq fun i hi ↦ ?_
    rw [ByteSeq.getLsbD_le _ _ hi, BitVec.getLsbD_put _ _ _ _ hi]
    by_cases hx : 0 ≤ i ∧ i < 0 + 32
    · have hpos : c * 1024 + i / 8 - c * 1024 = 0 + i / 8 := by omega
      rw [if_pos hx, ByteSeq.byte_write (by omega), if_pos (by omega), hpos,
        ← ByteSeq.getLsbD_le (.ofWord x) 0 (by omega : i < 32), ByteSeq.le_ofWord, Nat.sub_zero]
    · rw [if_neg hx, ByteSeq.byte_write_of_lt_or_le (by omega), ByteSeq.getLsbD_le _ _ hi]
  · rw [update_of_ne hc, disk_apply, disk_apply, bsize_eq]
    exact ByteSeq.le_congr fun i hi ↦ ByteSeq.byte_write_of_lt_or_le (by omega)

/-! ### The header -/

theorem headerCount_disk (data : ByteSeq) (b : ℕ) :
    headerCount (disk data b) = ((block data b).le 0 32).toInt := by
  rw [headerCount, disk, show 0 = 8 * 0 from rfl, ByteSeq.field_le _ _ (by decide), Nat.add_zero]

theorem headerBlock_disk (data : ByteSeq) (b : ℕ) {i : ℕ} (hi : i < logBlocks) :
    headerBlock (disk data b) i = u32 (block data b) (4 + 4 * i) := by
  rw [logBlocks_eq] at hi
  rw [headerBlock, disk, u32, show 32 * (i + 1) = 8 * (4 + 4 * i) by omega,
    ByteSeq.field_le _ _ (by omega), Nat.zero_add]

/-- `read_head` reads the targets of `parse_log`. -/
theorem readHeader_disk {view : LogView} (h : Replayable data g view) :
    readHeader (disk data g.logstart) = view.targets := by
  have hle := h.count_le
  rw [readHeader, headerCount_disk, ← h.count_eq, h.targets_eq, logTargets]
  refine List.map_congr_left fun i hi ↦ headerBlock_disk data g.logstart ?_
  have hi := List.mem_range.1 hi
  omega

/-! ### The copying loop -/

/-- The blocks of the log from `index` on. -/
def logBlocksFrom (data : ByteSeq) (g : Geometry) (index count : ℕ) : List Block :=
  (List.range' index count).map fun i ↦ disk data (g.logstart + 1 + i)

theorem length_copyTargets (data : ByteSeq) (g : Geometry) (index : ℕ) (targets : List ℕ)
    (s : ByteSeq) : (copyTargets data g index targets s).length = s.length := by
  induction targets generalizing index s with
  | nil => rfl
  | cons target targets ih => rw [copyTargets, ih, ByteSeq.length_write]

theorem disk_copyTargets {index : ℕ} {targets : List ℕ}
    (hdata : (g.logstart + 1 + index + targets.length) * bsize ≤ data.length)
    (hs : ∀ t ∈ targets, (t + 1) * bsize ≤ s.length) :
    disk (copyTargets data g index targets s) =
      applyWrites (targets.zip (logBlocksFrom data g index targets.length)) (disk s) := by
  induction targets generalizing index s with
  | nil => rfl
  | cons target targets ih =>
    rw [List.length_cons] at hdata
    have hb : (g.logstart + 1 + index + 1) * bsize ≤ data.length :=
      Nat.le_trans (Nat.mul_le_mul_right _ (by omega)) hdata
    have hrest := @ih (s.write (target * bsize) (block data (g.logstart + 1 + index))) (index + 1)
      (Nat.le_trans (Nat.mul_le_mul_right _ (by omega)) hdata)
      fun t ht ↦ hs t (List.mem_cons_of_mem _ ht)
    rw [copyTargets, hrest, disk_write_block (hs target List.mem_cons_self) hb]
    rfl

/-! ### The shadow -/

variable {ds : List Diagnostic} {view : LogView} {shadow : ByteSeq}

theorem Geometry.Valid.logstart_eq {length : ℕ} (h : g.Valid length) : g.logstart = 2 := h.2.2.2.2.1

theorem Geometry.Valid.inodestart_eq {length : ℕ} (h : g.Valid length) : g.inodestart = 33 := by
  obtain ⟨-, -, -, hnlog, hlog, hinode, -⟩ := h
  rw [hinode, hlog, hnlog]
  rfl

theorem Geometry.Valid.length_eq {length : ℕ} (h : g.Valid length) : length = g.size * bsize :=
  h.2.1

/-- There are blocks behind the log. -/
theorem inodestart_lt_size (h : (parseGeometry data ds).1 = some g) : 33 < g.size := by
  obtain ⟨-, rfl, hvalid⟩ := parseGeometry_eq_some h
  have hinode := hvalid.inodestart_eq
  obtain ⟨-, -, -, -, -, -, hbmap, hlt, -⟩ := hvalid
  have hstart : (superblock data).bmapstart ≤ (superblock data).dataStart := Nat.le_add_right ..
  rw [← hinode]
  refine Nat.lt_of_le_of_lt ?_ hlt
  refine Nat.le_trans ?_ hstart
  rw [hbmap]
  exact Nat.le_add_right ..

/-- A target lies behind the log, and in the image. -/
theorem Replayable.target_bounds (h : Replayable data g view) (hvalid : g.Valid data.length)
    {t : ℕ} (ht : t ∈ view.targets) : 33 ≤ t ∧ (t + 1) * bsize ≤ data.length := by
  obtain ⟨hge, hlt, -⟩ := h.isTarget t ht
  rw [hvalid.inodestart_eq] at hge
  refine ⟨hge, ?_⟩
  rw [hvalid.length_eq]
  exact Nat.mul_le_mul_right _ hlt

theorem Replayable.length_targets (h : Replayable data g view) :
    view.targets.length = view.count.toNat := by
  rw [h.targets_eq, logTargets, List.length_map, List.length_range]

/-- **The shadow is the disk that recovery leaves.** -/
theorem disk_shadow (hgeo : (parseGeometry data ds).1 = some g) (h : Replayable data g view)
    (hshadow : view.shadow = some shadow) :
    disk shadow = (recoverFromLog g.logstart (Store.boot (disk data))).disk := by
  obtain ⟨-, -, hvalid⟩ := parseGeometry_eq_some hgeo
  have hlog := hvalid.logstart_eq
  have hsize := inodestart_lt_size hgeo
  have hlen := hvalid.length_eq
  have hcount : view.targets.length ≤ 30 := by
    have hle := h.count_le
    have hn := h.length_targets
    rw [logBlocks_eq] at hle
    omega
  have hpending : Pending g.logstart view.targets
      (logBlocksFrom data g 0 view.targets.length) (disk data) (disk data) := by
    refine ⟨readHeader_disk h, fun j hj ↦ ?_, fun _ _ _ ↦ rfl⟩
    simp only [logBlocksFrom, List.getElem_map, List.getElem_range', Nat.zero_add, Nat.one_mul]
    congr 1
    omega
  have hrec := hpending.recover (by simp [logBlocksFrom]) (by rw [logBlocks_eq]; omega)
    fun t ht ↦ by
      have hge := (h.target_bounds hvalid ht).1
      rw [OutsideLog, logBlocks_eq]
      omega
  have hcopy : disk (copyTargets data g 0 view.targets data) = _ :=
    disk_copyTargets (by rw [hlen]; exact Nat.mul_le_mul_right _ (by omega))
      fun t ht ↦ (h.target_bounds hvalid ht).2
  rw [h.shadow_eq, some_inj] at hshadow
  rw [← hshadow, disk_write_word, hcopy, hrec.disk, applyWrites_append]
  · -- no target is the header, so that both clear the count of the same block
    rw [applyWrites_of_notMem fun w hw heq ↦ ?_]
    · rfl
    · have hge := (h.target_bounds hvalid (List.of_mem_zip hw).1).1
      omega
  · rw [length_copyTargets, hlen]
    exact Nat.mul_le_mul_right _ (by omega)

/-- The bytes of the shadow: those of the image but for the targets and the count. -/
theorem byte_copyTargets {index j : ℕ} {targets : List ℕ}
    (h : ∀ t ∈ targets, j < t * bsize ∨ (t + 1) * bsize ≤ j) :
    (copyTargets data g index targets s).byte j = s.byte j := by
  induction targets generalizing index s with
  | nil => rfl
  | cons target targets ih =>
    rw [copyTargets, ih fun t ht ↦ h t (List.mem_cons_of_mem _ ht)]
    refine ByteSeq.byte_write_of_lt_or_le ((h target List.mem_cons_self).imp_right fun hle ↦ ?_)
    have hlen : (block data (g.logstart + 1 + index)).length ≤ bsize := Nat.min_le_left ..
    rw [Nat.add_one_mul] at hle
    omega

theorem byte_shadow (h : Replayable data g view) (hshadow : view.shadow = some shadow) {j : ℕ}
    (hj : ∀ t ∈ view.targets, j < t * bsize ∨ (t + 1) * bsize ≤ j)
    (hcount : j < g.logstart * bsize ∨ g.logstart * bsize + 4 ≤ j) :
    shadow.byte j = data.byte j := by
  rw [h.shadow_eq, some_inj] at hshadow
  rw [← hshadow, ByteSeq.byte_write_of_lt_or_le hcount, byte_copyTargets hj]

theorem length_shadow (h : Replayable data g view) (hshadow : view.shadow = some shadow) :
    shadow.length = data.length := by
  rw [h.shadow_eq, some_inj] at hshadow
  rw [← hshadow, ByteSeq.length_write, length_copyTargets]

/-- The super block stays. -/
theorem parseGeometry_shadow (hgeo : (parseGeometry data ds).1 = some g)
    (h : Replayable data g view) (hshadow : view.shadow = some shadow) (ds' : List Diagnostic) :
    parseGeometry shadow ds' = (some g, ds') := by
  obtain ⟨hmagic, hsuper, hvalid⟩ := parseGeometry_eq_some hgeo
  have hu32 (k : ℕ) (hk : k ≤ 28) : u32 shadow (bsize + k) = u32 data (bsize + k) := by
    rw [u32, u32]
    refine congrArg _ (ByteSeq.le_congr fun i hi ↦ byte_shadow h hshadow (fun t ht ↦ ?_) ?_)
    · have hge := (h.target_bounds hvalid ht).1
      rw [bsize_eq]
      omega
    · rw [hvalid.logstart_eq, bsize_eq]
      omega
  have hsuper' : superblock shadow = g := by
    rw [← hsuper]
    simp only [superblock, hu32 4 (by decide), hu32 8 (by decide), hu32 12 (by decide),
      hu32 16 (by decide), hu32 20 (by decide), hu32 24 (by decide), hu32 28 (by decide)]
  have hlen := length_shadow h hshadow
  have hsize := inodestart_lt_size hgeo
  rw [← hsuper']
  refine parseGeometry_of_valid ?_ ((hu32 0 (by decide)).trans hmagic) ?_
  · rw [hlen, hvalid.length_eq, bsize_eq]
    omega
  · rw [hsuper', hlen]
    exact hvalid

/-- An image with an empty log is its own shadow. -/
theorem parseLog_of_count_zero (hcount : (block s g.logstart).le 0 32 = 0) :
    parseLog s g [] = (⟨0, [], some s⟩, []) := by
  have hword : s.le (g.logstart * bsize) (8 * 4) = 0 := by
    rw [block, ByteSeq.le_sub _ _ (by decide), Nat.add_zero] at hcount
    exact hcount
  have hclear : s.write (g.logstart * bsize) (.ofWord (0 : BitVec 32)) = s := by
    have hwrite := s.write_le (g.logstart * bsize) 4
    rwa [hword] at hwrite
  rw [parseLog]
  simp only [hcount]
  rw [if_neg (by decide)]
  exact congrArg (fun t ↦ ((⟨0, [], some t⟩ : LogView), ([] : List Diagnostic))) hclear

theorem count_shadow (hgeo : (parseGeometry data ds).1 = some g) (h : Replayable data g view)
    (hshadow : view.shadow = some shadow) : (block shadow g.logstart).le 0 32 = 0 := by
  obtain ⟨-, -, hvalid⟩ := parseGeometry_eq_some hgeo
  have hsize := inodestart_lt_size hgeo
  have hlen := hvalid.length_eq
  rw [h.shadow_eq, some_inj] at hshadow
  rw [← hshadow, block, ByteSeq.le_sub _ _ (by decide), Nat.add_zero]
  refine ByteSeq.le_write_ofWord ?_
  rw [length_copyTargets, hlen, hvalid.logstart_eq, bsize_eq]
  omega

/-- **Replay in the checker is recovery in the kernel**: the shadow is the image of the disk that
`recover_from_log` leaves, replaying it once more leaves it as it is, and it differs from the image
in the targets and in the count of the header only. -/
theorem shadow_eq_recovery {ds' : List Diagnostic} (hgeo : (parseGeometry data ds).1 = some g)
    (hlog : (parseLog data g ds').1.shadow = some shadow) :
    shadow = image g.size (recoverFromLog g.logstart (Store.boot (disk data))).disk ∧
      (parseGeometry shadow []).1 = some g ∧
      parseLog shadow g [] = (⟨0, [], some shadow⟩, []) ∧
      shadow.length = data.length ∧
      ∀ j, shadow.byte j ≠ data.byte j →
        (∃ t ∈ (parseLog data g ds').1.targets, t * bsize ≤ j ∧ j < (t + 1) * bsize) ∨
          (g.logstart * bsize ≤ j ∧ j < g.logstart * bsize + 4) := by
  have h : Replayable data g (parseLog data g ds').1 :=
    replayable_of_parseLog (by rw [hlog]; rfl)
  have hlen := length_shadow h hlog
  refine ⟨?_, ?_, parseLog_of_count_zero (count_shadow hgeo h hlog), hlen, fun j hj ↦ ?_⟩
  · obtain ⟨-, -, hvalid⟩ := parseGeometry_eq_some hgeo
    rw [← disk_shadow hgeo h hlog, image_disk (hlen.trans hvalid.length_eq)]
  · rw [parseGeometry_shadow hgeo h hlog]
  · by_contra hnot
    obtain ⟨htargets, hcount⟩ := not_or.1 hnot
    refine hj (byte_shadow h hlog (fun t ht ↦ ?_) (by omega))
    by_contra hin
    exact htargets ⟨t, ht, by omega, by omega⟩

/-- An image of 36 blocks whose log holds one block, for block 35. -/
def loggedBlock : ByteSeq where
  length := 36 * bsize
  byte i := if i < 36 * bsize then
      (([(1024, 0x40), (1025, 0x30), (1026, 0x20), (1027, 0x10), (1028, 36), (1032, 1), (1036, 16),
        (1040, 31), (1044, 2), (1048, 33), (1052, 34), (2048, 1), (2052, 35), (3072, 7)] :
        List (ℕ × BitVec 8)).lookup i).getD 0
    else 0
  byte_of_le _ hi := if_neg (Nat.not_lt.2 hi)

theorem shadow_eq_recovery_loggedBlock :
    ∃ g shadow, (parseGeometry loggedBlock []).1 = some g ∧
      (parseLog loggedBlock g []).1.shadow = some shadow ∧
      shadow = image g.size (recoverFromLog g.logstart (Store.boot (disk loggedBlock))).disk := by
  obtain ⟨g, hgeo⟩ : ∃ g, (parseGeometry loggedBlock []).1 = some g :=
    Option.isSome_iff_exists.1 (by decide +kernel)
  obtain ⟨-, rfl, -⟩ := parseGeometry_eq_some hgeo
  obtain ⟨shadow, hlog⟩ :
      ∃ shadow, (parseLog loggedBlock (superblock loggedBlock) []).1.shadow = some shadow :=
    Option.isSome_iff_exists.1 (by decide +kernel)
  exact ⟨_, shadow, hgeo, hlog, (shadow_eq_recovery hgeo hlog).1⟩

end Fsck

end Xv6

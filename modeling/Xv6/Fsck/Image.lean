import Mathlib.Data.Int.Notation
import Xv6.Library.ByteSeq
import Xv6.Param

/-!
# The offline checker: geometry and log

`docs/xv6-tutorial/resources/recovery/fsck.py` reads an image of the file system, a file of blocks
of `BSIZE` bytes. `parse_geometry` reads the super block and `parse_log` the log; if the log is
sound, `parse_log` returns the image with its log replayed, the *shadow*.

Once the geometry is accepted every position that the checker reads is inside the image, so that no
reading fails. A diagnostic is its code with its fields; the checker keeps the set of their texts
and asks only whether it is empty.
-/

namespace Xv6

namespace Fsck

/-- `FSMAGIC`. -/
abbrev fsMagic : ℕ := 0x10203040

/-- Inodes per block. -/
abbrev ipb : ℕ := bsize / 64

/-- Bitmap bits per block. -/
abbrev bpb : ℕ := bsize * 8

/-- What an address of an inode is for. -/
inductive Kind
  | data | indirect
  deriving DecidableEq

/-- The codes of `diagnostics.add`, with their fields. -/
inductive Diagnostic
  | imageTruncated (bytes : ℕ)
  | superMagic (observed : ℕ)
  | superGeometry (bytes size : ℕ)
  | logCount (count : ℤ)
  | logTarget (index target : ℕ)
  | logDup (index target : ℕ)
  | inodeType (inum : ℕ) (type : ℤ)
  | inodeSize (inum size : ℕ)
  | root
  | inodeHole (index inum : ℕ)
  | inodeTrailing (index inum : ℕ)
  | blockRegion (block index inum : ℕ) (kind : Kind)
  | blockDup (block owners : ℕ)
  | bitmapUnmarked (block : ℕ)
  | bitmapMetadata (block : ℕ)
  | bitmapLeak (block : ℕ)
  | dirSize (inum size : ℕ)
  | dirName (inum offset : ℕ)
  | dirNameDup (inum : ℕ) (name : List (BitVec 8))
  | direntInum (inum target : ℕ)
  | dot (inum : ℕ) (target : ℤ)
  | dirMultiparent (inum : ℕ)
  | dirParent (inum : ℕ)
  | dirCycle (inum : ℕ)
  | orphan (inum : ℕ)
  | unreachable (inum : ℕ)
  | dotdot (inum : ℕ) (target : ℤ)
  | nlink (expected inum : ℕ) (observed : ℤ)
  deriving DecidableEq

/-- `block(data, number)` -/
def block (data : ByteSeq) (number : ℕ) : ByteSeq := data.sub (number * bsize) bsize

/-- `Geometry` -/
structure Geometry where
  size : ℕ
  nblocks : ℕ
  ninodes : ℕ
  nlog : ℕ
  logstart : ℕ
  inodestart : ℕ
  bmapstart : ℕ
  dataStart : ℕ
  deriving DecidableEq

/-- `valid`, for an image of `length` bytes. -/
def Geometry.Valid (g : Geometry) (length : ℕ) : Prop :=
  g.size > 0 ∧ length = g.size * bsize ∧ (0 < g.ninodes ∧ g.ninodes ≤ g.size * ipb) ∧
    g.nlog = logBlocks + 1 ∧ g.logstart = 2 ∧ g.inodestart = g.logstart + g.nlog ∧
    g.bmapstart = g.inodestart + (g.ninodes + ipb - 1) / ipb ∧ g.dataStart < g.size ∧
    g.nblocks = g.size - g.dataStart

instance (g : Geometry) (length : ℕ) : Decidable (g.Valid length) :=
  inferInstanceAs (Decidable (_ ∧ _ ∧ _ ∧ _ ∧ _ ∧ _ ∧ _ ∧ _ ∧ _))

/-- The 32-bit number at position `o`. -/
def u32 (data : ByteSeq) (o : ℕ) : ℕ := (data.le o 32).toNat

/-- The numbers of the super block. -/
def superblock (data : ByteSeq) : Geometry where
  size := u32 data (bsize + 4)
  nblocks := u32 data (bsize + 8)
  ninodes := u32 data (bsize + 12)
  nlog := u32 data (bsize + 16)
  logstart := u32 data (bsize + 20)
  inodestart := u32 data (bsize + 24)
  bmapstart := u32 data (bsize + 28)
  dataStart := u32 data (bsize + 28) + (u32 data (bsize + 4) + bpb - 1) / bpb

/-- `parse_geometry(data, diagnostics)` -/
def parseGeometry (data : ByteSeq) (diagnostics : List Diagnostic) :
    Option Geometry × List Diagnostic :=
  if data.length < 2 * bsize then (none, diagnostics ++ [.imageTruncated data.length])
  else if u32 data bsize ≠ fsMagic then
    (none, diagnostics ++ [.superMagic (u32 data bsize)])
  else if (superblock data).Valid data.length then (some (superblock data), diagnostics)
  else (none, diagnostics ++ [.superGeometry data.length (superblock data).size])

/-! ### The log -/

/-- The loop over the targets, from `index` on. -/
def checkTargets (g : Geometry) : ℕ → List ℕ → List ℕ → List Diagnostic → List Diagnostic
  | _, _, [], diagnostics => diagnostics
  | index, seen, target :: targets, diagnostics =>
    let diagnostics :=
      if target < g.inodestart ∨ target ≥ g.size ∨
          (g.logstart ≤ target ∧ target < g.logstart + g.nlog) then
        diagnostics ++ [.logTarget index target]
      else diagnostics
    let diagnostics :=
      if target ∈ seen then diagnostics ++ [.logDup index target] else diagnostics
    checkTargets g (index + 1) (target :: seen) targets diagnostics

/-- The loop that copies the blocks of the log to their targets, from `index` on. -/
def copyTargets (data : ByteSeq) (g : Geometry) : ℕ → List ℕ → ByteSeq → ByteSeq
  | _, [], shadow => shadow
  | index, target :: targets, shadow =>
    copyTargets data g (index + 1) targets
      (shadow.write (target * bsize) (block data (g.logstart + 1 + index)))

/-- What `parse_log` returns. -/
structure LogView where
  count : ℤ
  targets : List ℕ
  shadow : Option ByteSeq

/-- The targets that the header lists. -/
def logTargets (header : ByteSeq) (count : ℕ) : List ℕ :=
  (List.range count).map fun i ↦ u32 header (4 + 4 * i)

/-- `parse_log(data, geometry, diagnostics)` -/
def parseLog (data : ByteSeq) (g : Geometry) (diagnostics : List Diagnostic) :
    LogView × List Diagnostic :=
  let header := block data g.logstart
  let count := (header.le 0 32).toInt
  if count < 0 ∨ count > logBlocks then
    (⟨count, [], none⟩, diagnostics ++ [.logCount count])
  else
    let targets := logTargets header count.toNat
    let diagnostics := checkTargets g 0 [] targets diagnostics
    if diagnostics ≠ [] then (⟨count, targets, none⟩, diagnostics)
    else
      let shadow := copyTargets data g 0 targets data
      let shadow := shadow.write (g.logstart * bsize) (.ofWord (0 : BitVec 32))
      (⟨count, targets, some shadow⟩, diagnostics)

/-! ### What is accepted -/

variable {data : ByteSeq} {g : Geometry} {ds : List Diagnostic}

theorem parseGeometry_eq_some (h : (parseGeometry data ds).1 = some g) :
    u32 data bsize = fsMagic ∧ superblock data = g ∧ g.Valid data.length := by
  rw [parseGeometry] at h
  split_ifs at h with hlen hmagic hvalid
  obtain rfl := Option.some.inj h
  exact ⟨not_not.1 hmagic, rfl, hvalid⟩

theorem parseGeometry_of_valid (hlen : ¬data.length < 2 * bsize) (hmagic : u32 data bsize = fsMagic)
    (hvalid : (superblock data).Valid data.length) :
    parseGeometry data ds = (some (superblock data), ds) := by
  rw [parseGeometry, if_neg hlen, if_neg (not_not.2 hmagic), if_pos hvalid]

/-- A target of the log that is accepted. -/
def Geometry.IsTarget (g : Geometry) (target : ℕ) : Prop :=
  g.inodestart ≤ target ∧ target < g.size ∧
    ¬(g.logstart ≤ target ∧ target < g.logstart + g.nlog)

theorem checkTargets_eq_nil {index : ℕ} {seen targets : List ℕ}
    (h : checkTargets g index seen targets ds = []) :
    ds = [] ∧ (∀ t ∈ targets, g.IsTarget t ∧ t ∉ seen) ∧ targets.Nodup := by
  induction targets generalizing index seen ds with
  | nil => exact ⟨h, List.forall_mem_nil _, List.nodup_nil⟩
  | cons target targets ih =>
    rw [checkTargets] at h
    obtain ⟨hds, htargets, hnd⟩ := ih h
    split_ifs at hds with hdup hbad hbad
    · simp at hds
    · simp at hds
    · simp at hds
    · refine ⟨hds, ?_, List.nodup_cons.2 ⟨fun hmem ↦ ?_, hnd⟩⟩
      · rintro t ht
        rcases List.mem_cons.1 ht with rfl | ht
        · exact ⟨by simp only [Geometry.IsTarget]; omega, hdup⟩
        · exact ⟨(htargets t ht).1, fun hseen ↦ (htargets t ht).2 (List.mem_cons_of_mem _ hseen)⟩
      · exact (htargets target hmem).2 List.mem_cons_self

/-- The log as it is when `parse_log` returns a shadow. -/
structure Replayable (data : ByteSeq) (g : Geometry) (view : LogView) : Prop where
  count_eq : view.count = ((block data g.logstart).le 0 32).toInt
  count_nonneg : 0 ≤ view.count
  count_le : view.count ≤ logBlocks
  targets_eq : view.targets = logTargets (block data g.logstart) view.count.toNat
  isTarget (t : ℕ) : t ∈ view.targets → g.IsTarget t
  nodup : view.targets.Nodup
  shadow_eq : view.shadow = some ((copyTargets data g 0 view.targets data).write
    (g.logstart * bsize) (.ofWord (0 : BitVec 32)))

theorem replayable_of_parseLog (h : (parseLog data g ds).1.shadow.isSome) :
    Replayable data g (parseLog data g ds).1 := by
  rw [parseLog] at h ⊢
  dsimp only at h ⊢
  split_ifs at h ⊢ with hcount hds
  · simp at h
  · simp at h
  · obtain ⟨-, htargets, hnd⟩ := checkTargets_eq_nil (not_not.1 hds)
    obtain ⟨hneg, hle⟩ := not_or.1 hcount
    exact ⟨rfl, Int.not_lt.1 hneg, Int.not_lt.1 hle, rfl, fun t ht ↦ (htargets t ht).1, hnd, rfl⟩

end Fsck

end Xv6

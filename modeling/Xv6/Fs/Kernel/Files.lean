import Xv6.Fs.Kernel.Content

/-!
# Files

An inode in the table that is as on disk (`Loaded`), and what `iupdate` and `writei` make of it. A
write replaces a piece of the contents and leaves every other inode and its contents as they are
(`Writes`).
-/

namespace Xv6.Fs.Kernel

open Function Finset

variable {E : Panic → Prop} {sb : Superblock} {s t u : Kfs} {ip : Slot} {I : ℕ → Dinode}
  {d d' : Disk} {x x' : Dinode} {i off n : ℕ} {K : Finset ℕ} {data : List Byte}

/-! ### Inodes on disk -/

/-- The inodes on disk. -/
def dinode (sb : Superblock) (d : Disk) (i : ℕ) : Dinode :=
  dinodeAt (d (sb.iblock i)) (i % ipb)

theorem dinode_congr (hs : sb.LaidOut) (h : ∀ b < sb.bmapstart, d' b = d b) (hi : i < sb.ninodes) :
    dinode sb d' i = dinode sb d i := by
  rw [dinode, dinode, h _ (hs.iblock_lt hi)]

/-- Storing an inode. -/
theorem dinode_setDinode (sb : Superblock) (d : Disk) (i : ℕ) (x : Dinode) :
    dinode sb (update d (sb.iblock i) (setDinode (d (sb.iblock i)) (i % ipb) x)) =
      update (dinode sb d) i x := by
  funext j
  have hmod : i % ipb < ipb := Nat.mod_lt i (by decide)
  by_cases hj : j = i
  · rw [hj, update_self, dinode, update_self, dinodeAt_setDinode_self _ hmod]
  rw [update_of_ne hj, dinode, dinode]
  by_cases hblock : sb.iblock j = sb.iblock i
  · have hne : j % ipb ≠ i % ipb := by
      rw [Superblock.iblock, Superblock.iblock, ipb_eq] at hblock
      rw [ipb_eq]
      omega
    rw [hblock, update_self, dinodeAt_setDinode_of_ne _ hne]
  · rw [update_of_ne hblock]

/-- The inode `i` is in the entry `ip` of the table as it is on disk, on a sound file system. -/
structure Loaded (sb : Superblock) (s : Kfs) (ip : Slot) (i : ℕ) : Prop where
  sound : Sound sb s.disk (dinode sb s.disk) ∅
  lt : i < sb.ninodes
  inum : (s.inode ip).inum = i
  din : (s.inode ip).din = dinode sb s.disk i
  type_ne : (dinode sb s.disk i).type ≠ 0

theorem Loaded.inSlot (h : Loaded sb s ip i) : InSlot sb (dinode sb s.disk) i ip s := by
  refine ⟨?_, h.lt, by rw [h.din]; exact h.type_ne⟩
  rw [h.din, update_eq_self]
  exact h.sound

/-- What `iupdate` does. -/
theorem wpe_iupdate {Q : Unit → Kfs → Prop} (hinum : (s.inode ip).inum = i)
    (hQ : Q () (s.edit (sb.iblock i)
      (setDinode (s.disk (sb.iblock i)) (i % ipb) (s.inode ip).din))) :
    wpe E (iupdate sb ip) Q s := by
  rw [iupdate, wpe_bind, wpe_inode, hinum]
  exact hQ

/-- The disk when an inode was stored. -/
def storeInode (sb : Superblock) (d : Disk) (i : ℕ) (x : Dinode) : Disk :=
  update d (sb.iblock i) (setDinode (d (sb.iblock i)) (i % ipb) x)

theorem dinode_storeInode (sb : Superblock) (d : Disk) (i : ℕ) (x : Dinode) :
    dinode sb (storeInode sb d i x) = update (dinode sb d) i x :=
  dinode_setDinode sb d i x

/-- Nothing but inodes has changed. -/
theorem storeInode_of_ge (hs : sb.LaidOut) (hi : i < sb.ninodes) (x : Dinode) {b : ℕ}
    (hb : sb.bmapstart ≤ b) : storeInode sb d i x b = d b := by
  have hlt := hs.iblock_lt hi
  rw [storeInode, update_of_ne (by omega)]

theorem Sound.storeInode (hs : Sound sb d (update (dinode sb d) i x) ∅)
    (hi : i < sb.ninodes) :
    Sound sb (Kernel.storeInode sb d i x) (dinode sb (Kernel.storeInode sb d i x)) ∅ := by
  have hkept := fun b ↦ @storeInode_of_ge sb d i hs.laidOut hi x b
  rw [dinode_storeInode]
  refine hs.of_held (held_congr fun c hc ↦ hkept _ ?_) fun b _ ↦ bit_congr (hkept _ ?_)
  · exact hs.laidOut.bmapstart_le_datastart.trans (hs.held_mem_data hc).1
  · exact Superblock.LaidOut.bmapstart_le sb b

/-- Storing an inode that has been changed in the table. -/
theorem Sound.iupdate (hs : Sound sb s.disk (update (dinode sb s.disk) i (s.inode ip).din) ∅)
    (hi : i < sb.ninodes) (hinum : (s.inode ip).inum = i) :
    wpe E (Kernel.iupdate sb ip) (fun _ t ↦ Sound sb t.disk (dinode sb t.disk) ∅ ∧
      dinode sb t.disk = update (dinode sb s.disk) i (s.inode ip).din ∧
      t.inode = s.inode ∧ Aside s t ∧ (∀ b, sb.bmapstart ≤ b → t.disk b = s.disk b)) s := by
  exact wpe_iupdate hinum ⟨hs.storeInode hi, dinode_storeInode sb s.disk i _, rfl, .edit _ _ _,
    fun b hb ↦ storeInode_of_ge hs.laidOut hi _ hb⟩

/-! ### Changes to one file -/

/-- A file, apart from where its blocks are. -/
@[ext]
structure Node where
  type : BitVec 16
  nlink : BitVec 16
  data : List Byte

/-- The files on disk. -/
def node (sb : Superblock) (d : Disk) (i : ℕ) : Node :=
  ⟨(dinode sb d i).type, (dinode sb d i).nlink, contents d (dinode sb d i)⟩

theorem length_data (sb : Superblock) (d : Disk) (i : ℕ) :
    (node sb d i).data.length = (dinode sb d i).size.toNat := length_slice _ _ _

/-- From `s` to `t` the inode `i` in the entry `ip` has changed, in the table as on disk, and no
other inode. -/
structure Edits (sb : Superblock) (s t : Kfs) (ip : Slot) (i : ℕ) : Prop where
  loaded : Loaded sb t ip i
  slot : t.inode ip = { s.inode ip with din := dinode sb t.disk i }
  others : ∀ e ≠ ip, t.inode e = s.inode e
  aside : Aside s t
  dinode : ∀ j < sb.ninodes, j ≠ i → dinode sb t.disk j = dinode sb s.disk j
  node : ∀ j < sb.ninodes, j ≠ i → node sb t.disk j = node sb s.disk j

/-- Since `s` the inode `i` has changed in the entry `ip`, and is not stored. -/
structure Dirty (sb : Superblock) (s t : Kfs) (ip : Slot) (i : ℕ) : Prop where
  sound : Sound sb t.disk (update (dinode sb s.disk) i (t.inode ip).din) ∅
  slot : ∃ y, t.inode ip = { s.inode ip with din := y }
  others : ∀ e ≠ ip, t.inode e = s.inode e
  aside : Aside s t
  dinode : ∀ j < sb.ninodes, dinode sb t.disk j = dinode sb s.disk j
  contents : ∀ j < sb.ninodes, j ≠ i →
    contents t.disk (Kernel.dinode sb s.disk j) = contents s.disk (Kernel.dinode sb s.disk j)

/-- Storing an inode that has changed. -/
theorem Dirty.iupdate (h : Dirty sb s t ip i) (hi : i < sb.ninodes)
    (hinum : (s.inode ip).inum = i) :
    wpe E (Kernel.iupdate sb ip) (fun _ u ↦ Sound sb u.disk (Kernel.dinode sb u.disk) ∅ ∧
      u.inode = t.inode ∧ Aside s u ∧ node sb u.disk i =
        ⟨(t.inode ip).din.type, (t.inode ip).din.nlink, Kernel.contents t.disk (t.inode ip).din⟩ ∧
      Kernel.dinode sb u.disk i = (t.inode ip).din ∧ ∀ j < sb.ninodes, j ≠ i →
        Kernel.dinode sb u.disk j = Kernel.dinode sb s.disk j ∧
          node sb u.disk j = node sb s.disk j) t := by
  have hsound : Sound sb t.disk
      (update (Kernel.dinode sb t.disk) i (t.inode ip).din) ∅ := by
    refine h.sound.congr_inodes fun j hj ↦ ?_
    by_cases hji : j = i
    · rw [hji, update_self, update_self]
    · rw [update_of_ne hji, update_of_ne hji, h.dinode j hj]
  have hinum' : (t.inode ip).inum = i := by
    obtain ⟨y, hy⟩ := h.slot
    rw [hy]
    exact hinum
  refine (hsound.iupdate hi hinum').mono fun _ u ⟨hu, hdin, hinode, haside, hkept⟩ ↦ ?_
  have hdata : ∀ b, sb.datastart ≤ b → u.disk b = t.disk b := fun b hb ↦
    hkept b (hsound.laidOut.bmapstart_le_datastart.trans hb)
  have hself : Kernel.dinode sb u.disk i = (t.inode ip).din := by rw [hdin, update_self]
  refine ⟨hu, hinode, h.aside.trans haside, ?_, hself, fun j hj hji ↦ ?_⟩
  · have hcont := hsound.contents_of_meta hi hdata
    rw [update_self] at hcont
    rw [node, hself, hcont]
  · have hcont := hsound.contents_of_meta hj hdata
    have hj' : Kernel.dinode sb u.disk j = Kernel.dinode sb s.disk j := by
      rw [hdin, update_of_ne hji, h.dinode j hj]
    rw [update_of_ne hji, h.dinode j hj] at hcont
    exact ⟨hj', by rw [node, node, hj', hcont, h.contents j hj hji]⟩

/-- Storing an inode that has changed and is not free. -/
theorem Dirty.edits (h : Dirty sb s t ip i) (hs : Loaded sb s ip i)
    (htype : (t.inode ip).din.type ≠ 0) :
    wpe E (Kernel.iupdate sb ip) (fun _ u ↦ Edits sb s u ip i ∧
      Kernel.dinode sb u.disk i = (t.inode ip).din ∧ node sb u.disk i =
        ⟨(t.inode ip).din.type, (t.inode ip).din.nlink,
          Kernel.contents t.disk (t.inode ip).din⟩) t := by
  refine (h.iupdate hs.lt hs.inum).mono fun _ u ⟨hu, hinode, haside, hnode, hdin, hother⟩ ↦ ?_
  obtain ⟨y, hy⟩ := h.slot
  have hslot : u.inode ip = { s.inode ip with din := Kernel.dinode sb u.disk i } := by
    rw [hdin, hinode, hy]
  refine ⟨⟨⟨hu, hs.lt, by rw [hslot]; exact hs.inum, by rw [hslot], by rwa [hdin]⟩, hslot,
    fun e he ↦ ?_, haside, fun j hj hji ↦ (hother j hj hji).1, fun j hj hji ↦ (hother j hj hji).2⟩,
    hdin, hnode⟩
  rw [hinode, h.others e he]

/-! ### `writei` -/

/-- Where the blocks of a range are there, all places for it are filled. -/
theorem lacking_span_eq_zero (hmax : off + n ≤ maxFile * bsize)
    (h : ∀ j, off ≤ j → j < off + n → blockAt d x (j / bsize) ≠ 0) :
    lacking d x (span off n) = 0 := by
  refine card_eq_zero.2 (filter_eq_empty_iff.2 fun q hq ↦ ?_)
  obtain ⟨j, hj, hq⟩ := mem_biUnion.1 hq
  rw [mem_Ico] at hj
  have hne := h j hj.1 hj.2
  rw [places] at hq
  split_ifs at hq with hdir
  · rwa [mem_singleton.1 hq]
  · rcases mem_insert.1 hq with rfl | hq
    · exact hne
    · have hbn : j / bsize < maxFile := Nat.div_lt_of_lt_mul (by rw [mul_comm]; omega)
      rw [blockAt_entry (not_lt.1 hdir) hbn] at hne
      rw [mem_singleton.1 hq, blockAt_ind]
      refine toNat_ne_zero fun h0 ↦ hne ?_
      rw [if_pos h0]

/-- From `s` to `t` the bytes `data` were written to the file `i` from `off` on. -/
structure Writes (sb : Superblock) (s t : Kfs) (ip : Slot) (i off : ℕ) (data : List Byte) :
    Prop extends Edits sb s t ip i where
  attrs : (Kernel.dinode sb t.disk i).attrs = (Kernel.dinode sb s.disk i).attrs
  bytes : contents t.disk (Kernel.dinode sb t.disk i) =
    splice (contents s.disk (Kernel.dinode sb s.disk i)) off data

/-- The inode `y` with its final size is to be stored. -/
theorem Wrote.dirty (h : Loaded sb s ip i) {y : Dinode}
    (hoff : off ≤ (dinode sb s.disk i).size.toNat) (hmax : off + data.length ≤ maxFile * bsize)
    (hw : Wrote sb (dinode sb s.disk) i ip s t off data K)
    (hsize : y.size.toNat = max (dinode sb s.disk i).size.toNat (off + data.length))
    (htype : y.type ≠ 0) (haddr : ∀ k ≤ ndirect, y.addr k = (t.inode ip).din.addr k) :
    Dirty sb s (t.setDin ip y) ip i := by
  rw [← h.din] at hsize hoff
  refine ⟨?_, ⟨y, ?_⟩, fun e he ↦ ?_, hw.aside.setDin y, fun j hj ↦ ?_, fun j hj hji ↦ ?_⟩
  · rw [setDin_inode_self]
    exact hw.sound_resize h.inSlot hmax haddr hsize hoff htype
  · rw [setDin_inode_self, hw.slot]
  · rw [setDin_inode_of_ne he, hw.others e he]
  · exact dinode_congr h.sound.laidOut hw.kept_meta hj
  · exact hw.contents_other h.inSlot hj hji

/-- The end of `writei`, where the size is adjusted and the inode is stored. -/
theorem Loaded.writes (h : Loaded sb s ip i) (hoff : off ≤ (dinode sb s.disk i).size.toNat)
    (hmax : off + data.length ≤ maxFile * bsize)
    (hw : Wrote sb (dinode sb s.disk) i ip s t off data K) :
    wpe E (writeiEnd sb ip (off + data.length)) (fun _ u ↦ Writes sb s u ip i off data) t := by
  have hmaxEq : maxFile * bsize = 274432 := rfl
  have hheader : (t.inode ip).din.header = (dinode sb s.disk i).header := by rw [hw.header, h.din]
  have hsize : (t.inode ip).din.size = (dinode sb s.disk i).size := by
    rw [Dinode.size_eq_header, hheader, ← Dinode.size_eq_header]
  have hattrs : (t.inode ip).din.attrs = (dinode sb s.disk i).attrs := by
    rw [Dinode.attrs_eq_header, hheader, ← Dinode.attrs_eq_header]
  have hstore : ∀ y : Dinode,
      y.size.toNat = max (dinode sb s.disk i).size.toNat (off + data.length) →
        y.attrs = (dinode sb s.disk i).attrs → (∀ k ≤ ndirect, y.addr k = (t.inode ip).din.addr k) →
      wpe E (Kernel.iupdate sb ip) (fun _ u ↦ Writes sb s u ip i off data) (t.setDin ip y) := by
    intro y hysize hyattrs hyaddr
    have hytype : y.type ≠ 0 := by
      rw [Dinode.type_eq_attrs, hyattrs, ← Dinode.type_eq_attrs]
      exact h.type_ne
    have hdirty := hw.dirty h hoff hmax hysize hytype hyaddr
    refine (hdirty.edits h (by rwa [setDin_inode_self])).mono fun _ u ⟨hu, hdin, hnode⟩ ↦ ?_
    rw [setDin_inode_self] at hdin hnode
    refine ⟨hu, by rw [hdin]; exact hyattrs, (congrArg Node.data hnode).trans ?_⟩
    rw [← h.din] at hysize hoff ⊢
    exact hw.contents_eq h.inSlot hoff hmax hyaddr hysize
  rw [writeiEnd, wpe_bind, wpe_inode, hsize]
  split_ifs with hgrow
  · rw [wpe_bind, wpe_modifyDin]
    refine hstore _ ?_ ?_ fun k hk ↦ Dinode.addr_setSize _ _ _
    · rw [Dinode.size_setSize, toNat_ofNat_of_lt (by omega)]
      omega
    · rw [Dinode.attrs_setSize, hattrs]
  · have hsame := hstore (t.inode ip).din (by rw [hsize]; omega) hattrs fun _ _ ↦ rfl
    rwa [setDin_self] at hsame

/-- The inode is stored, and its block is logged. -/
theorem writeiEnd_tidy (sb : Superblock) (ip : Slot) (off : ℕ) (s : Kfs) :
    wpe E (writeiEnd sb ip off) (fun _ t ↦ Tidy s t) s := by
  rw [writeiEnd, wpe_bind, wpe_inode]
  split_ifs
  · rw [wpe_bind, wpe_modifyDin]
    exact wpe_iupdate rfl (Tidy.edit (s.setDin ip _) _ _)
  · exact wpe_iupdate rfl (Tidy.edit s _ _)

/-- A `writei` that is not refused at once. -/
def Fits (size : BitVec 32) (off n : BitVec 32) : Prop :=
  off.toNat ≤ size.toNat ∧ off.toNat + n.toNat ≤ maxFile * bsize

theorem not_fits_iff (size off n : BitVec 32) : ¬Fits size off n ↔
    (size < off ∨ off + n < off) ∨ BitVec.ofNat 32 (maxFile * bsize) < off + n := by
  have hmax : maxFile * bsize = 274432 := rfl
  have h₁ := off.isLt
  have h₂ := n.isLt
  rw [Fits, BitVec.lt_def, BitVec.lt_def, BitVec.lt_def, BitVec.toNat_add, hmax,
    toNat_ofNat_of_lt (by omega)]
  omega

/-- How a `writei` of `n` bytes ends that has copied `data` and returns `m`: all bytes are written,
or blocks ran out, or the source ended within a block. -/
structure Stopped (sb : Superblock) (s : Kfs) (src : Src) (i off n : ℕ) (data : List Byte)
    (m : ℕ) : Prop where
  byte : ∀ k < data.length, data[k]? = src.byte s.user k
  le : m ≤ data.length ∧ data.length ≤ n
  ends : m = n ∨
    m = data.length ∧ m < n ∧ (∀ k, m < k →
      freeBlocks sb s.disk < lacking s.disk (dinode sb s.disk i) (span off k)) ∨
    src.byte s.user data.length = none ∧ data.length < n ∧
      (off + data.length) / bsize = (off + m) / bsize
  enough : lacking s.disk (dinode sb s.disk i) (span off data.length) ≤ freeBlocks sb s.disk
  edge : m = n ∨ m = 0 ∨ (off + m) % bsize = 0

theorem Wrote.stopped {src : Src} {m : ℕ} (h : Loaded sb s ip i)
    (hmax : off + n ≤ maxFile * bsize) (hw : Wrote sb (dinode sb s.disk) i ip s t off data K)
    (hK : K ⊆ span off (data.length + 1)) (he : Ended sb s.user src t ip off n data m) :
    Stopped sb s src i off n data m := by
  have hle := he.le
  refine ⟨he.byte, he.le, ?_, ?_, he.edge⟩
  · rcases he.ends with hm | ⟨h₁, h₂, h₃, h₄⟩ | hnone
    · exact .inl hm
    · refine .inr (.inl ⟨h₁, h₂, fun k hk ↦ ?_⟩)
      rw [← h.din]
      exact hw.lt_lacking (hK.trans (span_subset le_rfl (by omega))) h₃
        (places_subset_span (Nat.le_add_right _ _) (by omega) (mem_places _)) h₄
    · exact .inr (.inr hnone)
  · rw [← h.din]
    exact hw.lacking_le (lacking_span_eq_zero (by omega) hw.covered)

/-- The source ends within a block that is reached, behind bytes for this block that differ from
those in the file. -/
def Torn (sb : Superblock) (s : Kfs) (src : Src) (i off n : ℕ) : Prop :=
  ∃ k < n, src.byte s.user k = none ∧ (∀ j < k, src.byte s.user j ≠ none) ∧
    lacking s.disk (dinode sb s.disk i) (span off k) ≤ freeBlocks sb s.disk ∧
    ∃ j < k, (off + j) / bsize = (off + k) / bsize ∧
      src.byte s.user j ≠ some (byteOr s.disk (dinode sb s.disk i) (off + j))

/-- What is copied and not counted makes a difference. -/
theorem Stopped.torn_iff {src : Src} {m : ℕ} (h : Stopped sb s src i off n data m) :
    Torn sb s src i off n ↔ ¬Unchanged s.disk (dinode sb s.disk i) off data m := by
  have hle := h.le
  refine ⟨?_, fun hchanged ↦ ?_⟩
  · rintro ⟨k, hk, hnone, hbefore, hroom, j, hj, hblock, hne⟩ hsame
    have hlen : data.length ≤ k := by
      by_contra hlt
      have hbyte := h.byte k (by omega)
      rw [hnone, List.getElem?_eq_getElem (by omega)] at hbyte
      cases hbyte
    have hedge := h.edge
    rw [bsize_eq] at hblock hedge
    obtain ⟨hm, hlen⟩ : m ≤ j ∧ data.length = k := by
      rcases h.ends with hm | ⟨hm, hmn, hlack⟩ | ⟨hend, hlt, hin⟩
      · omega
      · have hmk : ¬m < k := fun hmk ↦ absurd (hlack k hmk) (not_lt.2 hroom)
        omega
      · have hge : ¬data.length < k := fun hlt ↦ hbefore _ hlt hend
        rw [bsize_eq] at hin
        omega
    exact hne ((h.byte j (by omega)).symm.trans (hsame j hm (by omega)))
  · rw [Unchanged] at hchanged
    push Not at hchanged
    obtain ⟨j, hmj, hj, hne⟩ := hchanged
    obtain ⟨hnone, hlt, hin⟩ := (h.ends.resolve_left (by omega)).resolve_left fun h ↦ by omega
    refine ⟨data.length, hlt, hnone, fun j hj ↦ ?_, h.enough, j, hj, ?_, ?_⟩
    · rw [← h.byte j hj, List.getElem?_eq_getElem hj]
      exact Option.some_ne_none _
    · rw [bsize_eq] at hin ⊢
      omega
    · rwa [← h.byte j hj]

/-- All bytes are written exactly if there are enough blocks. -/
theorem Stopped.eq_iff {src : Src} {m : ℕ} (h : Stopped sb s src i off n data m)
    (hsrc : ∀ k < n, (src.byte s.user k).isSome = true) :
    m = n ↔ lacking s.disk (dinode sb s.disk i) (span off n) ≤ freeBlocks sb s.disk := by
  have hle := h.le
  refine ⟨fun hm ↦ ?_, fun hroom ↦ ?_⟩
  · have henough := h.enough
    rwa [show data.length = n by omega] at henough
  rcases h.ends with hm | ⟨-, hmn, hlack⟩ | ⟨hnone, hlt, -⟩
  · exact hm
  · exact absurd (hlack n hmn) (not_lt.2 hroom)
  · have hsome := hsrc _ hlt
    rw [hnone] at hsome
    exact Bool.noConfusion hsome

/-- What a `writei` does that is not torn: `data` is written, from the source. -/
structure Accepted (sb : Superblock) (s t : Kfs) (ip : Slot) (src : Src) (i off n : ℕ)
    (data : List Byte) : Prop extends Writes sb s t ip i off data where
  byte : ∀ k < data.length, data[k]? = src.byte s.user k
  le : data.length ≤ n
  all : (∀ k < n, (src.byte s.user k).isSome = true) → (data.length = n ↔
    lacking s.disk (Kernel.dinode sb s.disk i) (span off n) ≤ freeBlocks sb s.disk)

/-- **`writei` on a sound file system.** -/
theorem Loaded.writei {src : Src} {off n : BitVec 32} (h : Loaded sb s ip i) :
    wpe E (Kernel.writei sb ip src off n)
      (fun r t ↦ (¬Fits (dinode sb s.disk i).size off n → r = -1 ∧ t = s) ∧
        (Fits (dinode sb s.disk i).size off n → (∃ m : ℕ, r = m) ∧
          (Tidy s t ↔ ¬Torn sb s src i off.toNat n.toNat) ∧
          (¬Torn sb s src i off.toNat n.toNat → ∃ data : List Byte, r = data.length ∧
            Accepted sb s t ip src i off.toNat n.toNat data))) s := by
  have hrefuse := not_fits_iff (dinode sb s.disk i).size off n
  rw [Kernel.writei, wpe_bind, wpe_inode, h.din, wpe_ite]
  refine ⟨fun hg ↦ ⟨fun _ ↦ ⟨rfl, rfl⟩, fun hf ↦ absurd hf (hrefuse.2 (.inl hg))⟩, fun hg ↦ ?_⟩
  rw [wpe_ite]
  refine ⟨fun hg' ↦ ⟨fun _ ↦ ⟨rfl, rfl⟩, fun hf ↦ absurd hf (hrefuse.2 (.inr hg'))⟩, fun hg' ↦ ?_⟩
  have hfits : Fits (dinode sb s.disk i).size off n := by
    by_contra hf
    exact (hrefuse.1 hf).elim hg hg'
  have hmax := hfits.2
  rw [wpe_bind]
  have hloop : wpe E (writeiFrom sb ip n.toNat src off.toNat n.toNat 0) _ s :=
    h.inSlot.writeiFrom (Nat.sub_le _ _) (Nat.zero_le _) hmax
  refine hloop.mono fun r t ⟨data, m, K, hr, hw, hK, he, htidy⟩ ↦ ?_
  have hle := he.le
  have hstop := hw.stopped h hmax hK he
  rw [h.din] at htidy
  replace htidy : TidyIff (¬Torn sb s src i off.toNat n.toNat) s t :=
    htidy.congr (by rw [hstop.torn_iff, not_not])
  rw [hr, zero_add, wpe_bind]
  by_cases htorn : Torn sb s src i off.toNat n.toNat
  · refine (writeiEnd_tidy sb ip _ t).mono fun _ u hu ↦ ⟨fun hf ↦ absurd hfits hf, fun _ ↦ ?_⟩
    exact ⟨⟨m, rfl⟩, (htidy.after hu).tidy_iff, fun hn ↦ absurd htorn hn⟩
  · have hsame := not_not.1 (mt hstop.torn_iff.2 htorn)
    have hlen : (data.take m).length = m := by rw [List.length_take]; omega
    have hend : wpe E (writeiEnd sb ip _) _ t :=
      h.writes hfits.1 (by omega) (hw.trim (m := m) (by rwa [h.din]))
    rw [hlen] at hend
    refine (hend.and (writeiEnd_tidy sb ip _ t)).mono fun _ u ⟨hu, hut⟩ ↦
      ⟨fun hf ↦ absurd hfits hf, fun _ ↦ ⟨⟨m, rfl⟩, (htidy.after hut).tidy_iff, fun _ ↦ ?_⟩⟩
    refine ⟨data.take m, congrArg Nat.cast hlen.symm, hu, fun k hk ↦ ?_, by omega, ?_⟩
    · rw [List.getElem?_take, if_pos (by omega), he.byte k (by omega)]
    · rw [hlen]
      exact hstop.eq_iff

/-! ### A small file system -/

/-- Three inodes and eight blocks, of which four are for data. -/
def smallSb : Superblock := ⟨8, 4, 3, 2, 3⟩

/-- The root directory, with its entries in block 4. -/
def smallRoot : Dinode := ((((0 : Dinode).setType tDir).setNlink 1).setSize 48).setAddr 0 4

/-- A file of 16 bytes in block 5. -/
def smallFile : Dinode := ((((0 : Dinode).setType tFile).setNlink 1).setSize 16).setAddr 0 5

/-- The entries `.`, `..` and `a` of the root directory. -/
def smallEntries : List Byte :=
  [1, 0, 0x2e, 0, 0, 0, 0, 0, 0, 0, 0, 0, 0, 0, 0, 0] ++
  [1, 0, 0x2e, 0x2e, 0, 0, 0, 0, 0, 0, 0, 0, 0, 0, 0, 0] ++
  [2, 0, 0x61, 0, 0, 0, 0, 0, 0, 0, 0, 0, 0, 0, 0, 0]

/-- A file system with the file `/a`. -/
def smallDisk : Disk
  | 2 => setDinode (setDinode 0 1 smallRoot) 2 smallFile
  | 3 => 0x3f
  | 4 => copyIn 0 0 smallEntries
  | _ => 0

/-- The file `/a` is open; the current directory is the root. -/
def small (user : View) : Kfs where
  disk := smallDisk
  ops := []
  inode e :=
    if e = 0 then ⟨1, 1, false, true, smallRoot⟩
    else if e = 1 then ⟨2, 1, false, true, smallFile⟩
    else ⟨0, 0, false, false, 0⟩
  file _ := ⟨1, 0⟩
  user := user
  cwd := 0

@[simp] theorem small_disk (user : View) : (small user).disk = smallDisk := rfl

theorem dinode_small_two : dinode smallSb smallDisk 2 = smallFile := by decide +kernel

/-- Where the blocks are. -/
theorem held_small (c : ℕ × ℕ) : held smallSb smallDisk (dinode smallSb smallDisk) c =
    if c = (1, 0) then 4 else if c = (2, 0) then 5 else 0 := by
  obtain ⟨i, p⟩ := c
  by_cases hi : i < smallSb.ninodes
  · rw [held_of_lt hi]
    by_cases hp : p < 269
    · have hall : ∀ i < 3, ∀ p < 269, blockAt smallDisk (dinode smallSb smallDisk i) p =
          if (i, p) = (1, 0) then 4 else if (i, p) = (2, 0) then 5 else 0 := by decide +kernel
      exact hall i hi p hp
    · rw [blockAt_of_gt (by rw [maxFile_eq]; omega), if_neg (by simp; omega),
        if_neg (by simp; omega)]
  · have hge : 3 ≤ i := not_lt.1 hi
    rw [held, if_neg hi, if_neg (by simp; omega), if_neg (by simp; omega)]

theorem sound_small : Sound smallSb smallDisk (dinode smallSb smallDisk) ∅ where
  laidOut := ⟨by decide, by decide, by decide, by decide⟩
  owns := by
    refine ⟨fun c c' hne heq ↦ ?_, fun _ ↦ notMem_empty _, fun b ↦ ?_, notMem_empty _⟩
    · rw [held_small] at hne heq
      rw [held_small] at heq
      split_ifs at hne heq with h₁ h₂ h₃ h₄ h₅ <;> simp_all
    · have hbits : ∀ b < 8, (4 ≤ b ∧ bit smallSb smallDisk b = true) ↔ b = 4 ∨ b = 5 := by
        decide +kernel
      constructor
      · rintro ⟨hle, hlt, hbit⟩
        replace hle : 4 ≤ b := hle
        refine .inr ⟨by omega, ?_⟩
        rcases (hbits b hlt).1 ⟨hle, hbit⟩ with rfl | rfl
        · exact ⟨(1, 0), held_small _⟩
        · exact ⟨(2, 0), held_small _⟩
      · rintro (hmem | ⟨hb0, c, hc⟩)
        · exact absurd hmem (notMem_empty b)
        · rw [held_small] at hc
          have hb : b = 4 ∨ b = 5 := by split_ifs at hc <;> omega
          have hlt : b < 8 := by omega
          exact ⟨((hbits b hlt).2 hb).1, hlt, ((hbits b hlt).2 hb).2⟩
  metadata := by
    show ∀ b < 4, _
    decide +kernel
  size_le := by
    show ∀ i < 3, _
    decide +kernel
  full := by
    have hsmall : ∀ i < 3, (dinode smallSb smallDisk i).size.toNat ≤ 48 ∧
        (0 < (dinode smallSb smallDisk i).size.toNat →
          blockAt smallDisk (dinode smallSb smallDisk i) 0 ≠ 0) := by decide +kernel
    intro i hi k hk
    obtain ⟨hle, hblock⟩ := hsmall i hi
    obtain rfl : k = 0 := by
      rw [bsize_eq] at hk
      omega
    exact hblock (by omega)
  free := by
    show ∀ i < 3, _
    decide +kernel

theorem loaded_small (user : View) : Loaded smallSb (small user) 1 2 :=
  ⟨sound_small, by decide, rfl, dinode_small_two.symm,
    by rw [small_disk, dinode_small_two]; decide +kernel⟩

/-! ### Files are byte arrays -/

/-- **A file is an array of bytes.** `writei` replaces a piece of the contents, all of it if there
are enough blocks and as much as it returns otherwise, and leaves every other inode alone. `readi`
copies a piece of the contents. -/
theorem file_byteArray {src : Src} {dst : Dst} {off n : BitVec 32} (h : Loaded sb s ip i) :
    ((∀ k < n.toNat, (src.byte s.user k).isSome = true) → Fits (dinode sb s.disk i).size off n →
      wp (writei sb ip src off n) (fun r t ↦ ∃ data : List Byte, r = data.length ∧
        data.length ≤ n.toNat ∧ (∀ k < data.length, data[k]? = src.byte s.user k) ∧
        (data.length = n.toNat ↔ lacking s.disk (dinode sb s.disk i) (span off.toNat n.toNat) ≤
          freeBlocks sb s.disk) ∧
        contents t.disk (dinode sb t.disk i) =
          splice (contents s.disk (dinode sb s.disk i)) off.toNat data ∧
        Loaded sb t ip i ∧
        ∀ j < sb.ninodes, j ≠ i → dinode sb t.disk j = dinode sb s.disk j ∧
          contents t.disk (dinode sb t.disk j) = contents s.disk (dinode sb s.disk j)) s) ∧
    wp (readi sb ip dst off n) (fun r t ↦
      Copied s t dst (pieceOf (contents s.disk (dinode sb s.disk i)) off.toNat n.toNat)
        (pieceOf (contents s.disk (dinode sb s.disk i)) off.toNat n.toNat).length r) s := by
  refine ⟨fun hsrc hfits ↦ ?_, ?_⟩
  · rw [wp_iff_wpe]
    have htorn : ¬Torn sb s src i off.toNat n.toNat := fun ⟨k, hk, hnone, _⟩ ↦ by
      have hsome := hsrc k hk
      rw [hnone] at hsome
      exact Bool.noConfusion hsome
    refine h.writei.mono fun r t ⟨_, hw⟩ ↦ ?_
    obtain ⟨data, hr, hw⟩ := (hw hfits).2.2 htorn
    exact ⟨data, hr, hw.le, hw.byte, hw.all hsrc, hw.bytes, hw.loaded,
      fun j hj hji ↦ ⟨hw.dinode j hj hji, congrArg Node.data (hw.node j hj hji)⟩⟩
  · rw [wp_iff_wpe]
    have hread : wpe (fun _ ↦ False) (readi sb ip dst off n) _ s := h.inSlot.readi
    rwa [h.din] at hread

theorem file_byteArray_small :
    wp (writei smallSb 1 (.kernel fun k ↦ .ofNat 8 k) 10 20) (fun r t ↦ r = 20 ∧
      ∃ data : List Byte, data.length = 20 ∧ contents t.disk (dinode smallSb t.disk 2) =
        splice (contents smallDisk smallFile) 10 data) (small fun _ ↦ none) := by
  have hfits : Fits smallFile.size 10 20 := ⟨by decide +kernel, by decide⟩
  have hroom : lacking smallDisk smallFile (span 10 20) ≤ freeBlocks smallSb smallDisk := by
    decide +kernel
  have hspec := @file_byteArray smallSb (small fun _ ↦ none) 1 2
      (.kernel fun k ↦ .ofNat 8 k) .kernel
    10 20 (loaded_small fun _ ↦ none)
  rw [small_disk, dinode_small_two] at hspec
  have hwrite := hspec.1 (fun _ _ ↦ rfl) hfits
  refine hwrite.mono ?_
  rintro r t ⟨data, hr, -, -, hall, hcont, -⟩
  have hlen : data.length = 20 := hall.2 hroom
  exact ⟨by rw [hr, hlen]; rfl, data, hlen, hcont⟩

/-! ### Writes that are cut short -/

/-- **A write changes what it reports and no more**, exactly if it is refused at once or not torn:
whatever `writei` returns, so many bytes of the file are replaced, and every buffer that was changed
was logged before it was released. -/
theorem writei_exact_iff {src : Src} {off n : BitVec 32} (h : Loaded sb s ip i) :
    wp (writei sb ip src off n) (fun r t ↦ (r = -1 ∧ t = s ∨ ∃ data : List Byte, r = data.length ∧
      (∀ k < data.length, data[k]? = src.byte s.user k) ∧
      (∀ off' n', wp (readi sb ip .kernel off' n') (fun q u ↦ u = t ∧
        q.2 = pieceOf (splice (contents s.disk (dinode sb s.disk i)) off.toNat data)
          off'.toNat n'.toNat ∧ q.1 = q.2.length) t) ∧ Tidy s t) ↔
      ¬(Fits (dinode sb s.disk i).size off n ∧ Torn sb s src i off.toNat n.toNat)) s := by
  rw [wp_iff_wpe]
  refine h.writei.mono fun r t ⟨hrefuse, hw⟩ ↦ ?_
  by_cases hfits : Fits (dinode sb s.disk i).size off n
  swap
  · exact iff_of_true (.inl (hrefuse hfits)) fun hf ↦ hfits hf.1
  obtain ⟨⟨m, hr⟩, htidy, hw⟩ := hw hfits
  rw [and_iff_right hfits]
  refine ⟨?_, fun htorn ↦ .inr ?_⟩
  · rintro (⟨hr', -⟩ | ⟨-, -, -, -, ht⟩)
    · omega
    · exact htidy.1 ht
  · obtain ⟨data, hr, hw⟩ := hw htorn
    refine ⟨data, hr, hw.byte, fun off' n' ↦ ?_, htidy.2 htorn⟩
    have hread : wpe (fun _ ↦ False) (readi sb ip .kernel off' n') _ t :=
      hw.loaded.inSlot.readi_kernel
    rw [hw.loaded.din, hw.bytes] at hread
    rw [wp_iff_wpe]
    refine hread.mono fun q u ⟨hu, hq⟩ ↦ ?_
    rw [hq]
    exact ⟨hu, rfl, rfl⟩

/-- User memory with one page. -/
def onePage : View := fun v ↦ if v = 0 then some (lazyFlags, BitVec.allOnes _) else none

theorem byte_onePage (a : ℕ) : onePage.byte a = none ↔ 4096 ≤ a := by
  have hdiv : a / pgsize = 0 ↔ a < 4096 := Nat.div_eq_zero_iff_lt (by decide)
  rw [View.byte, View.page, onePage]
  split_ifs with h
  · rw [Option.filter_some, if_pos (by decide), Option.map_some]
    exact ⟨(fun h ↦ by cases h), fun hle ↦ absurd (hdiv.1 h) (not_lt.2 hle)⟩
  · exact ⟨fun _ ↦ not_lt.1 fun hlt ↦ h (hdiv.2 hlt), fun _ ↦ rfl⟩

/-- The source ends where a block of the file does. -/
theorem writei_exact_iff_small :
    wp (writei smallSb 1 (.user 3072) 0 2048) (fun r t ↦ r = -1 ∧ t = small onePage ∨
      ∃ data : List Byte, r = data.length ∧
        (∀ k < data.length, data[k]? = Src.byte onePage (.user 3072) k) ∧
        (∀ off' n', wp (readi smallSb 1 .kernel off' n') (fun q u ↦ u = t ∧
          q.2 = pieceOf (splice (contents smallDisk (dinode smallSb smallDisk 2)) 0 data)
            off'.toNat n'.toNat ∧ q.1 = q.2.length) t) ∧ Tidy (small onePage) t)
      (small onePage) := by
  refine (writei_exact_iff (loaded_small onePage)).mono fun r t h ↦ h.2 ?_
  rintro ⟨-, k, -, hnone, hbefore, -, j, hj, hblock, -⟩
  have hge : 4096 ≤ 3072 + k := (byte_onePage _).1 hnone
  have hle : ¬1024 < k := fun hlt ↦ hbefore 1024 hlt ((byte_onePage _).2 le_rfl)
  replace hblock : (0 + j) / 1024 = (0 + k) / 1024 := hblock
  omega

/-- A copy that is cut short within a block: `writei` returns `0`, but eight bytes of the file have
changed, and the block was released without being logged. -/
theorem writei_cut_within_block :
    Loaded smallSb (small onePage) 1 2 ∧
    wp (do
        let before ← readi smallSb 1 .kernel 0 16
        let r ← writei smallSb 1 (.user 4088) 0 16
        let after ← readi smallSb 1 .kernel 0 16
        return (before.2, r, after.2))
      (fun q t ↦ q = (List.replicate 16 0, 0, List.replicate 8 0xff ++ List.replicate 8 0) ∧
        t.ops = [.release 2, .log 2, .release 5, .change 5]) (small onePage) :=
  ⟨loaded_small onePage, by decide +kernel⟩

end Xv6.Fs.Kernel

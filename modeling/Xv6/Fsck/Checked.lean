import Mathlib.Algebra.Order.BigOperators.Group.List
import Mathlib.Algebra.Order.Group.Nat
import Xv6.Fsck.Inspect
import Xv6.Fsck.Replay
import Xv6.Library.Outcome

/-!
# The offline checker on any bytes

`Fsck.checkBytes` takes it for granted that what it reads is there and that the loop over the queue
ends. In `Checked.checkBytes` every reading is preceded by what it needs: an `unpack_from` raises an
error if the bytes end too early, and so does an index; a slice never does in Python, but it is a
fault here if a block is not wholly in the data. The loop over the queue has a number of turns, and
it is a fault if it has not ended by then. There is no fault on any bytes (`checkBytes_eq_ok`).
-/

namespace Xv6

open List

namespace Fsck

/-! ### The queue -/

namespace Traversal

variable {inodes : List Inode} {scans : List (ℕ × DirScan)} {b : Traversal} {current : ℕ}

/-- The turns that are left at most. -/
def turnsLeft (scans : List (ℕ × DirScan)) (b : Traversal) : ℕ :=
  b.queue.length + (scans.map fun p ↦ if p.1 ∈ b.reachable then 0 else p.2.edges.length).sum

theorem visit_le (target : ℕ) : (visit inodes current b target).queue.length ≤ b.queue.length + 1 ∧
    b.reachable ⊆ (visit inodes current b target).reachable := by
  rw [visit]
  cases getInode inodes target with
  | none => exact ⟨Nat.le_succ _, subset_rfl⟩
  | some child =>
    dsimp only
    split_ifs <;> simp [add, Finset.subset_insert]

theorem foldl_visit_le (targets : List ℕ) :
    (targets.foldl (visit inodes current) b).queue.length ≤ b.queue.length + targets.length ∧
      b.reachable ⊆ (targets.foldl (visit inodes current) b).reachable := by
  induction targets generalizing b with
  | nil => exact ⟨le_refl _, subset_rfl⟩
  | cons target targets ih =>
    obtain ⟨hlen, hsub⟩ := @visit_le inodes b current target
    obtain ⟨hlen', hsub'⟩ := @ih (visit inodes current b target)
    rw [foldl_cons, length_cons]
    exact ⟨by omega, hsub.trans hsub'⟩

/-- A directory that is visited for the first time takes its edges out of the sum. -/
theorem sum_insert_le {r r' : Finset ℕ} (hcur : current ∉ r) (hsub : insert current r ⊆ r') :
    (edgesOf scans current).length +
        (scans.map fun p ↦ if p.1 ∈ r' then 0 else p.2.edges.length).sum ≤
      (scans.map fun p ↦ if p.1 ∈ r then 0 else p.2.edges.length).sum := by
  have hhead (p : ℕ × DirScan) : (if p.1 ∈ r' then 0 else p.2.edges.length) ≤
      if p.1 ∈ r then 0 else p.2.edges.length := by
    by_cases hp : p.1 ∈ r
    · rw [if_pos hp, if_pos (hsub (Finset.mem_insert_of_mem hp))]
    · rw [if_neg hp]
      split_ifs <;> omega
  induction scans with
  | nil => exact le_refl _
  | cons p scans ih =>
    rw [map_cons, sum_cons, map_cons, sum_cons, edgesOf, lookup_cons]
    by_cases hp : current = p.1
    · have htail : (scans.map fun p ↦ if p.1 ∈ r' then 0 else p.2.edges.length).sum ≤
          (scans.map fun p ↦ if p.1 ∈ r then 0 else p.2.edges.length).sum :=
        sum_le_sum fun q _ ↦ hhead q
      rw [beq_iff_eq.2 hp, if_pos (hp ▸ hsub (Finset.mem_insert_self ..)), if_neg (hp ▸ hcur)]
      simpa using htail
    · have hp' := hhead p
      rw [beq_eq_false_iff_ne.2 hp]
      rw [edgesOf] at ih
      dsimp only
      omega

/-- A turn takes a directory out of the queue, and puts in at most one for each edge of a directory
that is visited for the first time. -/
theorem turnsLeft_turn {queue : List ℕ} (hq : b.queue = current :: queue) :
    turnsLeft scans (turn inodes scans current { b with queue := queue }) < turnsLeft scans b := by
  rw [turn]
  split_ifs with hcur
  · rw [turnsLeft, turnsLeft, hq, length_cons]
    exact Nat.add_lt_add_right (Nat.lt_succ_self _) _
  · obtain ⟨hlen, hsub⟩ := @foldl_visit_le inodes
      { b with queue := queue, reachable := insert current b.reachable } current
      ((edgesOf scans current).map Prod.snd)
    have hsum := @sum_insert_le scans _ _ _ hcur hsub
    rw [length_map] at hlen
    rw [turnsLeft, turnsLeft, hq, length_cons]
    dsimp only at hlen hsum ⊢
    omega

end Traversal

/-! ### Readings that may fail -/

namespace Checked

/-- What may go wrong. -/
inductive Fault
  /-- `struct.error` -/
  | unpack
  /-- `IndexError` -/
  | index
  /-- A slice that is not in the data. -/
  | outside
  /-- A loop that goes on. -/
  | spins

def need (fault : Fault) (p : Prop) [Decidable p] : Except Fault Unit :=
  if p then .ok () else .error fault

/-- `unpack_from` of `n` bytes. -/
def unpackFrom (data : ByteSeq) (offset n : ℕ) : Except Fault Unit :=
  need .unpack (offset + n ≤ data.length)

/-- `block(data, number)` -/
def block (data : ByteSeq) (number : ℕ) : Except Fault ByteSeq := do
  need .outside ((number + 1) * bsize ≤ data.length)
  return Fsck.block data number

/-- `parse_geometry(data, diagnostics)` -/
def parseGeometry (data : ByteSeq) (diagnostics : List Diagnostic) :
    Except Fault (Option Geometry × List Diagnostic) := do
  if data.length < 2 * bsize then return Fsck.parseGeometry data diagnostics
  else
    unpackFrom data bsize 32
    return Fsck.parseGeometry data diagnostics

/-- The loop of `parse_log` that copies the blocks of the log, each from a slice of the data to one
of the shadow. -/
def copyTargets (data : ByteSeq) (g : Geometry) (targets : List ℕ) : Except Fault ByteSeq := do
  let _ ← targets.zipIdx.mapM fun p ↦ do
    need .outside ((p.1 + 1) * bsize ≤ data.length)
    block data (g.logstart + 1 + p.2)
  return Fsck.copyTargets data g 0 targets data

/-- `parse_log(data, geometry, diagnostics)` -/
def parseLog (data : ByteSeq) (g : Geometry) (diagnostics : List Diagnostic) :
    Except Fault (LogView × List Diagnostic) := do
  let header ← block data g.logstart
  unpackFrom header 0 4
  let count := (header.le 0 32).toInt
  if count < 0 ∨ count > logBlocks then return (⟨count, [], none⟩, diagnostics ++ [.logCount count])
  else
    need .unpack (count = 0 ∨ 4 + 4 * count.toNat ≤ header.length)
    let targets := logTargets header count.toNat
    let diagnostics := checkTargets g 0 [] targets diagnostics
    if diagnostics ≠ [] then return (⟨count, targets, none⟩, diagnostics)
    else
      let shadow ← copyTargets data g targets
      -- `pack_into`
      unpackFrom shadow (g.logstart * bsize) 4
      return (⟨count, targets, some (shadow.write (g.logstart * bsize) (.ofWord (0 : BitVec 32)))⟩,
        diagnostics)

/-- `parse_inodes(data, geometry, diagnostics)` -/
def parseInodes (data : ByteSeq) (g : Geometry) : Except Fault (List Inode × List Diagnostic) := do
  let _ ← (List.range' 1 (g.ninodes - 1)).mapM fun inum ↦
    unpackFrom data (g.inodestart * bsize + inum * 64) 64
  return Fsck.parseInodes data g

/-- `inode_blocks(data, geometry, inode, diagnostics)` -/
def inodeBlocks (data : ByteSeq) (g : Geometry) (inode : Inode) :
    Except Fault (List Address × List Diagnostic) := do
  need .index (ndirect < inode.addrs.length)
  if inode.indirect ≠ 0 ∧ g.InRegion inode.indirect then
    let entries ← block data inode.indirect
    need .unpack (entries.length = 4 * nindirect)
    return Fsck.inodeBlocks data g inode
  else return Fsck.inodeBlocks data g inode

/-- `bitmap_bit(data, geometry, number)` -/
def bitmapBit (data : ByteSeq) (g : Geometry) (number : ℕ) : Except Fault Bool := do
  let bitmap ← block data (g.bmapstart + number / bpb)
  need .index (number % bpb / 8 < bitmap.length)
  return Fsck.bitmapBit data g number

/-- `block(data, address)`, for the address of a chunk if it has one. -/
def chunk (data : ByteSeq) : Option ℕ → Except Fault ByteSeq
  | none => return .zeros 0
  | some address => block data address

/-- `read_inode_bytes(data, geometry, inode, diagnostics)` -/
def readInodeBytes (data : ByteSeq) (g : Geometry) (inode : Inode) :
    Except Fault (ByteSeq × List Diagnostic) := do
  let _ ← inodeBlocks data g inode
  let _ ← (List.range inode.required).mapM fun index ↦ chunk data (inode.dataBlock data g index)
  return Fsck.readInodeBytes data g inode

/-- The loop over the entries of a directory. -/
def scanDir (data : ByteSeq) (g : Geometry) (inodes : List Inode) (inode : Inode) :
    Except Fault (ℕ × DirScan) := do
  let payload ← readInodeBytes data g inode
  let _ ← (List.range (payload.1.length / 16)).mapM fun k ↦ unpackFrom payload.1 (16 * k) 16
  return (inode.inum, Fsck.scanDir data g inodes inode)

/-- The loops of `inspect_view` over the blocks and their bits. -/
def checkBlocks (data : ByteSeq) (g : Geometry) (inodes : List Inode) :
    Except Fault (List Diagnostic) := do
  let _ ← inodes.mapM (inodeBlocks data g)
  let _ ← ((owners data g inodes).map Prod.fst).dedup.mapM (bitmapBit data g)
  let _ ← (List.range g.dataStart).mapM (bitmapBit data g)
  let _ ← (List.range' g.dataStart (g.size - g.dataStart)).mapM (bitmapBit data g)
  return Fsck.checkBlocks data g inodes

/-- The loop over the queue. -/
def run (inodes : List Inode) (scans : List (ℕ × DirScan)) : ℕ → Traversal → Except Fault Traversal
  | 0, b => if b.queue = [] then return b else throw .spins
  | n + 1, b =>
    match b.queue with
    | [] => return b
    | current :: queue => run inodes scans n (.turn inodes scans current { b with queue := queue })

/-- `inspect_view(data, geometry)` -/
def inspectView (data : ByteSeq) (g : Geometry) : Except Fault View := do
  let parsed ← parseInodes data g
  let inodes := parsed.1
  let blocks ← checkBlocks data g inodes
  let scans ← (inodes.filter fun inode ↦ inode.type = tDir).mapM (scanDir data g inodes)
  let b ← run inodes scans (edgeCount scans + 1) (.start inodes)
  return .of data g parsed blocks scans b

/-- `check_bytes(data)` -/
def checkBytes (data : ByteSeq) : Except Fault Verdict := do
  match ← parseGeometry data [] with
  | (none, top) => return .unreadable top
  | (some g, top) =>
    match ← parseLog data g top with
    | (⟨_, _, none⟩, top) => return .unreadable top
    | (⟨count, _, some shadow⟩, top) =>
      return .of top count (← inspectView data g) (← inspectView shadow g)

/-! ### Nothing goes wrong -/

variable {data : ByteSeq} {g : Geometry} {ds : List Diagnostic}

theorem need_eq_ok {fault : Fault} {p : Prop} [Decidable p] (h : p) : need fault p = .ok () :=
  if_pos h

theorem block_eq_ok {number : ℕ} (h : (number + 1) * bsize ≤ data.length) :
    block data number = .ok (Fsck.block data number) := by
  rw [block, need_eq_ok h]
  rfl

theorem parseGeometry_eq_ok (data : ByteSeq) (ds : List Diagnostic) :
    parseGeometry data ds = .ok (Fsck.parseGeometry data ds) := by
  rw [parseGeometry]
  split_ifs with hlen
  · rfl
  · have h32 : bsize + 32 ≤ data.length := by
      rw [bsize_eq] at hlen ⊢
      omega
    rw [unpackFrom, need_eq_ok h32]
    rfl

/-- Where the regions of an accepted image are. -/
structure Regions (g : Geometry) (data : ByteSeq) : Prop where
  length_eq : data.length = 1024 * g.size
  logstart_eq : g.logstart = 2
  inodestart_eq : g.inodestart = 33
  inodes_le : 33 * 16 + g.ninodes ≤ 16 * g.bmapstart
  bitmap_eq : g.bmapstart + (g.size + 8191) / 8192 = g.dataStart
  dataStart_lt : g.dataStart < g.size

namespace Regions

variable {number : ℕ}

theorem of_parseGeometry (h : (Fsck.parseGeometry data ds).1 = some g) : Regions g data := by
  obtain ⟨-, hsuper, hvalid⟩ := parseGeometry_eq_some h
  have hbitmap : (superblock data).dataStart =
      (superblock data).bmapstart + ((superblock data).size + bpb - 1) / bpb := rfl
  have hinode := hvalid.inodestart_eq
  rw [hsuper, show bpb = 8192 from rfl] at hbitmap
  obtain ⟨-, hlen, -, -, hlog, -, hbmap, hlt, -⟩ := hvalid
  rw [bsize_eq] at hlen
  rw [show ipb = 16 from rfl] at hbmap
  exact ⟨by omega, hlog, hinode, by omega, by omega, hlt⟩

theorem of_length_eq (h : Regions g data) {shadow : ByteSeq} (hlen : shadow.length = data.length) :
    Regions g shadow where
  length_eq := hlen.trans h.length_eq
  logstart_eq := h.logstart_eq
  inodestart_eq := h.inodestart_eq
  inodes_le := h.inodes_le
  bitmap_eq := h.bitmap_eq
  dataStart_lt := h.dataStart_lt

theorem mul_bsize_le (h : Regions g data) (hlt : number < g.size) :
    (number + 1) * bsize ≤ data.length := by
  have hlen := h.length_eq
  rw [bsize_eq]
  omega

theorem block_eq_ok (h : Regions g data) (hlt : number < g.size) :
    block data number = .ok (Fsck.block data number) :=
  Checked.block_eq_ok (h.mul_bsize_le hlt)

theorem length_block (h : Regions g data) (hlt : number < g.size) :
    (Fsck.block data number).length = 1024 :=
  Fsck.length_block (h.mul_bsize_le hlt)

/-! ### The log -/

theorem copyTargets_eq_ok (h : Regions g data) {targets : List ℕ} (hlen : targets.length ≤ 30)
    (htargets : ∀ t ∈ targets, t < g.size) :
    copyTargets data g targets = .ok (Fsck.copyTargets data g 0 targets data) := by
  have hturn : ∀ p ∈ targets.zipIdx, (do
      need .outside ((p.1 + 1) * bsize ≤ data.length)
      block data (g.logstart + 1 + p.2)) = .ok (Fsck.block data (g.logstart + 1 + p.2)) := by
    intro p hp
    have hidx := snd_lt_of_mem_zipIdx hp
    have hmem := fst_mem_of_mem_zipIdx hp
    have hinodes := h.inodes_le
    have hbitmap := h.bitmap_eq
    have hdata := h.dataStart_lt
    have hlog := h.logstart_eq
    rw [need_eq_ok (h.mul_bsize_le (htargets p.1 hmem)), ← h.block_eq_ok (by omega)]
    rfl
  rw [copyTargets, mapM_eq_ok hturn]
  rfl

theorem parseLog_eq_ok (h : Regions g data) (ds : List Diagnostic) :
    parseLog data g ds = .ok (Fsck.parseLog data g ds) := by
  have hdata := h.dataStart_lt
  have hinodes := h.inodes_le
  have hbitmap := h.bitmap_eq
  have hlog := h.logstart_eq
  have hheader : (Fsck.block data g.logstart).length = 1024 := h.length_block (by omega)
  have hhead : unpackFrom (Fsck.block data g.logstart) 0 4 = .ok () := need_eq_ok (by omega)
  rw [parseLog, Fsck.parseLog, h.block_eq_ok (by omega)]
  dsimp only [bind, Except.bind]
  rw [hhead]
  dsimp only
  by_cases hcount : ((Fsck.block data g.logstart).le 0 32).toInt < 0 ∨
      ((Fsck.block data g.logstart).le 0 32).toInt > logBlocks
  · rw [if_pos hcount, if_pos hcount]
    rfl
  · have hle : ((Fsck.block data g.logstart).le 0 32).toInt.toNat ≤ 30 := by
      rw [logBlocks_eq] at hcount
      omega
    rw [if_neg hcount, if_neg hcount, need_eq_ok (by omega)]
    dsimp only
    split_ifs with hds
    · rfl
    · obtain ⟨-, htargets, -⟩ := checkTargets_eq_nil (not_not.1 hds)
      rw [h.copyTargets_eq_ok (by rwa [logTargets, length_map, length_range])
        fun t ht ↦ (htargets t ht).1.2.1]
      dsimp only
      rw [unpackFrom, need_eq_ok]
      · rfl
      · have hlen := h.length_eq
        rw [length_copyTargets, bsize_eq]
        omega

/-! ### Inodes and blocks -/

theorem parseInodes_eq_ok (h : Regions g data) :
    parseInodes data g = .ok (Fsck.parseInodes data g) := by
  have hturn : ∀ inum ∈ List.range' 1 (g.ninodes - 1),
      unpackFrom data (g.inodestart * bsize + inum * 64) 64 = .ok () := by
    intro inum hmem
    have hinum := mem_range'_1.1 hmem
    have hlen := h.length_eq
    have hinodes := h.inodes_le
    have hbitmap := h.bitmap_eq
    have hdata := h.dataStart_lt
    have hstart := h.inodestart_eq
    rw [bsize_eq]
    exact need_eq_ok (by omega)
  rw [parseInodes, mapM_eq_ok hturn]
  rfl

theorem bitmapBit_eq_ok (h : Regions g data) {number : ℕ} (hlt : number < g.size) :
    bitmapBit data g number = .ok (Fsck.bitmapBit data g number) := by
  have hbitmap := h.bitmap_eq
  have hdata := h.dataStart_lt
  have hbpb : bpb = 8192 := rfl
  have hblock : g.bmapstart + number / bpb < g.size := by
    rw [hbpb]
    omega
  have hbyte : number % bpb / 8 < (Fsck.block data (g.bmapstart + number / bpb)).length := by
    rw [h.length_block hblock, hbpb]
    omega
  rw [bitmapBit, h.block_eq_ok hblock]
  exact congrArg (· >>= fun _ ↦ .ok (Fsck.bitmapBit data g number)) (need_eq_ok hbyte)

variable {inode : Inode}

theorem inodeBlocks_eq_ok (h : Regions g data) (hinode : inode.addrs.length = 13) :
    inodeBlocks data g inode = .ok (Fsck.inodeBlocks data g inode) := by
  rw [inodeBlocks, need_eq_ok (by rw [hinode]; decide)]
  dsimp only [bind, Except.bind]
  split_ifs with hind
  · have hlen : (Fsck.block data inode.indirect).length = 4 * nindirect :=
      h.length_block hind.2.2
    rw [h.block_eq_ok hind.2.2]
    dsimp only
    rw [need_eq_ok hlen]
    rfl
  · rfl

/-- The addresses of the chunks are in the data region. -/
theorem chunk_eq_ok (h : Regions g data) (index : ℕ) : chunk data (inode.dataBlock data g index) =
    .ok (((inode.dataBlock data g index).map (Fsck.block data)).getD (.zeros 0)) := by
  cases hblock : inode.dataBlock data g index with
  | none => rfl
  | some address =>
    obtain ⟨a, ha, rfl⟩ := Option.map_eq_some_iff.1 hblock
    have hregion := List.find?_some ha
    obtain ⟨-, hin, -⟩ := of_decide_eq_true hregion
    exact h.block_eq_ok hin.2

theorem scanDir_eq_ok (h : Regions g data) (hinode : inode.addrs.length = 13)
    (inodes : List Inode) :
    scanDir data g inodes inode = .ok (inode.inum, Fsck.scanDir data g inodes inode) := by
  have hread : readInodeBytes data g inode = .ok (Fsck.readInodeBytes data g inode) := by
    rw [readInodeBytes, h.inodeBlocks_eq_ok hinode, mapM_eq_ok fun k _ ↦ h.chunk_eq_ok k]
    rfl
  have hturn : ∀ k ∈ List.range ((Fsck.readInodeBytes data g inode).1.length / 16),
      unpackFrom (Fsck.readInodeBytes data g inode).1 (16 * k) 16 = .ok () := by
    intro k hk
    have hk := mem_range.1 hk
    exact need_eq_ok (by omega)
  rw [scanDir, hread]
  dsimp only [bind, Except.bind]
  rw [mapM_eq_ok hturn]
  rfl

/-- The blocks that the inodes own are in the data region. -/
theorem lt_of_mem_owners {inodes : List Inode} {number : ℕ}
    (h : number ∈ (owners data g inodes).map Prod.fst) : number < g.size := by
  obtain ⟨o, ho, rfl⟩ := mem_map.1 h
  obtain ⟨inode, -, ho⟩ := mem_flatMap.1 ho
  obtain ⟨a, ha, rfl⟩ := mem_map.1 ho
  exact (of_decide_eq_true (mem_filter.1 ha).2).2

theorem checkBlocks_eq_ok (h : Regions g data) {inodes : List Inode}
    (hinodes : ∀ inode ∈ inodes, inode.addrs.length = 13) :
    checkBlocks data g inodes = .ok (Fsck.checkBlocks data g inodes) := by
  have hdata := h.dataStart_lt
  have howned : ∀ number ∈ ((owners data g inodes).map Prod.fst).dedup, number < g.size :=
    fun number hn ↦ lt_of_mem_owners (mem_dedup.1 hn)
  have hmeta : ∀ number ∈ List.range g.dataStart, number < g.size :=
    fun number hn ↦ (mem_range.1 hn).trans hdata
  have hrest : ∀ number ∈ List.range' g.dataStart (g.size - g.dataStart), number < g.size := by
    intro number hn
    have hn := mem_range'_1.1 hn
    omega
  rw [checkBlocks, mapM_eq_ok fun inode hi ↦ h.inodeBlocks_eq_ok (hinodes inode hi),
    mapM_eq_ok fun number hn ↦ h.bitmapBit_eq_ok (howned number hn),
    mapM_eq_ok fun number hn ↦ h.bitmapBit_eq_ok (hmeta number hn),
    mapM_eq_ok fun number hn ↦ h.bitmapBit_eq_ok (hrest number hn)]
  rfl

/-- An inode has thirteen addresses. -/
theorem length_addrs {inode : Inode} (h : inode ∈ inodesOf data g) : inode.addrs.length = 13 := by
  obtain ⟨inum, -, hparse⟩ := mem_filterMap.1 h
  rw [parseInode] at hparse
  split_ifs at hparse
  all_goals
    rw [← Option.some.inj hparse]
    rfl

end Regions

theorem run_eq_ok {inodes : List Inode} {scans : List (ℕ × DirScan)} {b : Traversal} {n : ℕ}
    (h : b.turnsLeft scans ≤ n) : run inodes scans n b = .ok (Traversal.run inodes scans n b) := by
  induction n generalizing b with
  | zero =>
    have hlen : b.queue.length = 0 := by
      rw [Traversal.turnsLeft] at h
      omega
    exact if_pos (length_eq_zero_iff.1 hlen)
  | succ n ih =>
    rw [run, Traversal.run]
    cases hq : b.queue with
    | nil => rfl
    | cons current queue =>
      have hlt := @Traversal.turnsLeft_turn inodes scans b current queue hq
      exact ih (by omega)

theorem Regions.inspectView_eq_ok (h : Regions g data) :
    inspectView data g = .ok (Fsck.inspectView data g) := by
  have haddrs : ∀ inode ∈ (Fsck.parseInodes data g).1, inode.addrs.length = 13 :=
    fun inode hi ↦ length_addrs hi
  have hscans : ((Fsck.parseInodes data g).1.filter fun inode ↦ inode.type = tDir).mapM
      (scanDir data g (Fsck.parseInodes data g).1) =
        .ok (scanDirs data g (Fsck.parseInodes data g).1) :=
    mapM_eq_ok fun inode hi ↦
      h.scanDir_eq_ok (haddrs inode (mem_filter.1 hi).1) _
  have hrun (scans : List (ℕ × DirScan)) :
      (Traversal.start (Fsck.parseInodes data g).1).turnsLeft scans ≤ edgeCount scans + 1 := by
    rw [Traversal.turnsLeft, Traversal.start, edgeCount]
    dsimp only
    split_ifs <;> simp [add_comm]
  rw [inspectView, h.parseInodes_eq_ok]
  dsimp only [bind, Except.bind]
  rw [h.checkBlocks_eq_ok haddrs, hscans]
  dsimp only
  rw [run_eq_ok (hrun _)]
  rfl

theorem checkBytes_eq_ok (data : ByteSeq) : checkBytes data = .ok (Fsck.checkBytes data) := by
  rw [checkBytes, Fsck.checkBytes, parseGeometry_eq_ok]
  dsimp only [bind, Except.bind]
  cases hgeo : Fsck.parseGeometry data [] with
  | mk accepted top =>
    cases accepted with
    | none => rfl
    | some g =>
      have hregions : Regions g data := .of_parseGeometry (congrArg Prod.fst hgeo)
      dsimp only
      rw [hregions.parseLog_eq_ok]
      dsimp only
      cases hlog : Fsck.parseLog data g top with
      | mk view top' =>
        obtain ⟨count, targets, replayed⟩ := view
        cases replayed with
        | none => rfl
        | some shadow =>
          have hshadow : (Fsck.parseLog data g top).1.shadow = some shadow := by rw [hlog]
          have hlen : shadow.length = data.length :=
            length_shadow (replayable_of_parseLog (by rw [hshadow]; rfl)) hshadow
          dsimp only
          rw [hregions.inspectView_eq_ok, (hregions.of_length_eq hlen).inspectView_eq_ok]
          rfl

end Checked

/-- **The checker is robust on any bytes**: it returns, without a fault, what the model without
faults returns. No target of a log that is replayed is block 0, block 1 or a block of the log, so
that up to the end of the log the shadow has the bytes of the data, but for the count. -/
theorem checkBytes_robust (data : ByteSeq) :
    Checked.checkBytes data = .ok (checkBytes data) ∧
      ∀ g shadow, (parseGeometry data []).1 = some g →
        (parseLog data g []).1.shadow = some shadow →
        (∀ t ∈ (parseLog data g []).1.targets,
          t ≠ 0 ∧ t ≠ 1 ∧ ¬(g.logstart ≤ t ∧ t < g.logstart + g.nlog)) ∧
        ∀ j < (g.logstart + g.nlog) * bsize,
          ¬(g.logstart * bsize ≤ j ∧ j < g.logstart * bsize + 4) →
          shadow.byte j = data.byte j := by
  refine ⟨Checked.checkBytes_eq_ok data, fun g shadow hgeo hlog ↦ ?_⟩
  have h : Replayable data g (parseLog data g []).1 := replayable_of_parseLog (by rw [hlog]; rfl)
  obtain ⟨-, -, hvalid⟩ := parseGeometry_eq_some hgeo
  have hinode := hvalid.inodestart_eq
  have hend : g.inodestart = g.logstart + g.nlog := hvalid.2.2.2.2.2.1
  refine ⟨fun t ht ↦ ?_, fun j hj hcount ↦ byte_shadow h hlog (fun t ht ↦ .inl ?_) (by omega)⟩
  · have hge := (h.target_bounds hvalid ht).1
    exact ⟨by omega, by omega, (h.isTarget t ht).2.2⟩
  · have hge := (h.target_bounds hvalid ht).1
    rw [← hend, hinode] at hj
    exact hj.trans_le (Nat.mul_le_mul_right _ hge)

theorem checkBytes_robust_loggedBlock :
    Checked.checkBytes loggedBlock = .ok (checkBytes loggedBlock) ∧
      ∃ g shadow, (parseGeometry loggedBlock []).1 = some g ∧
        (parseLog loggedBlock g []).1.shadow = some shadow ∧
        (parseLog loggedBlock g []).1.targets = [35] ∧ 35 ≠ 0 ∧ 35 ≠ 1 ∧
        shadow.byte 3072 = loggedBlock.byte 3072 := by
  obtain ⟨g, hgeo⟩ : ∃ g, (parseGeometry loggedBlock []).1 = some g :=
    Option.isSome_iff_exists.1 (by decide +kernel)
  obtain ⟨-, rfl, -⟩ := parseGeometry_eq_some hgeo
  obtain ⟨shadow, hlog⟩ :
      ∃ shadow, (parseLog loggedBlock (superblock loggedBlock) []).1.shadow = some shadow :=
    Option.isSome_iff_exists.1 (by decide +kernel)
  have htargets : (parseLog loggedBlock (superblock loggedBlock) []).1.targets = [35] := by
    decide +kernel
  obtain ⟨hok, hrest⟩ := checkBytes_robust loggedBlock
  obtain ⟨hmem, hbytes⟩ := hrest _ shadow hgeo hlog
  have h35 := hmem 35 (by rw [htargets]; exact List.mem_singleton_self _)
  exact ⟨hok, _, shadow, hgeo, hlog, htargets, h35.1, h35.2.1,
    hbytes 3072 (by decide +kernel) (by decide +kernel)⟩

end Fsck

end Xv6

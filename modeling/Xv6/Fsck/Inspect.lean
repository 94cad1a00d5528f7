import Mathlib.Algebra.BigOperators.Group.List.Basic
import Mathlib.Algebra.Ring.Nat
import Mathlib.Data.Finset.Card
import Mathlib.Data.List.Dedup
import Xv6.Fsck.Image

/-!
# The offline checker: inodes, blocks and directories

`parse_inodes`, `inode_blocks`, `read_inode_bytes`, `inspect_view` and `check_bytes` of `fsck.py`.
Diagnostics are only added to and looked at in the end: each function returns those that it adds.
-/

namespace Xv6

namespace Fsck

abbrev rootIno : ℕ := 1

abbrev ndirect : ℕ := 12

abbrev nindirect : ℕ := bsize / 4

abbrev tDir : ℤ := 1

abbrev tFile : ℤ := 2

abbrev tDevice : ℤ := 3

/-! ### Inodes -/

/-- `Inode` -/
structure Inode where
  inum : ℕ
  type : ℤ
  major : ℤ
  minor : ℤ
  nlink : ℤ
  size : ℕ
  addrs : List ℕ
  deriving DecidableEq

/-- The signed 16-bit number at position `o`. -/
def i16 (data : ByteSeq) (o : ℕ) : ℤ := (data.le o 16).toInt

/-- `DINODE.unpack_from(data, offset)` -/
def readInode (data : ByteSeq) (g : Geometry) (inum : ℕ) : Inode :=
  let offset := g.inodestart * bsize + inum * 64
  { inum := inum
    type := i16 data offset
    major := i16 data (offset + 2)
    minor := i16 data (offset + 4)
    nlink := i16 data (offset + 6)
    size := u32 data (offset + 8)
    addrs := (List.range (ndirect + 1)).map fun k ↦ u32 data (offset + 12 + 4 * k) }

/-- A turn of the loop of `parse_inodes`. -/
def parseInode (data : ByteSeq) (g : Geometry) (inum : ℕ) : Option Inode × List Diagnostic :=
  let inode := readInode data g inum
  if inode.type = 0 then (none, [])
  else if ¬(inode.type = tDir ∨ inode.type = tFile ∨ inode.type = tDevice) then
    (none, [.inodeType inum inode.type])
  else (some inode, if inode.size > maxFile * bsize then [.inodeSize inum inode.size] else [])

/-- The inodes of the image, by number. -/
def inodesOf (data : ByteSeq) (g : Geometry) : List Inode :=
  (List.range' 1 (g.ninodes - 1)).filterMap fun inum ↦ (parseInode data g inum).1

/-- `inodes.get(inum)` -/
def getInode (inodes : List Inode) (inum : ℕ) : Option Inode :=
  inodes.find? fun inode ↦ inode.inum = inum

/-- `parse_inodes(data, geometry, diagnostics)` -/
def parseInodes (data : ByteSeq) (g : Geometry) : List Inode × List Diagnostic :=
  let inodes := inodesOf data g
  (inodes, (List.range' 1 (g.ninodes - 1)).flatMap (fun inum ↦ (parseInode data g inum).2) ++
    if (getInode inodes rootIno).any fun root ↦ root.type = tDir then [] else [.root])

/-! ### Blocks of an inode -/

/-- An entry of `addresses`. -/
structure Address where
  kind : Kind
  index : ℕ
  address : ℕ
  deriving DecidableEq

/-- `geometry.data_start <= address < geometry.size` -/
def Geometry.InRegion (g : Geometry) (address : ℕ) : Prop :=
  g.dataStart ≤ address ∧ address < g.size

instance (g : Geometry) (address : ℕ) : Decidable (g.InRegion address) :=
  inferInstanceAs (Decidable (_ ∧ _))

/-- `inode.addrs[NDIRECT]` -/
def Inode.indirect (inode : Inode) : ℕ := inode.addrs.getD ndirect 0

/-- The entries of an indirect block. -/
def indirectEntries (data : ByteSeq) (address : ℕ) : List ℕ :=
  (List.range nindirect).map fun k ↦ u32 (block data address) (4 * k)

/-- `logical[NDIRECT:]`: zeros if there is no indirect block, or none in the data region. -/
def Inode.entries (data : ByteSeq) (g : Geometry) (inode : Inode) : List ℕ :=
  if inode.indirect ≠ 0 ∧ g.InRegion inode.indirect then indirectEntries data inode.indirect
  else List.replicate nindirect 0

/-- `logical` -/
def Inode.logical (data : ByteSeq) (g : Geometry) (inode : Inode) : List ℕ :=
  inode.addrs.take ndirect ++ inode.entries data g

/-- The addresses of a list that are not zero, counted from `start`. -/
def dataAddresses (start : ℕ) (l : List ℕ) : List Address :=
  (l.zipIdx start).filterMap fun p ↦ if p.1 ≠ 0 then some ⟨.data, p.2, p.1⟩ else none

/-- `addresses` -/
def Inode.addresses (data : ByteSeq) (g : Geometry) (inode : Inode) : List Address :=
  dataAddresses 0 (inode.addrs.take ndirect) ++
    (if inode.indirect ≠ 0 then [⟨.indirect, ndirect, inode.indirect⟩] else []) ++
    dataAddresses ndirect (inode.entries data g)

/-- `required`: how many blocks the size asks for. -/
def Inode.required (inode : Inode) : ℕ := (inode.size + bsize - 1) / bsize

/-- `inode_blocks(data, geometry, inode, diagnostics)` -/
def inodeBlocks (data : ByteSeq) (g : Geometry) (inode : Inode) :
    List Address × List Diagnostic :=
  (inode.addresses data g,
    (inode.logical data g).zipIdx.flatMap (fun p ↦
      if p.2 < inode.required ∧ p.1 = 0 then [Diagnostic.inodeHole p.2 inode.inum]
      else if p.2 ≥ inode.required ∧ p.1 ≠ 0 then [.inodeTrailing p.2 inode.inum]
      else []) ++
    (if inode.required ≤ ndirect ∧ inode.indirect ≠ 0 then
      [.inodeTrailing ndirect inode.inum] else []) ++
    (inode.addresses data g).flatMap fun a ↦
      if g.InRegion a.address then []
      else [.blockRegion a.address a.index inode.inum a.kind])

/-- `bitmap_bit(data, geometry, number)` -/
def bitmapBit (data : ByteSeq) (g : Geometry) (number : ℕ) : Bool :=
  ((block data (g.bmapstart + number / bpb)).byte (number % bpb / 8)).getLsbD (number % bpb % 8)

/-- `data_blocks.get(index)`. The last entry for an index is the one that counts. -/
def Inode.dataBlock (data : ByteSeq) (g : Geometry) (inode : Inode) (index : ℕ) : Option ℕ :=
  ((inode.addresses data g).reverse.find? fun a ↦
    a.kind = .data ∧ g.InRegion a.address ∧ a.index = index).map (·.address)

/-- The loop of `read_inode_bytes`: `n` turns from `index` on. -/
def readChunks (data : ByteSeq) (dataBlock : ℕ → Option ℕ) : ℕ → ℕ → ℕ → ByteSeq
  | 0, _, _ => .zeros 0
  | n + 1, index, remaining =>
    let count := min remaining bsize
    let chunk : ByteSeq := match dataBlock index with
      | none => .zeros count
      | some address => (block data address).sub 0 count
    chunk.append (readChunks data dataBlock n (index + 1) (remaining - count))

/-- `read_inode_bytes(data, geometry, inode, diagnostics)` -/
def readInodeBytes (data : ByteSeq) (g : Geometry) (inode : Inode) :
    ByteSeq × List Diagnostic :=
  (readChunks data (inode.dataBlock data g) inode.required 0 inode.size,
    (inodeBlocks data g inode).2 ++ (List.range inode.required).flatMap fun index ↦
      if inode.dataBlock data g index = none then [.inodeHole index inode.inum] else [])

/-! ### Directories -/

abbrev Name := List (BitVec 8)

/-- `decode_name(raw)` -/
def decodeName (raw : ByteSeq) : Name := ((List.range raw.length).map raw.byte).takeWhile (· ≠ 0)

abbrev dotName : Name := [0x2e]

abbrev dotdotName : Name := [0x2e, 0x2e]

/-- What the loop over the entries of a directory collects. -/
structure DirScan where
  names : List Name
  dots : Bool
  dotdot : Option ℕ
  edges : List (Name × ℕ)
  diagnostics : List Diagnostic

def DirScan.add (s : DirScan) (d : Diagnostic) : DirScan :=
  { s with diagnostics := s.diagnostics ++ [d] }

/-- A turn of the loop over the entries of directory `inum`. -/
def scanEntry (inodes : List Inode) (inum : ℕ) (payload : ByteSeq) (s : DirScan) (offset : ℕ) :
    DirScan :=
  let target := (payload.le offset 16).toNat
  if target = 0 then s
  else
    let name := decodeName (payload.sub (offset + 2) 14)
    if name = [] then s.add (.dirName inum offset)
    else
      let s := if name ∈ s.names then s.add (.dirNameDup inum name) else s
      let s := { s with names := name :: s.names }
      if getInode inodes target = none then s.add (.direntInum inum target)
      else if name = dotName then
        let s := { s with dots := true }
        if target ≠ inum then s.add (.dot inum target) else s
      else if name = dotdotName then { s with dotdot := some target }
      else { s with edges := s.edges ++ [(name, target)] }

/-- The loop over the entries. -/
def scanDir (data : ByteSeq) (g : Geometry) (inodes : List Inode) (inode : Inode) : DirScan :=
  let payload := (readInodeBytes data g inode).1
  (List.range (payload.length / 16)).foldl
    (fun s k ↦ scanEntry inodes inode.inum payload s (16 * k))
    { names := []
      dots := false
      dotdot := none
      edges := []
      diagnostics := (readInodeBytes data g inode).2 ++
        if payload.length % 16 ≠ 0 then [.dirSize inode.inum payload.length] else [] }

/-- The scans of the directories, by inode number. -/
def scanDirs (data : ByteSeq) (g : Geometry) (inodes : List Inode) : List (ℕ × DirScan) :=
  (inodes.filter fun inode ↦ inode.type = tDir).map fun inode ↦
    (inode.inum, scanDir data g inodes inode)

/-- `edges[inum]` -/
def edgesOf (scans : List (ℕ × DirScan)) (inum : ℕ) : List (Name × ℕ) :=
  ((scans.lookup inum).map DirScan.edges).getD []

/-- `references[target]` -/
def references (scans : List (ℕ × DirScan)) (target : ℕ) : ℕ :=
  (scans.map fun p ↦ p.2.edges.countP fun e ↦ e.2 = target).sum

/-! ### The traversal -/

/-- The variables of the traversal. -/
structure Traversal where
  queue : List ℕ
  reachable : Finset ℕ
  parents : ℕ → Option ℕ
  directoryChildren : ℕ → ℕ
  directoryIncoming : ℕ → ℕ
  diagnostics : List Diagnostic

namespace Traversal

def add (b : Traversal) (d : Diagnostic) : Traversal :=
  { b with diagnostics := b.diagnostics ++ [d] }

open Function in
/-- A turn of the loop over the entries of `current`. -/
def visit (inodes : List Inode) (current : ℕ) (b : Traversal) (target : ℕ) : Traversal :=
  match getInode inodes target with
  | none => b
  | some child =>
    if child.type = tDir then
      let b := { b with
        directoryChildren :=
          update b.directoryChildren current (b.directoryChildren current + 1)
        directoryIncoming :=
          update b.directoryIncoming target (b.directoryIncoming target + 1) }
      let b := if b.directoryIncoming target > 1 then b.add (.dirMultiparent target) else b
      let b := if b.parents target ≠ none ∧ b.parents target ≠ some current then
          b.add (.dirParent target)
        else { b with parents := update b.parents target (some current) }
      if target ∈ b.reachable then b.add (.dirCycle target)
      else { b with queue := b.queue ++ [target] }
    else { b with reachable := insert target b.reachable }

/-- A turn of the loop over the queue. -/
def turn (inodes : List Inode) (scans : List (ℕ × DirScan)) (current : ℕ) (b : Traversal) :
    Traversal :=
  if current ∈ b.reachable then b
  else ((edgesOf scans current).map Prod.snd).foldl (visit inodes current)
    { b with reachable := insert current b.reachable }

/-- The loop over the queue, for at most `n` turns. -/
def run (inodes : List Inode) (scans : List (ℕ × DirScan)) : ℕ → Traversal → Traversal
  | 0, b => b
  | n + 1, b =>
    match b.queue with
    | [] => b
    | current :: queue => run inodes scans n (turn inodes scans current { b with queue := queue })

end Traversal

/-- How many edges there are: a directory is put in the queue at most once for each of them. -/
def edgeCount (scans : List (ℕ × DirScan)) : ℕ := (scans.map fun p ↦ p.2.edges.length).sum

/-- The variables before the first turn. -/
def Traversal.start (inodes : List Inode) : Traversal where
  queue := if getInode inodes rootIno = none then [] else [rootIno]
  reachable := ∅
  parents := Function.update (fun _ ↦ none) rootIno (some rootIno)
  directoryChildren := fun _ ↦ 0
  directoryIncoming := fun _ ↦ 0
  diagnostics := []

/-- The traversal from the root. -/
def traverse (inodes : List Inode) (scans : List (ℕ × DirScan)) : Traversal :=
  Traversal.run inodes scans (edgeCount scans + 1) (.start inodes)

/-! ### The verdict -/

/-- The owners of the blocks in the data region, in the order in which they are found. -/
def owners (data : ByteSeq) (g : Geometry) (inodes : List Inode) : List (ℕ × ℕ × Kind × ℕ) :=
  inodes.flatMap fun inode ↦ ((inode.addresses data g).filter fun a ↦ g.InRegion a.address).map
    fun a ↦ (a.address, inode.inum, a.kind, a.index)

/-- The diagnostics about blocks and the bitmap. -/
def checkBlocks (data : ByteSeq) (g : Geometry) (inodes : List Inode) : List Diagnostic :=
  let numbers := (owners data g inodes).map Prod.fst
  inodes.flatMap (fun inode ↦ (inodeBlocks data g inode).2) ++
    numbers.dedup.flatMap (fun number ↦
      (if numbers.count number > 1 then [.blockDup number (numbers.count number)] else []) ++
      if bitmapBit data g number then [] else [.bitmapUnmarked number]) ++
    (List.range g.dataStart).flatMap (fun number ↦
      if bitmapBit data g number then [] else [.bitmapMetadata number]) ++
    (List.range' g.dataStart (g.size - g.dataStart)).flatMap fun number ↦
      if bitmapBit data g number ∧ number ∉ numbers then [.bitmapLeak number] else []

/-- A turn of the last loop over the inodes. -/
def checkInode (scans : List (ℕ × DirScan)) (b : Traversal) (inode : Inode) : List Diagnostic :=
  let scan := scans.lookup inode.inum
  (if inode.type = tDir ∧ ¬scan.any DirScan.dots then [Diagnostic.dot inode.inum (-1)] else []) ++
    (if inode.inum ∉ b.reachable then
      if inode.nlink = 0 then [.orphan inode.inum] else [.unreachable inode.inum]
      else []) ++
    (if inode.type = tDir ∧ inode.inum ∈ b.reachable then
      let expectedParent := if inode.inum = rootIno then some rootIno else b.parents inode.inum
      if scan.bind DirScan.dotdot ≠ expectedParent then
        [.dotdot inode.inum (((scan.bind DirScan.dotdot).map Int.ofNat).getD (-1))]
      else []
      else []) ++
    if inode.type = tDir then
      let expectedLinks := 1 + b.directoryChildren inode.inum
      if inode.inum ∈ b.reachable ∧ inode.nlink ≠ expectedLinks then
        [.nlink expectedLinks inode.inum inode.nlink]
      else []
    else if inode.nlink ≠ references scans inode.inum then
      [.nlink (references scans inode.inum) inode.inum inode.nlink]
    else []

/-- What `inspect_view` returns. -/
structure View where
  allocatedInodes : ℕ
  ownedBlocks : ℕ
  reachableInodes : ℕ
  diagnostics : List Diagnostic

/-- The end of `inspect_view`. -/
def View.of (data : ByteSeq) (g : Geometry) (parsed : List Inode × List Diagnostic)
    (blocks : List Diagnostic) (scans : List (ℕ × DirScan)) (b : Traversal) : View where
  allocatedInodes := parsed.1.length
  ownedBlocks := ((owners data g parsed.1).map Prod.fst).dedup.length
  reachableInodes := b.reachable.card
  diagnostics := parsed.2 ++ blocks ++ scans.flatMap (fun p ↦ p.2.diagnostics) ++
    b.diagnostics ++ parsed.1.flatMap (checkInode scans b)

/-- `inspect_view(data, geometry)` -/
def inspectView (data : ByteSeq) (g : Geometry) : View :=
  let parsed := parseInodes data g
  let scans := scanDirs data g parsed.1
  .of data g parsed (checkBlocks data g parsed.1) scans (traverse parsed.1 scans)

/-- What `check_bytes` returns, without the hashes and the copies of what it has parsed. -/
structure Verdict where
  clean : Bool
  rawClean : Bool
  recoveredClean : Bool
  logPending : Option Bool
  diagnostics : List Diagnostic

/-- The verdict on an image whose super block or log is not accepted. -/
def Verdict.unreadable (top : List Diagnostic) : Verdict := ⟨false, false, false, none, top⟩

/-- The verdict on an image and its shadow. -/
def Verdict.of (top : List Diagnostic) (count : ℤ) (raw replayed : View) : Verdict :=
  let rawClean := top = [] ∧ raw.diagnostics = []
  let recoveredClean := top = [] ∧ replayed.diagnostics = []
  ⟨recoveredClean, rawClean, recoveredClean, some (count ≠ 0), top ++ replayed.diagnostics⟩

/-- `check_bytes(data)` -/
def checkBytes (data : ByteSeq) : Verdict :=
  match parseGeometry data [] with
  | (none, top) => .unreadable top
  | (some g, top) =>
    match parseLog data g top with
    | (⟨_, _, none⟩, top) => .unreadable top
    | (⟨count, _, some shadow⟩, top) => .of top count (inspectView data g) (inspectView shadow g)

end Fsck

end Xv6

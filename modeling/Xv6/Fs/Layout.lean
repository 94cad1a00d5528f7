import Xv6.Library.BitField
import Xv6.Library.Pieces
import Xv6.Param

/-!
# The on-disk format

`kernel/fs.h`, which the kernel and `mkfs` share: a block is an array of bytes or of words, an inode
is the 64 bytes of `struct dinode`, sixteen of them to a block. All of them are fields of bit
vectors, so reading and writing obey the lens laws of `BitVec.field` and `BitVec.put`.
-/

namespace Xv6.Fs

/-- `ROOTINO`. -/
abbrev rootIno : ℕ := 1

/-- `NDIRECT`: block numbers in an inode. -/
abbrev ndirect : ℕ := 12

/-- `NINDIRECT`: block numbers in an indirect block. -/
abbrev nindirect : ℕ := bsize / 4

/-- `IPB`: inodes in a block. -/
abbrev ipb : ℕ := 16

/-- `BPB`: bits in a block of the bitmap. -/
abbrev bpb : ℕ := bsize * 8

/-- `DIRSIZ`: bytes of a name in a directory entry. -/
abbrev dirsiz : ℕ := 14

/-- `sizeof(struct dirent)`: two bytes of inode number, then the name. -/
abbrev direntSize : ℕ := 2 + dirsiz

/-- `T_DIR`. -/
abbrev tDir : BitVec 16 := 1

/-- `T_FILE`. -/
abbrev tFile : BitVec 16 := 2

/-- `FSMAGIC`. -/
abbrev fsMagic : BitVec 32 := 0x10203040

/-- The character `/`. -/
def slash : Byte := 0x2f

theorem ndirect_eq : ndirect = 12 := rfl

theorem nindirect_eq : nindirect = 256 := rfl

theorem maxFile_eq : maxFile = 268 := rfl

theorem ipb_eq : ipb = 16 := rfl

/-! ### Blocks -/

/-- Byte `i` of a block. -/
def byteAt (b : Block) (i : ℕ) : Byte := b.field (8 * i) 8

/-- A block as an array of words. -/
def wordAt (b : Block) (i : ℕ) : BitVec 32 := b.field (32 * i) 32

/-- Store a word in a block. -/
def setWord (b : Block) (i : ℕ) (x : BitVec 32) : Block := b.put (32 * i) x

/-- Copy bytes into a block, the first to position `o`. -/
def copyIn (b : Block) (o : ℕ) : List Byte → Block
  | [] => b
  | x :: p => copyIn (b.put (8 * o) x) (o + 1) p

variable (b : Block)

theorem byteAt_put {o : ℕ} (ho : o < bsize) (x : Byte) :
    byteAt (b.put (8 * o) x) = overwrite (byteAt b) o [x] := by
  funext i
  rw [bsize_eq] at ho
  rcases Nat.lt_trichotomy i o with hi | rfl | hi
  · rw [overwrite, if_neg (by omega), byteAt, BitVec.field_put_of_disjoint _ _ _ _ (by omega)]
    rfl
  · rw [overwrite, if_pos (Nat.le_refl i), Nat.sub_self, byteAt,
      BitVec.field_put_self _ _ _ (by omega)]
    rfl
  · rw [overwrite, if_pos (by omega), byteAt, BitVec.field_put_of_disjoint _ _ _ _ (by omega),
      List.getElem?_eq_none (by rw [List.length_singleton]; omega)]
    rfl

theorem byteAt_copyIn {o : ℕ} {p : List Byte} (h : o + p.length ≤ bsize) :
    byteAt (copyIn b o p) = overwrite (byteAt b) o p := by
  induction p generalizing b o with
  | nil => rw [copyIn, overwrite_nil]
  | cons x p ih =>
    rw [List.length_cons] at h
    rw [copyIn, ih _ (by omega), byteAt_put b (by omega)]
    exact (overwrite_append (byteAt b) o [x] p).symm

/-- Bytes that are there already. -/
theorem copyIn_eq_self_iff {o : ℕ} {p : List Byte} (h : o + p.length ≤ bsize) :
    copyIn b o p = b ↔ ∀ j < p.length, p[j]? = some (byteAt b (o + j)) := by
  refine ⟨fun heq j hj ↦ ?_, fun hall ↦ ?_⟩
  · have hbyte := congrFun (byteAt_copyIn b h) (o + j)
    rw [heq, overwrite, if_pos (by omega), Nat.add_sub_cancel_left, List.getElem?_eq_getElem hj,
      Option.getD_some] at hbyte
    rw [List.getElem?_eq_getElem hj, hbyte]
  · induction p generalizing o with
    | nil => rfl
    | cons x p ih =>
      rw [List.length_cons] at h
      obtain rfl : x = byteAt b o := Option.some.inj (hall 0 (Nat.succ_pos _))
      rw [copyIn, byteAt, BitVec.put_field]
      refine ih (by omega) fun j hj ↦ ?_
      rw [Nat.add_assoc, Nat.add_comm 1]
      exact hall (j + 1) (Nat.succ_lt_succ hj)

@[simp] theorem wordAt_setWord_self {i : ℕ} (hi : i < nindirect) (x : BitVec 32) :
    wordAt (setWord b i x) i = x := by
  rw [nindirect_eq] at hi
  exact BitVec.field_put_self _ _ _ (by omega)

theorem wordAt_setWord_of_ne {i j : ℕ} (h : j ≠ i) (x : BitVec 32) :
    wordAt (setWord b i x) j = wordAt b j :=
  BitVec.field_put_of_disjoint _ _ _ _ (by omega)

@[simp] theorem byteAt_zero (i : ℕ) : byteAt 0 i = 0 := by
  refine BitVec.eq_of_getLsbD_eq fun j _ ↦ ?_
  simp [byteAt]

@[simp] theorem wordAt_zero (i : ℕ) : wordAt 0 i = 0 := by
  refine BitVec.eq_of_getLsbD_eq fun j _ ↦ ?_
  simp [wordAt]

/-! ### Inodes -/

/-- `struct dinode`, its 64 bytes. -/
abbrev Dinode := BitVec 512

namespace Dinode

def type (d : Dinode) : BitVec 16 := d.field 0 16

def nlink (d : Dinode) : BitVec 16 := d.field 48 16

def size (d : Dinode) : BitVec 32 := d.field 64 32

/-- All but the block numbers. -/
def header (d : Dinode) : BitVec 96 := d.field 0 96

/-- Type, device numbers and link count. -/
def attrs (d : Dinode) : BitVec 64 := d.field 0 64

/-- `addrs[k]`; the last one, `addrs[NDIRECT]`, is the indirect block. -/
def addr (d : Dinode) (k : ℕ) : BitVec 32 := d.field (96 + 32 * k) 32

def setType (d : Dinode) (x : BitVec 16) : Dinode := d.put 0 x

def setNlink (d : Dinode) (x : BitVec 16) : Dinode := d.put 48 x

def setSize (d : Dinode) (x : BitVec 32) : Dinode := d.put 64 x

def setAddr (d : Dinode) (k : ℕ) (x : BitVec 32) : Dinode := d.put (96 + 32 * k) x

variable (d : Dinode)

@[simp] theorem addr_setAddr_self {k : ℕ} (hk : k ≤ ndirect) (x : BitVec 32) :
    (d.setAddr k x).addr k = x := by
  rw [ndirect_eq] at hk
  exact BitVec.field_put_self _ _ _ (by omega)

theorem addr_setAddr_of_ne {j k : ℕ} (h : j ≠ k) (x : BitVec 32) :
    (d.setAddr k x).addr j = d.addr j :=
  BitVec.field_put_of_disjoint _ _ _ _ (by omega)

@[simp] theorem type_setAddr (k : ℕ) (x : BitVec 32) : (d.setAddr k x).type = d.type :=
  BitVec.field_put_of_disjoint _ _ _ _ (by omega)

@[simp] theorem type_setSize (x : BitVec 32) : (d.setSize x).type = d.type :=
  BitVec.field_put_of_disjoint _ _ _ _ (by omega)

@[simp] theorem type_setNlink (x : BitVec 16) : (d.setNlink x).type = d.type :=
  BitVec.field_put_of_disjoint _ _ _ _ (by omega)

@[simp] theorem type_setType (x : BitVec 16) : (d.setType x).type = x :=
  BitVec.field_put_self _ _ _ (by omega)

@[simp] theorem size_setSize (x : BitVec 32) : (d.setSize x).size = x :=
  BitVec.field_put_self _ _ _ (by omega)

@[simp] theorem addr_setSize (k : ℕ) (x : BitVec 32) : (d.setSize x).addr k = d.addr k :=
  BitVec.field_put_of_disjoint _ _ _ _ (by omega)

@[simp] theorem addr_setType (k : ℕ) (x : BitVec 16) : (d.setType x).addr k = d.addr k :=
  BitVec.field_put_of_disjoint _ _ _ _ (by omega)

@[simp] theorem addr_setNlink (k : ℕ) (x : BitVec 16) : (d.setNlink x).addr k = d.addr k :=
  BitVec.field_put_of_disjoint _ _ _ _ (by omega)

@[simp] theorem header_setAddr (k : ℕ) (x : BitVec 32) : (d.setAddr k x).header = d.header :=
  BitVec.field_put_of_disjoint _ _ _ _ (by omega)

theorem type_eq_header : d.type = d.header.field 0 16 := by
  rw [header, BitVec.field_field _ _ _ _ _ (by omega)]
  rfl

theorem attrs_eq_header : d.attrs = d.header.field 0 64 := by
  rw [header, BitVec.field_field _ _ _ _ _ (by omega)]
  rfl

@[simp] theorem attrs_setSize (x : BitVec 32) : (d.setSize x).attrs = d.attrs :=
  BitVec.field_put_of_disjoint _ _ _ _ (by omega)

theorem type_eq_attrs : d.type = d.attrs.field 0 16 := by
  rw [attrs, BitVec.field_field _ _ _ _ _ (by omega)]
  rfl

theorem nlink_eq_attrs : d.nlink = d.attrs.field 48 16 := by
  rw [attrs, BitVec.field_field _ _ _ _ _ (by omega)]
  rfl

theorem size_eq_header : d.size = d.header.field 64 32 := by
  rw [header, BitVec.field_field _ _ _ _ _ (by omega)]
  rfl

@[simp] theorem addr_zero (k : ℕ) : addr 0 k = 0 := by
  refine BitVec.eq_of_getLsbD_eq fun j _ ↦ ?_
  simp [addr]

@[simp] theorem size_zero : size 0 = 0 := by
  refine BitVec.eq_of_getLsbD_eq fun j _ ↦ ?_
  simp [size]

end Dinode

/-- Inode `i` of a block of inodes. -/
def dinodeAt (b : Block) (i : ℕ) : Dinode := b.field (512 * i) 512

/-- Store an inode in a block of inodes. -/
def setDinode (b : Block) (i : ℕ) (x : Dinode) : Block := b.put (512 * i) x

@[simp] theorem dinodeAt_setDinode_self {i : ℕ} (hi : i < ipb) (x : Dinode) :
    dinodeAt (setDinode b i x) i = x := by
  rw [ipb_eq] at hi
  exact BitVec.field_put_self _ _ _ (by omega)

theorem dinodeAt_setDinode_of_ne {i j : ℕ} (h : j ≠ i) (x : Dinode) :
    dinodeAt (setDinode b i x) j = dinodeAt b j :=
  BitVec.field_put_of_disjoint _ _ _ _ (by omega)

@[simp] theorem dinodeAt_zero (i : ℕ) : dinodeAt 0 i = 0 := by
  refine BitVec.eq_of_getLsbD_eq fun j _ ↦ ?_
  simp [dinodeAt]

/-! ### The superblock -/

/-- The fields of `struct superblock` that locate things, as words of block 1. -/
def inodestart (sb : Block) : ℕ := (wordAt sb 6).toNat

def bmapstart (sb : Block) : ℕ := (wordAt sb 7).toNat

/-- `IBLOCK`. -/
def iblock (inum : ℕ) (sb : Block) : ℕ := inum / ipb + inodestart sb

end Xv6.Fs

import Mathlib.Algebra.Group.Nat.Defs
import Mathlib.Tactic.Common

/-!
# Kernel parameters

The constants of `kernel/param.h` and the sizes of `kernel/fs.h` that the development uses, and the
types every layer shares: a disk block is its `8 * BSIZE` bits, a disk (or the kernel's cached view
of one) is a function from block numbers, and a string is the list of the bytes before its `NUL`.
-/

namespace Xv6

/-- `BSIZE`: bytes in a disk block. -/
abbrev bsize : ℕ := 1024

theorem bsize_eq : bsize = 1024 := rfl

/-- `MAXOPBLOCKS`: how many blocks one file-system operation is assumed to write. -/
abbrev maxOpBlocks : ℕ := 10

/-- `LOGBLOCKS`: data blocks in the on-disk log. -/
abbrev logBlocks : ℕ := maxOpBlocks * 3

theorem logBlocks_eq : logBlocks = 30 := rfl

/-- `NBUF`: buffers in the block cache. -/
abbrev nbuf : ℕ := maxOpBlocks * 3

/-- `MAXFILE`: blocks in a file, `NDIRECT` of them direct and `NINDIRECT` in the indirect block. -/
abbrev maxFile : ℕ := 12 + bsize / 4

/-- `NFILE`: open files of the system. -/
abbrev nfile : ℕ := 100

abbrev Byte := BitVec 8

/-- A string without its `NUL`, or what is left of it from some byte on. -/
abbrev Text := List Byte

/-- The string at position `p` of a buffer. -/
def cstring (buf : List Byte) (p : ℕ) : Text := (buf.drop p).takeWhile (· ≠ 0)

/-- A disk block: `8 * BSIZE` bits, bit `8 * i + j` being bit `j` of byte `i`. -/
abbrev Block := BitVec 8192

/-- Block contents by block number. -/
abbrev Disk := ℕ → Block

end Xv6

import Mathlib.Data.Int.Notation
import Xv6.Library.BitField
import Xv6.Param

/-!
# The log header block

`struct logheader` is an `int n` followed by `int block[LOGBLOCKS]`; the same structure is kept in
memory and written to the first block of the log. In memory the model keeps the list
`block[0], …, block[n - 1]`, whose length is `n`; on disk it keeps the block's bits, so that the
entries past `n` are whatever an earlier transaction left there, as in the C code.
-/

namespace Xv6

/-- `hb->n`, as the C `int` it is. -/
def headerCount (hb : Block) : ℤ :=
  (hb.field 0 32).toInt

/-- `hb->block[i]`, as a block number. -/
def headerBlock (hb : Block) (i : ℕ) : ℕ :=
  (hb.field (32 * (i + 1)) 32).toNat

/-- The copy loop of `read_head`: `n` entries, none when `n` is negative. -/
def readHeader (hb : Block) : List ℕ :=
  (List.range (headerCount hb).toNat).map (headerBlock hb)

/-- The copy loop of `write_head`, from entry `i` on. -/
def fillEntries (hb : Block) : ℕ → List ℕ → Block
  | _, [] => hb
  | i, b :: bs => fillEntries (hb.put (32 * (i + 1)) (BitVec.ofNat 32 b)) (i + 1) bs

/-- The header block `write_head` builds in the buffer `hb`: the count, then `n` entries; the rest
of the buffer stays. -/
def fillHeader (hb : Block) (lh : List ℕ) : Block :=
  fillEntries (hb.put 0 (BitVec.ofNat 32 lh.length)) 0 lh

/-! ### Reading back a written header -/

/-- Filling entries from `i` on leaves every earlier field alone. -/
theorem field_fillEntries_of_lt (lh : List ℕ) (hb : Block) {i o : ℕ} (h : o + 32 ≤ 32 * (i + 1)) :
    (fillEntries hb i lh).field o 32 = hb.field o 32 := by
  induction lh generalizing hb i with
  | nil => rfl
  | cons b bs ih =>
    rw [fillEntries, ih _ (by omega), BitVec.field_put_of_disjoint _ _ _ _ (Or.inl h)]

theorem headerBlock_fillEntries (lh : List ℕ) (hb : Block) {i j : ℕ}
    (hlen : i + lh.length ≤ logBlocks) (h32 : ∀ b ∈ lh, b < 2 ^ 32) (hj : j < lh.length) :
    headerBlock (fillEntries hb i lh) (i + j) = lh[j] := by
  induction lh generalizing hb i j with
  | nil => exact absurd hj (Nat.not_lt_zero j)
  | cons b bs ih =>
    rw [List.length_cons, logBlocks_eq] at hlen
    rw [List.length_cons] at hj
    cases j with
    | zero =>
      have hb32 : b < 2 ^ 32 := h32 b List.mem_cons_self
      rw [headerBlock, fillEntries, add_zero, field_fillEntries_of_lt _ _ (by omega),
        BitVec.field_put_self _ _ _ (by omega), BitVec.toNat_ofNat, Nat.mod_eq_of_lt hb32,
        List.getElem_cons_zero]
    | succ j =>
      have hassoc : i + (j + 1) = i + 1 + j := by omega
      rw [fillEntries, hassoc, ih _ (by rw [logBlocks_eq]; omega)
        (fun c hc ↦ h32 c (List.mem_cons_of_mem _ hc))
        (by omega), List.getElem_cons_succ]

theorem headerCount_fillHeader (hb : Block) {lh : List ℕ} (hlen : lh.length ≤ logBlocks) :
    headerCount (fillHeader hb lh) = lh.length := by
  rw [logBlocks_eq] at hlen
  rw [headerCount, fillHeader, field_fillEntries_of_lt _ _ (by omega),
    BitVec.field_put_self _ _ _ (by omega), BitVec.toInt_eq_toNat_cond, BitVec.toNat_ofNat]
  have hmod : lh.length % 2 ^ 32 = lh.length := Nat.mod_eq_of_lt (by omega)
  rw [hmod, if_pos (by omega)]

/-- `read_head` after `write_head` gets the in-memory header back, as long as it fits the block and
its entries fit their 32-bit fields. -/
theorem readHeader_fillHeader (hb : Block) {lh : List ℕ} (hlen : lh.length ≤ logBlocks)
    (h32 : ∀ b ∈ lh, b < 2 ^ 32) : readHeader (fillHeader hb lh) = lh := by
  rw [readHeader, headerCount_fillHeader hb hlen, Int.toNat_natCast]
  refine List.ext_getElem (by simp) fun j hj hj' ↦ ?_
  rw [List.getElem_map, List.getElem_range]
  have h := headerBlock_fillEntries lh (hb.put 0 (BitVec.ofNat 32 lh.length)) (i := 0) (j := j)
    (by omega) h32 hj'
  rwa [zero_add] at h

theorem readHeader_of_count_nonpos {hb : Block} (h : headerCount hb ≤ 0) :
    readHeader hb = [] := by
  rw [readHeader, Int.toNat_of_nonpos h]
  rfl

end Xv6

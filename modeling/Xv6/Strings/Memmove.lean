import Xv6.Library.CMemory

/-!
# `memmove`

`memmove` of `kernel/string.c` and of `user/ulib.c`, on a memory of bytes. Both copy upwards or
downwards, and each has its own test: the kernel copies downwards only if the destination begins
inside the source, the user library whenever it does not begin below the source. Where the ranges do
not wrap around, either test chooses a direction that overwrites no byte before it is read
(`wp_memmove`, `Ulib.wp_memmove`).

The kernel's length is a `uint` and the user library's an `int`, which is added to pointers after
sign extension and with which the loops do not start if it is negative.
-/

namespace Xv6.Strings

open CMemory

/-- `memmove` of `kernel/string.c`. -/
def memmove (dst src : Ptr) (n : BitVec 32) : C Ptr := do
  if n = 0 then return dst
  else if src < dst ∧ src + n.setWidth 64 > dst then
    copyDown (dst + n.setWidth 64) (src + n.setWidth 64) n.toNat
    return dst
  else
    copyUp dst src n.toNat
    return dst

/-- `memmove` of `user/ulib.c`. -/
def Ulib.memmove (dst src : Ptr) (n : BitVec 32) : C Ptr := do
  if src > dst then
    copyUp dst src n.toInt.toNat
    return dst
  else
    copyDown (dst + n.signExtend 64) (src + n.signExtend 64) n.toInt.toNat
    return dst

variable {m : Mem} {dst src : Ptr} {n : BitVec 32}

theorem wp_memmove (hsrc : src.toNat + n.toNat ≤ 2 ^ 64) (hdst : dst.toNat + n.toNat ≤ 2 ^ 64)
    (hs : Has m src n.toNat) (hd : Has m dst n.toNat) :
    wp (memmove dst src n) (fun r t ↦ r = dst ∧ t = moved m dst src n.toNat) m := by
  have hn := n.isLt
  rw [memmove, wp_ite]
  refine ⟨fun h0 ↦ ?_, fun _ ↦ ?_⟩
  · rw [wp_pure, h0]
    exact ⟨rfl, moved_zero.symm⟩
  rw [wp_ite, show n.setWidth 64 = BitVec.ofNat 64 n.toNat by bv_omega, wp_bind, wp_bind]
  refine ⟨fun htest ↦ ?_, fun htest ↦ ?_⟩
  · -- the destination begins above, and its end does not come around to the source
    have hlt := htest.1
    refine (wp_copyDown (by omega) hs hd (.inr (by bv_omega))).mono fun _ t ht ↦ ?_
    exact wp_pure.2 ⟨rfl, ht⟩
  · refine (wp_copyUp (by omega) hs hd ?_).mono fun _ t ht ↦ wp_pure.2 ⟨rfl, ht⟩
    by_cases hlt : src < dst
    · -- then the end of the source does not wrap around, and the test says that it is not above
      have hle : ¬src + BitVec.ofNat 64 n.toNat > dst := fun h ↦ htest ⟨hlt, h⟩
      exact .inr (by bv_omega)
    · by_cases heq : dst = src
      · exact .inl heq
      · exact .inr (by bv_omega)

theorem Ulib.wp_memmove (hn : 0 ≤ n.toInt) (hsrc : src.toNat + n.toNat ≤ 2 ^ 64)
    (hdst : dst.toNat + n.toNat ≤ 2 ^ 64) (hs : Has m src n.toNat) (hd : Has m dst n.toNat) :
    wp (Ulib.memmove dst src n) (fun r t ↦ r = dst ∧ t = moved m dst src n.toNat) m := by
  have hlt := n.isLt
  have htoInt : n.toInt = n.toNat := by
    rw [BitVec.toInt_eq_toNat_cond] at hn ⊢
    split_ifs at hn ⊢ <;> omega
  have hext : n.signExtend 64 = BitVec.ofNat 64 n.toNat := by
    rw [BitVec.signExtend, htoInt]
    rfl
  rw [Ulib.memmove, wp_ite, hext, htoInt, Int.toNat_natCast, wp_bind, wp_bind]
  refine ⟨fun hgt ↦ ?_, fun hle ↦ ?_⟩
  · exact (wp_copyUp (by omega) hs hd (.inr (by bv_omega))).mono fun _ t ht ↦ wp_pure.2 ⟨rfl, ht⟩
  · refine (wp_copyDown (by omega) hs hd ?_).mono fun _ t ht ↦ wp_pure.2 ⟨rfl, ht⟩
    by_cases heq : dst = src
    · exact .inl heq
    · exact .inr (by bv_omega)

/-- **`memmove` is right for ranges that overlap**, in the kernel and in the user library: the bytes
at `dst` are those that were at `src` before the call, and all others are as before. -/
theorem memmove_overlap (m : Mem) (dst src : Ptr) (n : BitVec 32)
    (hsrc : src.toNat + n.toNat ≤ 2 ^ 64) (hdst : dst.toNat + n.toNat ≤ 2 ^ 64)
    (hs : Has m src n.toNat) (hd : Has m dst n.toNat) :
    ∃ t, memmove dst src n m = .ok (dst, t) ∧
      (0 ≤ n.toInt → Ulib.memmove dst src n m = .ok (dst, t)) ∧
      (∀ i : Ptr, i.toNat < n.toNat → t (dst + i) = m (src + i)) ∧
      ∀ a, (∀ i : Ptr, i.toNat < n.toNat → a ≠ dst + i) → t a = m a := by
  obtain ⟨r, t, hrun, rfl, ht⟩ := wp_memmove hsrc hdst hs hd
  refine ⟨t, hrun, fun hn ↦ ?_, fun i hi ↦ ?_, fun a ha ↦ ?_⟩
  · obtain ⟨r', t', hrun', rfl, ht'⟩ := Ulib.wp_memmove hn hsrc hdst hs hd
    rw [hrun', ht', ht]
  · rw [ht, moved_apply hi]
  · rw [ht]
    refine moved_of_ge (Nat.le_of_not_lt fun hlt ↦ ha (a - r) hlt ?_)
    bv_omega

/-- The bytes `1` to `4` at the addresses 10 to 13. -/
def fourBytes : Mem := fun a ↦
  if 10 ≤ a.toNat ∧ a.toNat < 14 then some (BitVec.ofNat 8 (a.toNat - 9)) else none

theorem memmove_overlap_fourBytes :
    ∃ t, memmove 11 10 3 fourBytes = .ok (11, t) ∧ t 10 = some 1 ∧ t 11 = some 1 ∧
      t 12 = some 2 ∧ t 13 = some 3 ∧ t 14 = none := by
  have hhas : ∀ p : Ptr, 10 ≤ p.toNat → p.toNat < 12 → Has fourBytes p 3 := by
    intro p hp hlt k hk
    rw [fourBytes, if_pos (by bv_omega)]
    rfl
  obtain ⟨t, hrun, -, hin, hout⟩ := memmove_overlap fourBytes 11 10 3 (by decide) (by decide)
    (hhas 10 (by decide) (by decide)) (hhas 11 (by decide) (by decide))
  refine ⟨t, hrun, ?_, hin 0 (by decide), hin 1 (by decide), hin 2 (by decide), ?_⟩
  · refine hout 10 fun i hi ↦ ?_
    have hi : i.toNat < 3 := hi
    bv_omega
  · refine hout 14 fun i hi ↦ ?_
    have hi : i.toNat < 3 := hi
    bv_omega

end Xv6.Strings

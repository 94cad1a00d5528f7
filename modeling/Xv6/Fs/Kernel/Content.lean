import Xv6.Fs.Kernel.Alloc

/-!
# The contents of files

A file is a list of bytes (`contents`). On a sound file system `readi` returns a piece of it and
changes nothing, and `writei` replaces a piece of it, or less if blocks run out or the source cannot
be read. One turn of the loop of `writei` and the whole loop have the same effect on the inode, that
some bytes were written (`Wrote`), so the turns compose.
-/

namespace Xv6.Fs.Kernel

open Function Finset

variable {E : Panic → Prop} {sb : Superblock} {s t u : Kfs} {ip : Slot} {I : ℕ → Dinode}
  {d d' : Disk} {x x' : Dinode} {i a off n tot turns : ℕ}

/-- Byte `j` of a file. -/
def byteOf (d : Disk) (x : Dinode) (j : ℕ) : Byte :=
  byteAt (d (blockAt d x (j / bsize))) (j % bsize)

/-- Byte `j` of a file, which is zero where there is no block. -/
def byteOr (d : Disk) (x : Dinode) (j : ℕ) : Byte :=
  if blockAt d x (j / bsize) = 0 then 0 else byteOf d x j

/-- The bytes of a file. -/
def contents (d : Disk) (x : Dinode) : List Byte := slice (byteOf d x) 0 x.size.toNat

/-! ### Reading -/

/-- A block that is there is not allocated. -/
theorem wpe_bmap_of_ne_zero {Q : ℕ → Kfs → Prop} {bn : ℕ} (hbn : bn < maxFile)
    (h : blockAt s.disk (s.inode ip).din bn ≠ 0)
    (hQ : Q (blockAt s.disk (s.inode ip).din bn) s) : wpe E (bmap sb ip bn) Q s := by
  rw [bmap, wpe_ite]
  refine ⟨fun hdir ↦ ?_, fun hdir ↦ ?_⟩
  · rw [blockAt_direct hdir] at h hQ
    rw [bmapAddr, wpe_bind, wpe_inode, wpe_ite]
    exact ⟨fun h0 ↦ absurd (by rw [h0]; rfl) h, fun _ ↦ hQ⟩
  · rw [blockAt_entry (not_lt.1 hdir) hbn] at h hQ
    split_ifs at h hQ with hind
    · exact absurd rfl h
    have hlt : bn - ndirect < nindirect := by
      rw [maxFile_eq] at hbn
      rw [ndirect_eq, nindirect_eq]
      omega
    rw [wpe_ite]
    refine ⟨fun _ ↦ ?_, fun hge ↦ absurd hlt hge⟩
    rw [wpe_bind, bmapAddr, wpe_bind, wpe_inode, wpe_ite]
    refine ⟨fun h0 ↦ absurd h0 hind, fun _ ↦ ?_⟩
    rw [wpe_pure, wpe_ite]
    refine ⟨fun h0 ↦ absurd h0 (toNat_ne_zero hind), fun _ ↦ ?_⟩
    rw [wpe_bind, wpe_bread, wpe_ite]
    exact ⟨fun h0 ↦ absurd (by rw [h0]; rfl) h, fun _ ↦ hQ⟩

/-- The byte `k` of a destination can be written. -/
def Dst.writable (U : View) : Dst → ℕ → Bool
  | .kernel, _ => true
  | .user va, k => U.writable (va + k)

/-- User memory was `U`, and is `V` when `bytes` have arrived at the destination. -/
structure Received (U : View) (dst : Dst) (bytes : List Byte) (V : View) : Prop where
  flags : ∀ v, (V v).map Prod.fst = (U v).map Prod.fst
  may : ∀ k < bytes.length, dst.writable U k = true
  kernel : dst = .kernel → V = U
  byte : ∀ va, dst = .user va → ∀ a, V.byte a =
    if va ≤ a ∧ a < va + bytes.length then bytes[a - va]? else U.byte a

namespace Received

variable {U V W : View} {dst : Dst} {p q : List Byte}

theorem nil (U : View) (dst : Dst) : Received U dst [] U :=
  ⟨fun _ ↦ rfl, fun _ hk ↦ absurd hk (Nat.not_lt_zero _), fun _ ↦ rfl,
    fun va _ a ↦ (if_neg (by rw [List.length_nil]; omega)).symm⟩

theorem writable (h : Received U dst p V) (k : ℕ) :
    (dst.add p.length).writable V k = dst.writable U (p.length + k) := by
  cases dst with
  | kernel => rfl
  | user va => rw [Dst.add, Dst.writable, Dst.writable, View.writable_congr h.flags, add_assoc]

theorem append (h : Received U dst p V) (h' : Received V (dst.add p.length) q W) :
    Received U dst (p ++ q) W := by
  refine ⟨fun v ↦ (h'.flags v).trans (h.flags v), fun k hk ↦ ?_, fun hk ↦ ?_, fun va hva a ↦ ?_⟩
  · rcases lt_or_ge k p.length with hlt | hge
    · exact h.may k hlt
    · have hmay := h'.may (k - p.length) (by rw [List.length_append] at hk; omega)
      rwa [h.writable, Nat.add_sub_cancel' hge] at hmay
  · rw [h'.kernel (by rw [hk]; rfl), h.kernel hk]
  · rw [h'.byte (va + p.length) (by rw [hva]; rfl), h.byte va hva, List.length_append]
    by_cases hp : a < va + p.length
    · rw [if_neg (by omega)]
      by_cases ha : va ≤ a
      · rw [if_pos ⟨ha, hp⟩, if_pos (by omega), List.getElem?_append_left (by omega)]
      · rw [if_neg (by omega), if_neg (by omega)]
    · by_cases hq : a < va + p.length + q.length
      · rw [if_pos (by omega), if_pos (by omega), List.getElem?_append_right (by omega)]
        congr 1
        omega
      · rw [if_neg (by omega), if_neg (by omega), if_neg (by omega)]

end Received

/-- `either_copyout`: the bytes arrive, unless one of them cannot be written. -/
theorem eitherCopyout_spec (dst : Dst) (bytes : List Byte) : wpe E (eitherCopyout dst bytes)
    (fun r t ↦ ∃ U, t = { s with user := U } ∧ (r ≠ -1 ∧ Received s.user dst bytes U ∨
      r = -1 ∧ ∃ k < bytes.length, dst.writable s.user k = false ∧
        Received s.user dst (bytes.take k) U)) s := by
  cases dst with
  | kernel =>
    exact ⟨s.user, rfl, .inl ⟨by decide, fun _ ↦ rfl, fun _ _ ↦ rfl, fun _ ↦ rfl, nofun⟩⟩
  | user va =>
    have hstored : View.Stored s.user va (fun k ↦ bytes.getD k 0) bytes.length _ :=
      s.user.copyout_spec bytes.length.le_refl
    refine ⟨_, rfl, ?_⟩
    obtain ⟨k, hmay, hbyte, hres⟩ := hstored.result
    have hk : k ≤ bytes.length := by rcases hres with h | h <;> omega
    have hlen : (bytes.take k).length = k := List.length_take_of_le hk
    have hrecv : Received s.user (.user va) (bytes.take k)
        (s.user.copyout bytes.length va (fun k ↦ bytes.getD k 0) bytes.length).2 := by
      refine ⟨hstored.flags, fun j hj ↦ hmay j (hlen ▸ hj), nofun, fun va' hva a ↦ ?_⟩
      obtain rfl : va = va' := Dst.user.inj hva
      rw [hbyte, hlen]
      split_ifs with hin
      · rw [List.getElem?_take_of_lt (by omega), List.getD_eq_getElem?_getD,
          List.getElem?_eq_getElem (by omega), Option.getD_some]
      · rfl
    rcases hres with ⟨h0, rfl⟩ | ⟨h1, hlt, hno⟩
    · rw [List.take_length] at hrecv
      exact .inl ⟨by rw [h0]; decide, hrecv⟩
    · exact .inr ⟨h1, k, hlt, hno, hrecv⟩

/-- What remains of a transfer behind the piece in the first block. -/
theorem piece_cases (off : ℕ) {len : ℕ} (hlen : 0 < len) :
    0 < min len (bsize - off % bsize) ∧ off % bsize + min len (bsize - off % bsize) ≤ bsize ∧
      ∀ j, off ≤ j → j < off + min len (bsize - off % bsize) → j / bsize = off / bsize := by
  rw [bsize_eq]
  exact ⟨by omega, by omega, fun j hle hlt ↦ by omega⟩

/-- The piece is all, or it ends with the block. -/
theorem piece_edge (off len : ℕ) : min len (bsize - off % bsize) = len ∨
    (off + min len (bsize - off % bsize)) % bsize = 0 := by
  rw [bsize_eq]
  omega

/-- A piece of one block. -/
theorem slice_byteAt {m : ℕ} (hm : off % bsize + m ≤ bsize) :
    slice (byteAt (d (blockAt d x (off / bsize)))) (off % bsize) m = slice (byteOf d x) off m := by
  refine slice_congr fun j hj ↦ ?_
  have hdiv : (off + j) / bsize = off / bsize := by
    rw [bsize_eq] at hm ⊢
    omega
  have hmod : (off + j) % bsize = off % bsize + j := by
    rw [bsize_eq] at hm ⊢
    omega
  rw [byteOf, hdiv, hmod]

/-- How a copy of the bytes `data` to `dst` ends that returns `m` if it succeeds. If it fails, the
bytes before the first that cannot be written have arrived. -/
def Copied (s t : Kfs) (dst : Dst) (data : List Byte) (m : ℕ) (r : ℤ × List Byte) : Prop :=
  ∃ U, t = { s with user := U } ∧
    (r = ((m : ℤ), data) ∧ Received s.user dst data U ∨
      r.1 = -1 ∧ ∃ k < data.length, dst.writable s.user k = false ∧
        Received s.user dst (data.take k) U)

theorem Copied.nil (s : Kfs) (dst : Dst) (m : ℕ) : Copied s s dst [] m ((m : ℤ), []) :=
  ⟨s.user, rfl, .inl ⟨rfl, .nil s.user dst⟩⟩

/-- A copy to the kernel does not fail. -/
theorem Copied.kernel {data : List Byte} {m : ℕ} {r : ℤ × List Byte}
    (h : Copied s t .kernel data m r) : t = s ∧ r = ((m : ℤ), data) := by
  obtain ⟨U, ht, ⟨hr, hrecv⟩ | ⟨-, k, -, hno, -⟩⟩ := h
  · rw [hrecv.kernel rfl] at ht
    exact ⟨ht, hr⟩
  · exact Bool.noConfusion hno

/-- The loop of `readi`, over blocks that are there. -/
theorem readiFrom_spec {dst : Dst} (hturns : n - tot ≤ turns) (htot : tot ≤ n)
    (hmap : ∀ j, off ≤ j → j < off + (n - tot) →
      j / bsize < maxFile ∧ blockAt s.disk (s.inode ip).din (j / bsize) ≠ 0) :
    wpe E (readiFrom sb ip turns dst off n tot) (fun r t ↦
      Copied s t dst (slice (byteOf s.disk (s.inode ip).din) off (n - tot)) n r) s := by
  induction turns generalizing s dst off tot with
  | zero =>
    obtain rfl : tot = n := by omega
    rw [readiFrom, wpe_ite, wpe_pure]
    refine ⟨fun h ↦ absurd h (lt_irrefl _), fun _ ↦ ?_⟩
    rw [Nat.sub_self, slice_zero]
    exact .nil s dst tot
  | succ turns ih =>
    rw [readiFrom, wpe_ite]
    refine ⟨fun hlt ↦ ?_, fun hge ↦ ?_⟩
    swap
    · obtain rfl : tot = n := by omega
      rw [wpe_pure, Nat.sub_self, slice_zero]
      exact .nil s dst tot
    obtain ⟨hpos, hfit, -⟩ := piece_cases off (show 0 < n - tot by omega)
    obtain ⟨hbn, hne⟩ := hmap off le_rfl (by omega)
    rw [wpe_bind]
    refine wpe_bmap_of_ne_zero hbn hne ?_
    rw [wpe_ite]
    refine ⟨fun h0 ↦ absurd h0 hne, fun _ ↦ ?_⟩
    have hle : min (n - tot) (bsize - off % bsize) ≤ n - tot := min_le_left _ _
    generalize min (n - tot) (bsize - off % bsize) = m at hpos hfit hle ⊢
    rw [wpe_bind, wpe_bread, wpe_bind, slice_byteAt hfit]
    -- this piece, and the rest
    have hsplit : slice (byteOf s.disk (s.inode ip).din) off (n - tot) =
        slice (byteOf s.disk (s.inode ip).din) off m ++
          slice (byteOf s.disk (s.inode ip).din) (off + m) (n - (tot + m)) := by
      rw [← slice_add, show m + (n - (tot + m)) = n - tot by omega]
    have hlen : (slice (byteOf s.disk (s.inode ip).din) off m).length = m := length_slice _ _ _
    generalize slice (byteOf s.disk (s.inode ip).din) off m = piece at hsplit hlen ⊢
    refine (eitherCopyout_spec dst piece).mono fun r t ⟨U, ht, hU⟩ ↦ ?_
    rw [hsplit, wpe_ite, wpe_pure]
    refine ⟨fun hr ↦ ⟨U, ht, .inr ⟨rfl, ?_⟩⟩, fun hr ↦ ?_⟩
    · obtain ⟨k, hk, hno, hpart⟩ := (hU.resolve_left fun h ↦ h.1 hr).2
      refine ⟨k, by rw [List.length_append]; omega, hno, ?_⟩
      rwa [List.take_append_of_le_length hk.le]
    have hrecv := (hU.resolve_right fun h ↦ hr h.1).2
    subst ht
    have hrec : wpe E (readiFrom sb ip turns (dst.add m) (off + m) n (tot + m)) _
        { s with user := U } :=
      ih (by omega) (by omega) fun j hle hj ↦ hmap j (by omega) (by omega)
    rw [wpe_bind]
    refine hrec.mono fun r t ⟨V, ht, hr⟩ ↦ ?_
    rw [wpe_pure]
    refine ⟨V, ht, ?_⟩
    rw [← hlen] at hr
    rcases hr with ⟨rfl, hV⟩ | ⟨hr, k, hk, hno, hV⟩
    · rw [← hlen]
      exact .inl ⟨rfl, hrecv.append hV⟩
    · rw [hrecv.writable] at hno
      refine .inr ⟨hr, piece.length + k, ?_, hno, ?_⟩
      · rw [List.length_append, ← hlen]
        exact Nat.add_lt_add_left hk _
      · rw [List.take_length_add_append, ← hlen]
        exact hrecv.append hV

/-- What `readi` returns: the bytes of the range that are before the end of the file; none if the
end of the range is past the largest `uint`. -/
def pieceOf (c : List Byte) (off n : ℕ) : List Byte :=
  if off + n < 2 ^ 32 then (c.drop off).take n else []

/-- **`readi` on a sound file system.** -/
theorem InSlot.readi {dst : Dst} {off n : BitVec 32} (hs : InSlot sb I i ip s) :
    wpe E (Kernel.readi sb ip dst off n) (fun r t ↦
      Copied s t dst (pieceOf (contents s.disk (s.inode ip).din) off.toNat n.toNat)
        (pieceOf (contents s.disk (s.inode ip).din) off.toNat n.toNat).length r) s := by
  have hfull := hs.sound.full i hs.lt
  have hsize := hs.sound.size_le i hs.lt
  rw [update_self] at hfull hsize
  generalize hx : (s.inode ip).din = x at hfull hsize
  have hslt := x.size.isLt
  have hon := off.isLt
  have hnn := n.isLt
  have hlen : (contents s.disk x).length = x.size.toNat := length_slice _ _ _
  rw [Kernel.readi, wpe_bind, wpe_inode, wpe_ite, hx]
  refine ⟨fun hguard ↦ ?_, fun hguard ↦ ?_⟩
  · have hnone : pieceOf (contents s.disk x) off.toNat n.toNat = [] := by
      rw [BitVec.lt_def, BitVec.lt_def, BitVec.toNat_add] at hguard
      rw [pieceOf]
      split_ifs with hwrap
      · rw [List.drop_eq_nil_of_le (by omega), List.take_nil]
      · rfl
    rw [wpe_pure, hnone]
    exact .nil s dst 0
  · rw [not_or, BitVec.lt_def, BitVec.lt_def, BitVec.toNat_add] at hguard
    have hsum : (off + n).toNat = off.toNat + n.toNat := by
      rw [BitVec.toNat_add, Nat.mod_eq_of_lt (by omega)]
    -- the range, cut at the end of the file
    have hcut : (if x.size < off + n then x.size - off else n).toNat =
        min n.toNat (x.size.toNat - off.toNat) := by
      have hsub : (x.size - off).toNat = x.size.toNat - off.toNat :=
        BitVec.toNat_sub_of_le (not_lt.1 hguard.1)
      split_ifs with h <;> rw [BitVec.lt_def, hsum] at h <;> omega
    have hpiece : pieceOf (contents s.disk x) off.toNat n.toNat =
        slice (byteOf s.disk x) off.toNat (min n.toNat (x.size.toNat - off.toNat)) := by
      rw [pieceOf, if_pos (by omega), contents, take_drop_slice, zero_add]
    dsimp only
    rw [hcut, hpiece, length_slice]
    have hloop : wpe E (readiFrom sb ip (min n.toNat (x.size.toNat - off.toNat)) dst off.toNat
        (min n.toNat (x.size.toNat - off.toNat)) 0) _ s :=
      readiFrom_spec (Nat.sub_le _ _) (Nat.zero_le _) fun j hle hj ↦ ?_
    · refine hloop.mono fun r t hr ↦ ?_
      rwa [hx, Nat.sub_zero] at hr
    · rw [hx]
      refine ⟨Nat.div_lt_of_lt_mul (by rw [mul_comm]; omega), hfull _ ?_⟩
      rw [bsize_eq]
      omega

/-- `readi` into the kernel. -/
theorem InSlot.readi_kernel {off n : BitVec 32} (hs : InSlot sb I i ip s) :
    wpe E (Kernel.readi sb ip .kernel off n) (fun r t ↦ t = s ∧
      r = (((pieceOf (contents s.disk (s.inode ip).din) off.toNat n.toNat).length : ℤ),
        pieceOf (contents s.disk (s.inode ip).din) off.toNat n.toNat)) s :=
  hs.readi.mono fun _ _ h ↦ h.kernel

/-! ### Sources -/

/-- The byte `k` of a source, if it can be read. -/
def Src.byte (U : View) : Src → ℕ → Option Byte
  | .kernel mem, k => some (mem k)
  | .user va, k => U.byte (va + k)

theorem Src.byte_add (U : View) (src : Src) (m k : ℕ) :
    (src.add m).byte U k = src.byte U (m + k) := by
  cases src with
  | kernel mem => rfl
  | user va => rw [Src.add, Src.byte, Src.byte, add_assoc]

/-- What `either_copyin` of `len` bytes returns and delivers: the bytes up to the first that cannot
be read. -/
structure Delivered (U : View) (src : Src) (len : ℕ) (r : ℤ) (bytes : List Byte) : Prop where
  byte : ∀ k < bytes.length, bytes[k]? = src.byte U k
  result : r = 0 ∧ bytes.length = len ∨ r = -1 ∧ bytes.length < len ∧ src.byte U bytes.length = none

theorem eitherCopyin_spec (src : Src) (len : ℕ) : wpe E (eitherCopyin src len)
    (fun p t ↦ t = s ∧ Delivered s.user src len p.1 p.2) s := by
  cases src with
  | kernel mem =>
    refine ⟨rfl, fun k hk ↦ ?_, .inl ⟨rfl, length_slice _ _ _⟩⟩
    rw [length_slice] at hk
    rw [getElem?_slice hk, zero_add]
    rfl
  | user va =>
    obtain ⟨hbyte, hres⟩ := @View.copyin_spec s.user len va len le_rfl
    exact ⟨rfl, hbyte, hres⟩

/-! ### Writing -/

/-- The number of empty places among `B`. -/
def lacking (d : Disk) (x : Dinode) (B : Finset ℕ) : ℕ := (B.filter (blockAt d x · = 0)).card

variable {B K : Finset ℕ} {data bytes : List Byte}

/-- The places that have to be filled to write `n` bytes from `off` on. -/
def span (off n : ℕ) : Finset ℕ := (Finset.Ico off (off + n)).biUnion fun j ↦ places (j / bsize)

theorem places_subset_span {j : ℕ} (h : off ≤ j) (h' : j < off + n) :
    places (j / bsize) ⊆ span off n :=
  subset_biUnion_of_mem (fun j ↦ places (j / bsize)) (mem_Ico.2 ⟨h, h'⟩)

theorem span_subset {off' n' : ℕ} (h : off ≤ off') (h' : off' + n' ≤ off + n) :
    span off' n' ⊆ span off n :=
  biUnion_subset_biUnion_of_subset_left _ (Ico_subset_Ico h h')

/-- Where all places were filled, there were enough blocks. -/
theorem Placed.lacking_le (h : Placed sb ip s t K) (hB : lacking t.disk (t.inode ip).din B = 0) :
    lacking s.disk (s.inode ip).din B ≤ freeBlocks sb s.disk := by
  have hcount := h.count
  have hle : lacking s.disk (s.inode ip).din B ≤ K.card := by
    refine card_le_card fun q hq ↦ ?_
    obtain ⟨hqB, hq0⟩ := mem_filter.1 hq
    by_contra hK
    exact filter_eq_empty_iff.1 (card_eq_zero.1 hB) hqB (by rw [h.old q hK, hq0])
  omega

/-- Where a place is empty and no block is left, there were too few blocks. -/
theorem Placed.lt_lacking (h : Placed sb ip s t K) (hK : K ⊆ B) (hfree : freeBlocks sb t.disk = 0)
    {q : ℕ} (hq : q ∈ B) (h0 : blockAt t.disk (t.inode ip).din q = 0) :
    freeBlocks sb s.disk < lacking s.disk (s.inode ip).din B := by
  have hcount := h.count
  have hqK : q ∉ K := fun hmem ↦ (h.new q hmem).2 h0
  have hle : (insert q K).card ≤ lacking s.disk (s.inode ip).din B := by
    refine card_le_card fun p hp ↦ mem_filter.2 ?_
    rcases mem_insert.1 hp with rfl | hp
    · exact ⟨hq, by rw [← h.old p hqK, h0]⟩
    · exact ⟨hK hp, (h.new p hp).1⟩
  rw [card_insert_of_notMem hqK] at hle
  omega

/-- From `s` to `t` the bytes `data` were written to the inode `i`, in the entry `ip` of the table,
from `off` on, and the places `K` were filled. The size is not yet adjusted. -/
structure Wrote (sb : Superblock) (I : ℕ → Dinode) (i : ℕ) (ip : Slot) (s t : Kfs) (off : ℕ)
    (data : List Byte) (K : Finset ℕ) : Prop extends Placed sb ip s t K where
  inSlot : InSlot sb I i ip t
  covered : ∀ j, off ≤ j → j < off + data.length →
    blockAt t.disk (t.inode ip).din (j / bsize) ≠ 0
  bytes : ∀ j, j / bsize < maxFile →
    byteOr t.disk (t.inode ip).din j = overwrite (byteOr s.disk (s.inode ip).din) off data j
  held_other : ∀ c : ℕ × ℕ, c.1 ≠ i → held sb t.disk I c = held sb s.disk I c
  kept_other : ∀ c : ℕ × ℕ, c.1 ≠ i → held sb s.disk I c ≠ 0 →
    t.disk (held sb s.disk I c) = s.disk (held sb s.disk I c)

/-- The bytes of `data` from `m` on are in the file already. -/
def Unchanged (d : Disk) (x : Dinode) (off : ℕ) (data : List Byte) (m : ℕ) : Prop :=
  ∀ j, m ≤ j → j < data.length → data[j]? = some (byteOr d x (off + j))

namespace Wrote

variable {L : Finset ℕ}

theorem trans {more : List Byte} (h : Wrote sb I i ip s t off data K)
    (h' : Wrote sb I i ip t u (off + data.length) more L) :
    Wrote sb I i ip s u off (data ++ more) (K ∪ L) where
  toPlaced := h.toPlaced.trans h'.toPlaced
  inSlot := h'.inSlot
  covered j hle hlt := by
    rw [List.length_append] at hlt
    rcases lt_or_ge j (off + data.length) with hj | hj
    · rw [h'.stays (h.covered j hle hj)]
      exact h.covered j hle hj
    · exact h'.covered j hj (by omega)
  bytes j hj := by
    rw [overwrite_append, h'.bytes j hj]
    exact overwrite_congr (h.bytes j hj)
  held_other c hc := (h'.held_other c hc).trans (h.held_other c hc)
  kept_other c hc hne := by
    have hnext := h'.kept_other c hc (by rwa [h.held_other c hc])
    rw [h.held_other c hc] at hnext
    rw [hnext, h.kept_other c hc hne]

/-- Bytes that were there already need not be counted. -/
theorem trim {m : ℕ} (h : Wrote sb I i ip s t off data K)
    (hsame : Unchanged s.disk (s.inode ip).din off data m) :
    Wrote sb I i ip s t off (data.take m) K := by
  refine { h with covered := fun j hle hlt ↦ ?_, bytes := fun j hj ↦ ?_ }
  · rw [List.length_take] at hlt
    exact h.covered j hle (by omega)
  · rw [h.bytes j hj, overwrite, overwrite, List.getElem?_take]
    split_ifs with hle hlt
    · rfl
    · rcases lt_or_ge (j - off) data.length with hj' | hj'
      · rw [hsame _ (by omega) hj', Nat.add_sub_cancel' hle]
        rfl
      · rw [List.getElem?_eq_none hj']
    · rfl

/-- What is written behind what was written. -/
theorem unchanged_iff {more : List Byte} {m : ℕ} (h : Wrote sb I i ip s t off data K)
    (hmax : off + data.length + more.length ≤ maxFile * bsize) :
    Unchanged t.disk (t.inode ip).din (off + data.length) more m ↔
      Unchanged s.disk (s.inode ip).din off (data ++ more) (data.length + m) := by
  have hbyte : ∀ j < more.length, byteOr t.disk (t.inode ip).din (off + data.length + j) =
      byteOr s.disk (s.inode ip).din (off + data.length + j) := fun j hj ↦ by
    rw [h.bytes _ (Nat.div_lt_of_lt_mul (by rw [mul_comm]; omega)),
      overwrite_of_lt_or_le (.inr (Nat.le_add_right _ _))]
  refine ⟨fun hsame j hle hlt ↦ ?_, fun hsame j hle hlt ↦ ?_⟩
  · rw [List.length_append] at hlt
    rw [List.getElem?_append_right (by omega), hsame _ (by omega) (by omega), hbyte _ (by omega),
      add_assoc, Nat.add_sub_cancel' (by omega)]
  · have hj := hsame (data.length + j) (by omega) (by rw [List.length_append]; omega)
    rw [List.getElem?_append_right (Nat.le_add_right _ _), Nat.add_sub_cancel_left,
      ← add_assoc] at hj
    rw [hj, hbyte j hlt]

end Wrote

/-- How the loop of `writei` ends, with `n` bytes to write: `data` was copied, of which `m` bytes
count. Either these are all, or there was no block for the next one, or the source ended within a
block. -/
structure Ended (sb : Superblock) (U : View) (src : Src) (t : Kfs) (ip : Slot) (off n : ℕ)
    (data : List Byte) (m : ℕ) : Prop where
  byte : ∀ k < data.length, data[k]? = src.byte U k
  le : m ≤ data.length ∧ data.length ≤ n
  ends : m = n ∨
    m = data.length ∧ m < n ∧ freeBlocks sb t.disk = 0 ∧
      blockAt t.disk (t.inode ip).din ((off + m) / bsize) = 0 ∨
    src.byte U data.length = none ∧ data.length < n ∧
      (off + data.length) / bsize = (off + m) / bsize
  /-- It ends where a block begins. -/
  edge : m = n ∨ m = 0 ∨ (off + m) % bsize = 0

/-- A piece was copied, and then the rest. -/
theorem Ended.cons {U : View} {src : Src} {m : ℕ}
    (hbyte : ∀ k < bytes.length, bytes[k]? = src.byte U k) (hle : bytes.length ≤ n)
    (hedge : bytes.length = n ∨ (off + bytes.length) % bsize = 0)
    (h : Ended sb U (src.add bytes.length) t ip (off + bytes.length) (n - bytes.length) data m) :
    Ended sb U src t ip off n (bytes ++ data) (bytes.length + m) where
  byte k hk := by
    rw [List.length_append] at hk
    rcases lt_or_ge k bytes.length with hlt | hge
    · rw [List.getElem?_append_left hlt, hbyte k hlt]
    · rw [List.getElem?_append_right hge, h.byte _ (by omega), Src.byte_add,
        Nat.add_sub_cancel' hge]
  le := by
    have hm := h.le
    rw [List.length_append]
    omega
  ends := by
    have hm := h.le
    rw [List.length_append]
    rcases h.ends with h | ⟨h₁, h₂, h₃, h₄⟩ | ⟨h₁, h₂, h₃⟩
    · exact .inl (by omega)
    · rw [add_assoc] at h₄
      exact .inr (.inl ⟨by omega, by omega, h₃, h₄⟩)
    · rw [Src.byte_add] at h₁
      rw [add_assoc, add_assoc] at h₃
      exact .inr (.inr ⟨h₁, by omega, h₃⟩)
  edge := by
    have hm := h.le
    have hrest := h.edge
    rw [bsize_eq] at hedge hrest ⊢
    omega

namespace InSlot

/-- Filling places writes nothing. -/
theorem wrote_of_grown (hs : InSlot sb I i ip s) (h : Grown sb I i ip s t K)
    (hfresh : ∀ q ∈ K, q < maxFile → t.disk (blockAt t.disk (t.inode ip).din q) = 0) (off : ℕ) :
    Wrote sb I i ip s t off [] K where
  toPlaced := h.toPlaced
  inSlot := h.inSlot hs
  covered j hle hlt := absurd hlt (not_lt.2 hle)
  bytes j hj := by
    rw [overwrite_nil, byteOr, byteOr]
    by_cases hold : blockAt s.disk (s.inode ip).din (j / bsize) = 0
    · rw [if_pos hold]
      split_ifs with hnew
      · rfl
      · have hK : j / bsize ∈ K := by
          by_contra hK
          exact hnew (by rw [h.old _ hK, hold])
        rw [byteOf, hfresh _ hK hj, byteAt_zero]
    have hcell : held sb s.disk (update I i (s.inode ip).din) (i, j / bsize) =
        blockAt s.disk (s.inode ip).din (j / bsize) := held_update_self hs.lt _ _
    have hkept := h.kept_held hs.lt hs.sound (by rw [hcell]; exact hold)
      fun heq ↦ hj.ne (Prod.mk.inj heq).2
    rw [hcell] at hkept
    rw [if_neg hold, if_neg (by rwa [h.stays hold]), byteOf, byteOf, h.stays hold, hkept]
  held_other c hc := h.held_other hs.lt hc hs.sound
  kept_other c hc hne := by
    have hkept := h.kept_held hs.lt hs.sound (c := c) (by rwa [held_update_of_ne hc])
      fun heq ↦ hc (by rw [heq])
    rwa [held_update_of_ne hc] at hkept

/-- `bmap` fills places with zeros. -/
theorem wrote_of_mapped {bn : ℕ} (hs : InSlot sb I i ip s) (h : Mapped sb I i ip s t bn a K)
    (hK : K ⊆ places bn) (off : ℕ) : Wrote sb I i ip s t off [] K := by
  refine hs.wrote_of_grown h.grown (fun q hq hlt ↦ ?_) off
  have hbn : q = bn := by
    have hmem := hK hq
    rw [places] at hmem
    split_ifs at hmem
    · exact mem_singleton.1 hmem
    · exact (mem_insert.1 hmem).resolve_right fun h ↦ hlt.ne (mem_singleton.1 h)
  rw [hbn] at hq ⊢
  rw [h.self, h.fresh hq]

/-- Bytes are copied into a block of the file. -/
theorem wrote_block (hs : InSlot sb I i ip s) (hbn : off / bsize < maxFile)
    (ha : blockAt s.disk (s.inode ip).din (off / bsize) = a) (h0 : a ≠ 0)
    (hfit : off % bsize + bytes.length ≤ bsize)
    (hdisk : t.disk = update s.disk a (copyIn (s.disk a) (off % bsize) bytes))
    (hinode : t.inode = s.inode) (haside : Aside s t) : Wrote sb I i ip s t off bytes ∅ := by
  have hcell : held sb s.disk (update I i (s.inode ip).din) (i, off / bsize) = a := by
    rw [held_update_self hs.lt, ha]
  have hdata := hs.sound.held_mem_data (by rw [hcell]; exact h0)
  rw [hcell] at hdata
  -- only the cell of this block has it
  have hne : ∀ c, held sb s.disk (update I i (s.inode ip).din) c = a →
      c = (i, off / bsize) := fun c hc ↦
    hs.sound.owns.unique c _ (by rw [hc]; exact h0) (by rw [hc, hcell])
  have hother : ∀ b ≠ a, t.disk b = s.disk b := fun b hb ↦ by rw [hdisk, update_of_ne hb]
  have hheld : held sb t.disk (update I i (s.inode ip).din) =
      held sb s.disk (update I i (s.inode ip).din) := by
    refine held_congr_ind fun j hj _ ↦ hother _ fun heq ↦ ?_
    have hind := hne (j, maxFile) (by rw [held_of_lt hj, blockAt_ind, heq])
    exact hbn.ne (Prod.mk.inj hind).2.symm
  have hbits : ∀ b < sb.size, bit sb t.disk b = bit sb s.disk b := fun b hb ↦ by
    have hlt := hs.sound.laidOut.bblock_lt hb
    exact bit_congr (hother _ (by omega))
  have hblock : ∀ q, blockAt t.disk (s.inode ip).din q = blockAt s.disk (s.inode ip).din q :=
    fun q ↦ by rw [← held_update_self hs.lt (I := I), hheld, held_update_self hs.lt]
  have hle := hs.sound.laidOut.bmapstart_le_datastart
  refine ⟨⟨?_, fun e _ ↦ ?_, haside, ?_, fun q _ ↦ ?_, fun q hq ↦ absurd hq (notMem_empty q),
    fun b hb ↦ hother b (by omega), ?_⟩, ⟨?_, hs.lt, ?_⟩, fun j hle hlt ↦ ?_, fun j hj ↦ ?_,
    fun c hc ↦ ?_, fun c hc hc0 ↦ hother _ ?_⟩
  · rw [hinode]
  · rw [hinode]
  · rw [hinode]
  · rw [hinode, hblock q]
  · rw [freeBlocks_congr hbits, card_empty, add_zero]
  · rw [hinode]
    exact hs.sound.of_held hheld hbits
  · rw [hinode]
    exact hs.type_ne
  · have hdiv : j / bsize = off / bsize := by
      rw [bsize_eq] at hfit ⊢
      omega
    rw [hinode, hblock, hdiv, ha]
    exact h0
  · rw [hinode, byteOr, byteOf, hblock]
    by_cases hdiv : j / bsize = off / bsize
    · have hoff : bsize * (off / bsize) + off % bsize = off := Nat.div_add_mod _ _
      have hjm : bsize * (off / bsize) + j % bsize = j := by rw [← hdiv, Nat.div_add_mod]
      rw [hdiv, ha, if_neg h0, hdisk, update_self, byteAt_copyIn _ hfit,
        overwrite_shift (g := byteOr s.disk (s.inode ip).din)
          (c := bsize * (off / bsize)), hoff, hjm]
      rw [hjm, byteOr, byteOf, hdiv, ha, if_neg h0]
    · have hout : ¬(off ≤ j ∧ j < off + bytes.length) := by
        rw [bsize_eq] at hfit hdiv
        omega
      rw [overwrite_of_lt_or_le (by omega), byteOr, byteOf]
      refine if_congr Iff.rfl rfl ?_
      rw [hother]
      intro heq
      have hcell' := hne (i, j / bsize) (by rw [held_update_self hs.lt, heq])
      exact hdiv (Prod.mk.inj hcell').2
  · rw [← held_update_of_ne hc, hheld, held_update_of_ne hc]
  · intro heq
    have hcell' := hne c (by rw [held_update_of_ne hc, heq])
    exact hc (by rw [hcell'])

/-- **The loop of `writei`** on a sound file system. -/
theorem writeiFrom {src : Src} (hs : InSlot sb I i ip s) (hturns : n - tot ≤ turns) (htot : tot ≤ n)
    (hmax : off + (n - tot) ≤ maxFile * bsize) :
    wpe E (Kernel.writeiFrom sb ip turns src off n tot)
      (fun r t ↦ ∃ data m K, r = (tot + m, off + m) ∧ Wrote sb I i ip s t off data K ∧
        K ⊆ span off (data.length + 1) ∧ Ended sb s.user src t ip off (n - tot) data m ∧
        TidyIff (Unchanged s.disk (s.inode ip).din off data m) s t) s := by
  have hdone : ∀ {s : Kfs} {src : Src} {off tot : ℕ}, InSlot sb I i ip s → n ≤ tot →
      ∃ data m K, (tot, off) = (tot + m, off + m) ∧ Wrote sb I i ip s s off data K ∧
        K ⊆ span off (data.length + 1) ∧ Ended sb s.user src s ip off (n - tot) data m ∧
        TidyIff (Unchanged s.disk (s.inode ip).din off data m) s s := fun {s src off tot} hs hle ↦
    ⟨[], 0, ∅, rfl, hs.wrote_of_grown (.refl hs.sound) (fun q hq ↦ absurd hq (notMem_empty q)) off,
      empty_subset _, ⟨fun k hk ↦ absurd hk (Nat.not_lt_zero k), ⟨le_rfl, Nat.zero_le _⟩,
        .inl (by omega), .inr (.inl rfl)⟩,
      (Tidy.refl s).tidyIff fun j _ hj ↦ absurd hj (Nat.not_lt_zero j)⟩
  induction turns generalizing s src off tot with
  | zero =>
    rw [Kernel.writeiFrom, wpe_ite, wpe_pure]
    exact ⟨fun h ↦ absurd h (by omega), fun h ↦ hdone hs (by omega)⟩
  | succ turns ih =>
    rw [Kernel.writeiFrom, wpe_ite]
    refine ⟨fun hlt ↦ ?_, fun hge ↦ hdone hs (by omega)⟩
    obtain ⟨hpos, hfit, hin⟩ := piece_cases off (show 0 < n - tot by omega)
    have hedge := piece_edge off (n - tot)
    have hle : min (n - tot) (bsize - off % bsize) ≤ n - tot := min_le_left _ _
    have hbn : off / bsize < maxFile := Nat.div_lt_of_lt_mul (by rw [mul_comm]; omega)
    rw [wpe_bind]
    refine (hs.bmap hbn).mono fun a t hmap ↦ ?_
    obtain ⟨K, hK, ht⟩ := hmap
    have hst := ht.grown.inSlot hs
    have hgrown := hs.wrote_of_mapped ht hK off
    have hspan : ∀ k, K ∪ ∅ ⊆ span off (k + 1) := fun k ↦ by
      rw [union_empty]
      exact hK.trans (places_subset_span le_rfl (by omega))
    rw [wpe_ite, wpe_pure]
    refine ⟨fun h0 ↦ ⟨[], 0, K, rfl, hgrown, by simpa using hspan 0,
      ⟨fun k hk ↦ absurd hk (Nat.not_lt_zero k), ⟨le_rfl, Nat.zero_le _⟩,
        .inr (.inl ⟨rfl, by omega, ht.full h0, ht.self.trans h0⟩), .inr (.inl rfl)⟩,
      ht.grown.tidy.tidyIff fun j _ hj ↦ absurd hj (Nat.not_lt_zero j)⟩, fun h0 ↦ ?_⟩
    generalize min (n - tot) (bsize - off % bsize) = c at hpos hfit hin hle hedge ⊢
    rw [wpe_bind]
    refine (eitherCopyin_spec src c).mono fun p v hcopy ↦ ?_
    obtain ⟨rfl, hp⟩ := hcopy
    obtain ⟨r, bytes⟩ := p
    replace hp : Delivered v.user src c r bytes := hp
    have huser : v.user = s.user := ht.grown.aside.user
    have hbytes : bytes.length ≤ c := by rcases hp.result with h | h <;> omega
    rw [huser] at hp
    have hwrote : ∀ u : Kfs,
        u.disk = update v.disk a (copyIn (v.disk a) (off % bsize) bytes) →
        u.inode = v.inode → Aside v u → Wrote sb I i ip s u off bytes (K ∪ ∅) := fun u hd hi ha ↦ by
      have hblock : Wrote sb I i ip v u off bytes ∅ :=
        hst.wrote_block hbn ht.self h0 (by omega) hd hi ha
      exact hgrown.trans hblock
    rw [wpe_bind, wpe_modifyBlock, wpe_ite]
    refine ⟨fun hr ↦ ?_, fun hr ↦ ?_⟩
    · -- the copy has failed, and the buffer is released as it is
      rw [wpe_bind, wpe_brelse, wpe_pure]
      refine ⟨bytes, 0, K ∪ ∅, rfl, hwrote _ rfl rfl ⟨rfl, rfl, rfl⟩, hspan _,
        ⟨hp.byte, ⟨Nat.zero_le _, by omega⟩, .inr (.inr ?_), .inr (.inl rfl)⟩,
        .before ht.grown.tidy ((TidyIff.release _ _ _).congr ?_)⟩
      · rcases hp.result with ⟨hr0, -⟩ | ⟨-, hlt', hnone⟩
        · rw [hr0] at hr
          exact absurd hr (by decide)
        · exact ⟨hnone, by omega, hin _ (by omega) (by omega)⟩
      · rw [copyIn_eq_self_iff _ (by omega)]
        have hbyte : ∀ j < bytes.length, byteAt (v.disk a) (off % bsize + j) =
            byteOr s.disk (s.inode ip).din (off + j) := fun j hj ↦ by
          have hdiv := hin (off + j) (by omega) (by omega)
          have hkeep := hgrown.bytes (off + j) (by rwa [hdiv])
          rw [overwrite_nil] at hkeep
          rw [← hkeep, byteOr, byteOf, hdiv, ht.self, if_neg h0]
          congr 1
          rw [bsize_eq] at hdiv ⊢
          omega
        refine ⟨fun h j _ hj ↦ ?_, fun h j hj ↦ ?_⟩
        · rw [h j hj, hbyte j hj]
        · rw [h j (Nat.zero_le j) hj, hbyte j hj]
    · have hlen : bytes.length = c := by
        rcases hp.result with ⟨-, hlen⟩ | ⟨hr1, -⟩
        · exact hlen
        · exact absurd hr1 hr
      rw [wpe_bind, wpe_logWrite, wpe_bind, wpe_brelse]
      obtain ⟨u, hu⟩ : ∃ u, u = v.edit a (copyIn (v.disk a) (off % bsize) bytes) := ⟨_, rfl⟩
      rw [← Kfs.edit, ← hu]
      have hw := hwrote u (by rw [hu]; rfl) (by rw [hu]; rfl) (by rw [hu]; exact .edit _ _ _)
      have hrec : wpe E (Kernel.writeiFrom sb ip turns (src.add c) (off + c) n (tot + c)) _ u :=
        ih hw.inSlot (by omega) (by omega) (by omega)
      refine hrec.mono fun r w hrest ↦ ?_
      obtain ⟨data, m, L, hrw, hw', hL, hend, htidy⟩ := hrest
      rw [← hlen] at hw' hend hL htidy
      rw [hw.aside.user, show n - (tot + bytes.length) = n - tot - bytes.length by omega] at hend
      have hend' := Ended.cons hp.byte (by omega) (by rwa [hlen]) hend
      have hall := hend'.le.2
      rw [List.length_append] at hall
      refine ⟨bytes ++ data, bytes.length + m, K ∪ ∅ ∪ L, ?_, hw.trans hw', ?_, hend', ?_⟩
      · rw [hrw, hlen, add_assoc, add_assoc]
      · rw [List.length_append]
        exact union_subset (hspan _) (hL.trans (span_subset (by omega) (by omega)))
      · refine .before (ht.grown.tidy.trans ?_) (htidy.congr (hw.unchanged_iff (by omega)))
        rw [hu]
        exact .edit _ _ _

end InSlot

/-! ### Contents -/

/-- The contents depend on the blocks of the file only. -/
theorem contents_congr (hblock : ∀ q, blockAt d' x' q = blockAt d x q) (hsize : x'.size = x.size)
    (h : ∀ k, k * bsize < x.size.toNat → d' (blockAt d x k) = d (blockAt d x k)) :
    contents d' x' = contents d x := by
  rw [contents, contents, hsize]
  refine slice_congr fun j hj ↦ ?_
  rw [zero_add, byteOf, byteOf, hblock, h]
  rw [bsize_eq]
  omega

/-- The contents of the files are in the data area. -/
theorem Sound.contents_of_meta {hand : Finset ℕ} (h : Sound sb d I hand) (hi : i < sb.ninodes)
    (hd : ∀ b, sb.datastart ≤ b → d' b = d b) : contents d' (I i) = contents d (I i) := by
  have hdata : ∀ p, blockAt d (I i) p ≠ 0 → d' (blockAt d (I i) p) = d (blockAt d (I i) p) := by
    intro p hp
    have hmem := h.held_mem_data (c := (i, p)) (by rwa [held_of_lt hi])
    rw [held_of_lt hi] at hmem
    exact hd _ hmem.1
  refine contents_congr (blockAt_congr (fun hne ↦ ?_) fun _ _ ↦ rfl) rfl fun k hk ↦
    hdata k (h.full i hi k hk)
  exact hdata maxFile (toNat_ne_zero hne)

/-- What the file has after bytes were written. -/
theorem Wrote.contents_eq (hw : Wrote sb I i ip s t off data K)
    (hs : InSlot sb I i ip s) (hoff : off ≤ (s.inode ip).din.size.toNat)
    (hmax : off + data.length ≤ maxFile * bsize)
    (haddr : ∀ k ≤ ndirect, x'.addr k = (t.inode ip).din.addr k)
    (hsize : x'.size.toNat = max (s.inode ip).din.size.toNat (off + data.length)) :
    contents t.disk x' = splice (contents s.disk (s.inode ip).din) off data := by
  have hfull := hs.sound.full i hs.lt
  have hle := hs.sound.size_le i hs.lt
  rw [update_self] at hfull hle
  have hthere : ∀ j < (s.inode ip).din.size.toNat,
      blockAt s.disk (s.inode ip).din (j / bsize) ≠ 0 := fun j hj ↦ by
    refine hfull _ ?_
    rw [bsize_eq]
    omega
  have hold : contents s.disk (s.inode ip).din =
      slice (byteOr s.disk (s.inode ip).din) 0 (s.inode ip).din.size.toNat :=
    slice_congr fun j hj ↦ by rw [byteOr, if_neg (hthere _ (by omega))]
  rw [hold, ← slice_overwrite hoff, contents, hsize]
  refine slice_congr fun j hj ↦ ?_
  rw [zero_add, ← hw.bytes j (Nat.div_lt_of_lt_mul (by rw [mul_comm]; omega)), byteOr,
    if_neg, byteOf, byteOf, blockAt_congr (fun _ ↦ rfl) haddr]
  rcases lt_or_ge j (s.inode ip).din.size.toNat with hlt | hge
  · rw [hw.stays (hthere j hlt)]
    exact hthere j hlt
  · exact hw.covered j (by omega) (by omega)

/-- The other files stay as they are. -/
theorem Wrote.contents_other {j : ℕ} (hw : Wrote sb I i ip s t off data K)
    (hs : InSlot sb I i ip s) (hj : j < sb.ninodes) (hji : j ≠ i) :
    contents t.disk (I j) = contents s.disk (I j) := by
  refine contents_congr (fun q ↦ ?_) rfl fun k hk ↦ ?_
  · rw [← held_of_lt hj, ← held_of_lt hj, hw.held_other (j, q) hji]
  · have hfull := hs.sound.full j hj k
    rw [update_of_ne hji] at hfull
    have hkept := hw.kept_other (j, k) hji (by rw [held_of_lt hj]; exact hfull hk)
    rwa [held_of_lt hj] at hkept

/-- The file system is sound with the new size. -/
theorem Wrote.sound_resize (hw : Wrote sb I i ip s t off data K)
    (hs : InSlot sb I i ip s) (hmax : off + data.length ≤ maxFile * bsize)
    (haddr : ∀ k ≤ ndirect, x'.addr k = (t.inode ip).din.addr k)
    (hsize : x'.size.toNat = max (s.inode ip).din.size.toNat (off + data.length))
    (hoff : off ≤ (s.inode ip).din.size.toNat) (htype : x'.type ≠ 0) :
    Sound sb t.disk (update I i x') ∅ := by
  have hfull := hs.sound.full i hs.lt
  have hle := hs.sound.size_le i hs.lt
  rw [update_self] at hfull hle
  refine hw.inSlot.sound.replace hs.lt haddr (by omega) (fun k hk ↦ ?_) fun h ↦ absurd h htype
  rcases lt_or_ge (k * bsize) (s.inode ip).din.size.toNat with hlt | hge
  · rw [hw.stays (hfull k hlt)]
    exact hfull k hlt
  · have hcov := hw.covered (k * bsize) (by omega) (by omega)
    rwa [Nat.mul_div_cancel _ (by decide)] at hcov

end Xv6.Fs.Kernel

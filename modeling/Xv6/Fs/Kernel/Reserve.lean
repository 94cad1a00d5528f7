import Xv6.Fs.Kernel.Calls
import Xv6.Fs.Kernel.Table

/-!
# Blocks that are logged

Which blocks a write passes to `log_write`, on any disk: `Logs s t B` says that from `s` to `t` only
blocks in `B` were logged.
Each block of a write is one turn of the loop of `writei`. It logs the block and, if it had to be
allocated, a block of the bitmap; the indirect block and its bit in the bitmap come once for all
turns. A write of `filewrite` that begins within a block finds this block in place, so ten blocks
are enough.
-/

namespace Xv6.Fs.Kernel

open Function Option Finset

variable {E : Panic → Prop} {sb : Superblock} {s t u : Kfs} {ip : Slot}
    {a b i k n off tot turns : ℕ}
  {B Y Z : Finset ℕ}

/-! ### Logged blocks -/

/-- From `s` to `t` only blocks and inodes have changed: no entry of the table is for another inode,
taken or given back. -/
structure Steady (s t : Kfs) : Prop where
  aside : Aside s t
  entry : ∀ e, ∃ x, t.inode e = { s.inode e with din := x }

namespace Steady

theorem refl (s : Kfs) : Steady s s := ⟨.refl s, fun e ↦ ⟨(s.inode e).din, rfl⟩⟩

theorem trans (h : Steady s t) (h' : Steady t u) : Steady s u := by
  refine ⟨h.aside.trans h'.aside, fun e ↦ ?_⟩
  obtain ⟨x, hx⟩ := h.entry e
  obtain ⟨y, hy⟩ := h'.entry e
  exact ⟨y, by rw [hy, hx]⟩

theorem setDin (s : Kfs) (ip : Slot) (x : Dinode) : Steady s (s.setDin ip x) := by
  refine ⟨⟨rfl, rfl, rfl⟩, fun e ↦ ?_⟩
  by_cases he : e = ip
  · rw [he]
    exact ⟨x, setDin_inode_self x⟩
  · exact ⟨(s.inode e).din, setDin_inode_of_ne he x⟩

theorem edit (s : Kfs) (b : ℕ) (bp : Block) : Steady s (s.edit b bp) :=
  ⟨.edit s b bp, fun e ↦ ⟨(s.inode e).din, rfl⟩⟩

end Steady

/-- From `s` to `t` the blocks that were logged are in `B`. -/
def Logs (s t : Kfs) (B : Finset ℕ) : Prop :=
  Steady s t ∧ ∃ L, t.logged = L ++ s.logged ∧ ∀ b ∈ L, b ∈ B

namespace Logs

theorem refl (s : Kfs) (B : Finset ℕ) : Logs s s B :=
  ⟨.refl s, [], rfl, fun _ hb ↦ absurd hb List.not_mem_nil⟩

theorem mono {B' : Finset ℕ} (h : Logs s t B) (hB : B ⊆ B') : Logs s t B' := by
  obtain ⟨hsteady, L, hL, hmem⟩ := h
  exact ⟨hsteady, L, hL, fun b hb ↦ hB (hmem b hb)⟩

theorem trans {B' : Finset ℕ} (h : Logs s t B) (h' : Logs t u B') : Logs s u (B ∪ B') := by
  obtain ⟨hsteady, L, hL, hmem⟩ := h
  obtain ⟨hsteady', L', hL', hmem'⟩ := h'
  refine ⟨hsteady.trans hsteady', L' ++ L, by rw [hL', hL, List.append_assoc], fun b hb ↦ ?_⟩
  rcases List.mem_append.1 hb with hb | hb
  · exact mem_union_right _ (hmem' b hb)
  · exact mem_union_left _ (hmem b hb)

/-- Changes to an inode in the table do not count. -/
theorem setDin (h : Logs s t B) (ip : Slot) (x : Dinode) : Logs s (t.setDin ip x) B :=
  ⟨h.1.trans (.setDin t ip x), h.2⟩

theorem of_setDin {x : Dinode} (h : Logs (s.setDin ip x) t B) : Logs s t B :=
  ⟨(Steady.setDin s ip x).trans h.1, h.2⟩

/-- A block is changed, logged and released. -/
theorem edit (s : Kfs) (b : ℕ) (bp : Block) : Logs s (s.edit b bp) {b} :=
  ⟨.edit s b bp, [b], logged_edit, fun _ hc ↦ mem_singleton.2 (List.mem_singleton.1 hc)⟩

/-- A block is changed and released. -/
theorem release (s : Kfs) (b : ℕ) (bp : Block) :
    Logs s ((s.write b bp).record (.release b)) ∅ := by
  refine ⟨⟨⟨rfl, rfl, rfl⟩, fun e ↦ ⟨(s.inode e).din, rfl⟩⟩, [], ?_, fun _ hb ↦
    absurd hb List.not_mem_nil⟩
  rw [Kfs.logged, Kfs.record, Kfs.write]
  split_ifs <;> rfl

end Logs

theorem logs_taken : Logs s (taken sb s a) {sb.bblock a, a} :=
  (Logs.edit _ _ _).trans (.edit _ _ _)

/-! ### `bmap` -/

/-- The inode has no indirect block and `Z` is empty, or its indirect block is in `Z`. -/
structure IndIn (x : Dinode) (Z : Finset ℕ) : Prop where
  card_le : Z.card ≤ 2
  mem : x.addr ndirect ≠ 0 → (x.addr ndirect).toNat ∈ Z
  empty : x.addr ndirect = 0 → Z = ∅

/-- An inode has its indirect block, if any, in some set. -/
theorem exists_indIn (x : Dinode) : ∃ Z, IndIn x Z := by
  by_cases h : x.addr ndirect = 0
  · exact ⟨∅, by rw [card_empty]; omega, fun h' ↦ absurd h h', fun _ ↦ rfl⟩
  · exact ⟨{(x.addr ndirect).toNat}, by rw [card_singleton]; omega,
      fun _ ↦ mem_singleton_self _, fun h' ↦ absurd h' h⟩

/-- What `bmapAddr` logs: nothing, or the blocks of one allocation. -/
theorem bmapAddr_logs (sb : Superblock) (ip : Slot) (k : ℕ) (s : Kfs) :
    wpe E (bmapAddr sb ip k)
      (fun a t ↦ t = s ∧ a = ((s.inode ip).din.addr k).toNat ∨
        (s.inode ip).din.addr k = 0 ∧ Logs s t {sb.bblock a, a} ∧
          (a = 0 → t.inode = s.inode) ∧
          (a ≠ 0 → (t.inode ip).din = (s.inode ip).din.setAddr k (.ofNat 32 a)) ∧
            a < sb.size) s := by
  rw [bmapAddr, wpe_bind, wpe_inode, wpe_ite, wpe_pure]
  refine ⟨fun h0 ↦ ?_, fun _ ↦ .inl ⟨rfl, rfl⟩⟩
  rw [wpe_bind]
  refine (balloc_eq sb s).mono fun a t ht ↦ ?_
  rw [wpe_ite, wpe_pure, wpe_bind, wpe_modifyDin, wpe_pure]
  rcases ht with ⟨rfl, rfl, -⟩ | ⟨ha, -, rfl, -⟩
  · exact ⟨fun _ ↦ .inl ⟨rfl, by rw [h0]; rfl⟩, fun hne ↦ absurd rfl hne⟩
  · refine ⟨fun ha0 ↦ ?_, fun hne ↦
      .inr ⟨h0, logs_taken.setDin _ _, fun ha0 ↦ absurd ha0 hne, fun _ ↦ ?_, ha⟩⟩
    · subst ha0
      exact .inr ⟨h0, logs_taken, fun _ ↦ rfl, fun hne ↦ absurd rfl hne, ha⟩
    · rw [setDin_inode_self]
      rfl

/-- What `bmap` logs: the blocks of the allocation, if any, and the indirect block and the block of
the bitmap for it. -/
theorem bmap_logs {bn : ℕ} (hsize : sb.size ≤ 2 ^ 32) (hbn : bn < maxFile)
    (hZ : IndIn (s.inode ip).din Z) :
    wpe E (bmap sb ip bn) (fun a t ↦ ∃ B Y, Z ⊆ Y ∧ Y.card ≤ 2 ∧ Logs s t (B ∪ Y) ∧
      (insert a B).card ≤ 2 ∧ (a ≠ 0 → IndIn (t.inode ip).din Y)) s := by
  have hpair : ∀ c : ℕ, (insert c ({sb.bblock c, c} : Finset ℕ)).card ≤ 2 := fun c ↦ by
    rw [insert_eq_of_mem (by simp)]
    exact card_le_two
  rw [bmap, wpe_ite]
  refine ⟨fun hdir ↦ ?_, fun hdir ↦ ?_⟩
  · refine (bmapAddr_logs sb ip bn s).mono fun a t ht ↦ ?_
    rcases ht with ⟨rfl, rfl⟩ | ⟨h0, hlogs, hsame, hset, ha⟩
    · exact ⟨∅, Z, subset_rfl, hZ.card_le, Logs.refl t _,
        by rw [insert_empty_eq, card_singleton]; omega, fun _ ↦ hZ⟩
    · refine ⟨{sb.bblock a, a}, Z, subset_rfl, hZ.card_le,
        hlogs.mono subset_union_left, hpair a, fun hne ↦ ?_⟩
      have hind : (t.inode ip).din.addr ndirect = (s.inode ip).din.addr ndirect := by
        rw [hset hne, Dinode.addr_setAddr_of_ne _ hdir.ne']
      exact ⟨hZ.card_le, by rw [hind]; exact hZ.mem, by rw [hind]; exact hZ.empty⟩
  have hlt : bn - ndirect < nindirect := by
    rw [maxFile_eq] at hbn
    rw [ndirect_eq, nindirect_eq]
    omega
  rw [wpe_ite]
  refine ⟨fun _ ↦ ?_, fun h ↦ absurd hlt h⟩
  rw [wpe_bind]
  refine (bmapAddr_logs sb ip ndirect s).mono fun ind t ht ↦ ?_
  rw [wpe_ite, wpe_pure]
  refine ⟨fun h0 ↦ ?_, fun h0 ↦ ?_⟩
  · rcases ht with ⟨rfl, -⟩ | ⟨-, hlogs, -⟩
    · exact ⟨∅, Z, subset_rfl, hZ.card_le, Logs.refl t _,
        by rw [insert_empty_eq, card_singleton]; omega, fun h ↦ absurd rfl h⟩
    · rw [h0] at hlogs
      exact ⟨{sb.bblock 0, 0}, Z, subset_rfl, hZ.card_le,
        hlogs.mono subset_union_left, hpair 0, fun h ↦ absurd rfl h⟩
  -- the indirect block and what was logged for it
  obtain ⟨Y, hZY, hY, hYlogs, hindY⟩ : ∃ Y, Z ⊆ Y ∧ IndIn (t.inode ip).din Y ∧ Logs s t Y ∧
      ind ∈ Y := by
    rcases ht with ⟨rfl, hind⟩ | ⟨hzero, hlogs, -, hset, hsz⟩
    · refine ⟨Z, subset_rfl, hZ, Logs.refl t _, ?_⟩
      rw [hind]
      exact hZ.mem fun h ↦ h0 (by rw [hind, h]; rfl)
    · refine ⟨{sb.bblock ind, ind}, ?_, ⟨card_le_two, fun _ ↦ ?_, fun h ↦ ?_⟩, hlogs,
        by simp⟩
      · rw [hZ.empty hzero]
        exact empty_subset _
      · rw [hset h0, Dinode.addr_setAddr_self _ le_rfl, toNat_ofNat_of_lt (by omega)]
        simp
      · rw [hset h0, Dinode.addr_setAddr_self _ le_rfl] at h
        have hnat := congrArg BitVec.toNat h
        rw [toNat_ofNat_of_lt (by omega)] at hnat
        exact absurd hnat h0
  rw [wpe_bind, wpe_bread, wpe_ite, wpe_pure]
  refine ⟨fun _ ↦ ?_, fun _ ↦ ⟨∅, Y, hZY, hY.card_le,
    hYlogs.mono subset_union_right,
    by rw [insert_empty_eq, card_singleton]; omega, fun _ ↦ hY⟩⟩
  rw [wpe_bind]
  refine (balloc_eq sb t).mono fun a u hu ↦ ?_
  rw [wpe_ite, wpe_pure]
  rcases hu with ⟨rfl, rfl, -⟩ | ⟨-, -, rfl, -⟩
  · exact ⟨fun _ ↦ ⟨∅, Y, hZY, hY.card_le, hYlogs.mono subset_union_right,
      by rw [insert_empty_eq, card_singleton]; omega, fun h ↦ absurd rfl h⟩,
      fun h ↦ absurd rfl h⟩
  have htaken : Logs s (taken sb t a) ({sb.bblock a, a} ∪ Y) :=
    (hYlogs.trans logs_taken).mono (union_comm _ _).subset
  refine ⟨fun ha ↦ ?_, fun ha ↦ ?_⟩
  · subst ha
    exact ⟨_, Y, hZY, hY.card_le, htaken, hpair 0, fun h ↦ absurd rfl h⟩
  · refine ⟨{sb.bblock a, a}, Y, hZY, hY.card_le, ?_, hpair a, fun _ ↦ hY⟩
    exact (htaken.trans (.edit _ ind _)).mono
      (union_subset subset_rfl (singleton_subset_iff.2 (mem_union_right _ hindY)))

/-! ### `writei` -/

/-- The number of blocks that `len` bytes from `off` on are in. -/
def blocksIn (off len : ℕ) : ℕ := if len = 0 then 0 else (off + len - 1) / bsize - off / bsize + 1

/-- The first block, and the rest. -/
theorem blocksIn_piece {len : ℕ} (hlen : 0 < len) : blocksIn off len = 1 + blocksIn
    (off + min len (bsize - off % bsize)) (len - min len (bsize - off % bsize)) := by
  rw [blocksIn, blocksIn, if_neg (by omega), bsize_eq]
  split_ifs <;> omega

/-- A block that is there costs nothing. -/
theorem bmap_logs_of_ne_zero {bn : ℕ} (hsize : sb.size ≤ 2 ^ 32) (hbn : bn < maxFile)
    (hZ : IndIn (s.inode ip).din Z) :
    wpe E (bmap sb ip bn) (fun a t ↦ ∃ B Y, Z ⊆ Y ∧ Y.card ≤ 2 ∧ Logs s t (B ∪ Y) ∧
      (insert a B).card ≤ 2 ∧ (a ≠ 0 → IndIn (t.inode ip).din Y) ∧
      (blockAt s.disk (s.inode ip).din bn ≠ 0 → B = ∅)) s := by
  by_cases hne : blockAt s.disk (s.inode ip).din bn ≠ 0
  · refine wpe_bmap_of_ne_zero hbn hne ⟨∅, Z, subset_rfl, hZ.card_le,
      Logs.refl s _, ?_, fun _ ↦ hZ, fun _ ↦ rfl⟩
    rw [insert_empty_eq, card_singleton]
    omega
  · refine (bmap_logs hsize hbn hZ).mono fun a t ⟨B, Y, h₁, h₂, h₃, h₄, h₅⟩ ↦ ?_
    exact ⟨B, Y, h₁, h₂, h₃, h₄, h₅, fun h ↦ absurd h hne⟩

/-- **What the loop of `writei` logs.** -/
theorem writeiFrom_logs {src : Src} (hsize : sb.size ≤ 2 ^ 32) (hturns : n - tot ≤ turns)
    (htot : tot ≤ n) (hmax : off + (n - tot) ≤ maxFile * bsize) (hZ : IndIn (s.inode ip).din Z) :
    wpe E (writeiFrom sb ip turns src off n tot)
      (fun _ t ↦ ∃ B Y, Z ⊆ Y ∧ Y.card ≤ 2 ∧ Logs s t (B ∪ Y) ∧
        B.card ≤ 2 * blocksIn off (n - tot) ∧
        (tot < n → blockAt s.disk (s.inode ip).din (off / bsize) ≠ 0 →
          B.card + 1 ≤ 2 * blocksIn off (n - tot))) s := by
  induction turns generalizing s src off tot Z with
  | zero =>
    obtain rfl : tot = n := by omega
    rw [writeiFrom, wpe_ite, wpe_pure]
    exact ⟨fun h ↦ absurd h (lt_irrefl _), fun _ ↦ ⟨∅, Z, subset_rfl, hZ.card_le,
      Logs.refl s _, Nat.zero_le _, fun h ↦ absurd h (lt_irrefl _)⟩⟩
  | succ turns ih =>
    rw [writeiFrom, wpe_ite]
    refine ⟨fun hlt ↦ ?_, fun hge ↦ ⟨∅, Z, subset_rfl, hZ.card_le,
      Logs.refl s _, Nat.zero_le _, fun h ↦ absurd h hge⟩⟩
    obtain ⟨hpos, hfit, hin⟩ := piece_cases off (show 0 < n - tot by omega)
    have hblocks := @blocksIn_piece off (n - tot) (by omega)
    have hle : min (n - tot) (bsize - off % bsize) ≤ n - tot := min_le_left _ _
    have hbn : off / bsize < maxFile := Nat.div_lt_of_lt_mul (by rw [mul_comm]; omega)
    generalize min (n - tot) (bsize - off % bsize) = c at hpos hfit hin hle hblocks ⊢
    rw [wpe_bind]
    refine (bmap_logs_of_ne_zero hsize hbn hZ).mono fun a t hmapped ↦ ?_
    obtain ⟨B, Y, hZY, hY, hlogs, hB, hind, hfree⟩ := hmapped
    -- this turn
    have hcard : B.card ≤ (insert a B).card := card_le_card (subset_insert a B)
    have hone : blockAt s.disk (s.inode ip).din (off / bsize) ≠ 0 →
        (insert a B).card ≤ 1 := fun h ↦ by
      rw [hfree h, insert_empty_eq, card_singleton]
    rw [wpe_ite, wpe_pure]
    refine ⟨fun _ ↦ ⟨B, Y, hZY, hY, hlogs, by omega, fun _ h ↦ ?_⟩, fun ha ↦ ?_⟩
    · have hle1 := hone h
      omega
    rw [wpe_bind]
    refine (eitherCopyin_spec src c).mono fun p v hcopied ↦ ?_
    obtain ⟨hv, hp⟩ := hcopied
    subst hv
    obtain ⟨r, bytes⟩ := p
    replace hp : Delivered v.user src c r bytes := hp
    rw [wpe_bind, wpe_modifyBlock, wpe_ite]
    refine ⟨fun hr ↦ ?_, fun hr ↦ ?_⟩
    · rw [wpe_bind, wpe_brelse, wpe_pure]
      refine ⟨B, Y, hZY, hY, ?_, by omega, fun _ h ↦ ?_⟩
      · exact (hlogs.trans (.release _ _ _)).mono (union_empty _).subset
      · have hle1 := hone h
        omega
    · have hlen : bytes.length = c := by
        rcases hp.result with ⟨-, hlen⟩ | ⟨hr1, -⟩
        · exact hlen
        · exact absurd hr1 hr
      have hturn := Logs.edit v a (copyIn (v.disk a) (off % bsize) bytes)
      have hrec : wpe E (writeiFrom sb ip turns (src.add c) (off + c) n (tot + c)) _
          (v.edit a (copyIn (v.disk a) (off % bsize) bytes)) :=
        ih (by omega) (by omega) (by omega) (hind ha)
      refine hrec.mono fun r w hrest ↦ ?_
      obtain ⟨B', Y', hYY, hY', hlogs', hB', -⟩ := hrest
      have hsum : (insert a B ∪ B').card ≤ (insert a B).card + B'.card := card_union_le _ _
      have hrest : n - (tot + c) = n - tot - c := by omega
      rw [hrest] at hB'
      refine ⟨insert a B ∪ B', Y', hZY.trans hYY, hY', ?_, by omega, fun _ h ↦ ?_⟩
      · refine ((hlogs.trans hturn).trans hlogs').mono fun b hb ↦ ?_
        simp only [mem_union, mem_insert, mem_singleton] at hb ⊢
        rcases hb with ((hb | hb) | hb) | hb | hb
        · exact .inl (.inl (.inr hb))
        · exact .inr (hYY hb)
        · exact .inl (.inl (.inl hb))
        · exact .inl (.inr hb)
        · exact .inr hb
      · have hle1 := hone h
        omega

theorem iupdate_logs (sb : Superblock) (ip : Slot) (s : Kfs) :
    wpe E (iupdate sb ip) (fun _ t ↦ Logs s t {sb.iblock (s.inode ip).inum}) s :=
  wpe_iupdate rfl (Logs.edit _ _ _)

theorem writeiEnd_logs (sb : Superblock) (ip : Slot) (off : ℕ) (s : Kfs) :
    wpe E (writeiEnd sb ip off) (fun _ t ↦ Logs s t {sb.iblock (s.inode ip).inum}) s := by
  rw [writeiEnd, wpe_bind, wpe_inode]
  split_ifs with hgrow
  · rw [wpe_bind, wpe_modifyDin]
    refine (iupdate_logs sb ip _).mono fun _ t h ↦ ?_
    rw [setDin_inode_self] at h
    exact h.of_setDin
  · exact iupdate_logs sb ip s

/-- **What `writei` logs**, whatever it returns. -/
theorem writei_logs {src : Src} {off n : BitVec 32} (hsize : sb.size ≤ 2 ^ 32) :
    wpe E (writei sb ip src off n)
      (fun r t ↦ t = s ∧ r = -1 ∨ ∃ B, Logs s t B ∧
        B.card ≤ 2 * blocksIn off.toNat n.toNat + 3 ∧
        (0 < n.toNat → blockAt s.disk (s.inode ip).din (off.toNat / bsize) ≠ 0 →
          B.card ≤ 2 * blocksIn off.toNat n.toNat + 2)) s := by
  have hrefuse := not_fits_iff (s.inode ip).din.size off n
  rw [writei, wpe_bind, wpe_inode, wpe_ite, wpe_pure]
  refine ⟨fun _ ↦ .inl ⟨rfl, rfl⟩, fun hg ↦ ?_⟩
  rw [wpe_ite, wpe_pure]
  refine ⟨fun _ ↦ .inl ⟨rfl, rfl⟩, fun hg' ↦ ?_⟩
  have hfits : Fits (s.inode ip).din.size off n := by
    by_contra hf
    exact (hrefuse.1 hf).elim hg hg'
  obtain ⟨Z, hZ⟩ := exists_indIn (s.inode ip).din
  have hloop : wpe E (writeiFrom sb ip n.toNat src off.toNat n.toNat 0) _ s :=
    writeiFrom_logs hsize (Nat.sub_le _ _) (Nat.zero_le _) hfits.2 hZ
  rw [wpe_bind]
  refine hloop.mono fun r t hdone ↦ ?_
  obtain ⟨B, Y, -, hY, hlogs, hB, hfirst⟩ := hdone
  rw [Nat.sub_zero] at hB hfirst
  rw [wpe_bind]
  refine (writeiEnd_logs sb ip r.2 t).mono fun _ u hend ↦ ?_
  rw [wpe_pure]
  have hcard : (B ∪ Y ∪ {sb.iblock (t.inode ip).inum}).card ≤ B.card + 3 := by
    have h₁ := card_union_le (B ∪ Y) {sb.iblock (t.inode ip).inum}
    have h₂ := card_union_le B Y
    rw [card_singleton] at h₁
    omega
  refine .inr ⟨_, hlogs.trans hend, by omega, fun hn hne ↦ ?_⟩
  have hB1 := hfirst hn hne
  omega

/-! ### `filewrite` -/

/-- Every block below the size of a file is there. -/
def HoleFree (d : Disk) (x : Dinode) : Prop := ∀ k, k * bsize < x.size.toNat → blockAt d x k ≠ 0

/-- The blocks of a chunk: three, or four where it begins within a block. -/
theorem blocksIn_le (hn : n ≤ writeChunk) : blocksIn off n ≤ if off % bsize = 0 then 3 else 4 := by
  replace hn : n ≤ 3072 := hn
  rw [blocksIn, bsize_eq]
  split_ifs <;> omega

theorem writei_fits_op {src : Src} {off n : BitVec 32} (hsize : sb.size ≤ 2 ^ 32)
    (hn : n.toNat ≤ writeChunk) (hholes : HoleFree s.disk (s.inode ip).din)
    (hoff : off.toNat ≤ (s.inode ip).din.size.toNat) :
    wpe E (writei sb ip src off n) (fun _ t ↦ Steady s t ∧
      ∃ L, t.logged = L ++ s.logged ∧ L.toFinset.card ≤ maxOpBlocks) s := by
  have hblocks := @blocksIn_le n.toNat off.toNat hn
  refine (writei_logs hsize).mono fun r t ht ↦ ?_
  rcases ht with ⟨rfl, -⟩ | ⟨B, ⟨hsteady, L, hL, hmem⟩, hB, hB1⟩
  · exact ⟨.refl t, [], rfl, by decide⟩
  refine ⟨hsteady, L, hL, (card_le_card fun b hb ↦ hmem b (List.mem_toFinset.1 hb)).trans ?_⟩
  show B.card ≤ 10
  split_ifs at hblocks with halign
  · omega
  rcases Nat.eq_zero_or_pos n.toNat with h0 | hpos
  · rw [h0, blocksIn, if_pos rfl] at hB
    omega
  -- the write begins within a block, which is there
  have hthere : blockAt s.disk (s.inode ip).din (off.toNat / bsize) ≠ 0 := by
    refine hholes _ ?_
    rw [bsize_eq] at halign ⊢
    omega
  have hB1 := hB1 hpos hthere
  omega

/-- **A round of `filewrite` fits its reservation.** Whatever `writei` returns, on any disk, from
`begin_op` to `end_op` at most `MAXOPBLOCKS` blocks are passed to `log_write`. -/
theorem filewriteRound_fits_op {f : Fin nfile} {addr : ℕ} (hsize : sb.size ≤ 2 ^ 32)
    (hn : n ≤ writeChunk) (href : 1 ≤ (s.inode (s.file f).ip).ref)
    (hfree : (s.inode (s.file f).ip).locked = false)
    (htype : (s.inode (s.file f).ip).valid = true ∨ (current sb s (s.file f).ip).type ≠ 0)
    (hholes : HoleFree s.disk (current sb s (s.file f).ip))
    (hoff : (s.file f).off.toNat ≤ (current sb s (s.file f).ip).size.toNat) :
    wp (filewriteRound sb f addr n)
      (fun _ t ↦ ∃ L, t.logged = L ++ s.logged ∧ L.toFinset.card ≤ maxOpBlocks) s := by
  rw [wp_iff_wpe, filewriteRound, wpe_bind, wpe_get, wpe_bind]
  generalize (s.file f).ip = ip at href hfree htype hholes hoff ⊢
  refine wpe_ilock href hfree (.inr htype) fun _ ↦ ?_
  have hslot : (s.lock sb ip).inode ip =
      { s.inode ip with locked := true, valid := true, din := current sb s ip } :=
    setInode_inode_self _
  have hn32 : (BitVec.ofNat 32 n).toNat = n := toNat_ofNat_of_lt (hn.trans_lt (by decide))
  rw [wpe_bind, wpe_get, wpe_bind]
  refine (writei_fits_op hsize ?_ ?_ ?_).mono fun r t ⟨hsteady, hcount⟩ ↦ ?_
  · rwa [hn32]
  · rw [hslot]
    exact hholes
  · rw [hslot]
    exact hoff
  obtain ⟨x, hx⟩ := hsteady.entry ip
  have hlocked : (t.inode ip).locked = true := by rw [hx, hslot]
  have href' : 1 ≤ (t.inode ip).ref := by
    rw [hx, hslot]
    exact href
  by_cases hr : r > 0
  · rw [if_pos hr, wpe_bind, modifyFile, wpe_modify, wpe_bind]
    exact wpe_iunlock hlocked href' hcount
  · rw [if_neg hr, wpe_bind]
    exact wpe_iunlock hlocked href' hcount

theorem filewriteRound_fits_op_small :
    wp (filewriteRound smallSb 0 0 3072)
      (fun _ t ↦ ∃ L, t.logged = L ++ [] ∧ L.toFinset.card ≤ maxOpBlocks) (small onePage) := by
  have hholes : HoleFree smallDisk smallFile := by
    have hfull := sound_small.full 2 (by decide)
    rwa [dinode_small_two] at hfull
  exact filewriteRound_fits_op (f := 0) (by decide) (by decide) (by decide) rfl (.inl rfl) hholes
    (Nat.zero_le _)

end Xv6.Fs.Kernel

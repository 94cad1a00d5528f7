import Xv6.Log.Commit

/-!
# Crash atomicity of the redo log

A crash cuts the write sequence of `commit` at any point; recovery then runs, may itself be cut
any number of times, and finally completes. Two states of the disk tell the whole story:

* `Clean start f e`: the header is empty and the blocks outside the log are those of `f`;
* `Pending start lh vs f e`: the header lists `lh`, the slots hold `vs`, and the blocks outside the
  log that are *not* listed are those of `f`. Nothing is said of the listed ones, which is why a
  half-done installation is no special case.

Before the header write the disk is clean for the old contents; from the header write on it is
pending, until the header is cleared, which makes it clean for the new contents. Recovery keeps a
clean disk clean, and turns a pending disk into one that is still pending or clean for the new
contents, wherever it is cut (`Clean.recovery`, `Pending.recovery`).
-/

namespace Xv6

open Function List

/-- The writes of a `commit` that starts on disk `d` with the given cache. -/
def commitWrites (start : ℕ) (lh : List ℕ) (d : Disk) (cache : ℕ → Option Block) :
    List (ℕ × Block) :=
  (commit start lh ⟨d, cache, []⟩).writes

/-- The writes of a `recover_from_log` after booting from disk `d`. -/
def recoverWrites (start : ℕ) (d : Disk) : List (ℕ × Block) :=
  (recoverFromLog start (Store.boot d)).writes

/-- Recovery from `d` ends with `e`: some number of runs are cut after some number of their writes,
each restarting from what the previous one left, and a last run completes. -/
inductive Recovery (start : ℕ) : Disk → Disk → Prop
  | complete (d : Disk) : Recovery start d (recoverFromLog start (Store.boot d)).disk
  | crash (d e : Disk) (k : ℕ)
      (h : Recovery start (applyWrites ((recoverWrites start d).take k) d) e) :
      Recovery start d e

/-- The log is empty and the blocks outside it are those of `f`. -/
structure Clean (start : ℕ) (f e : Disk) : Prop where
  count : headerCount (e start) = 0
  outside : ∀ b, OutsideLog start b → e b = f b

/-- The transaction that writes `vs` to `lh` is committed but not known to be installed. -/
structure Pending (start : ℕ) (lh : List ℕ) (vs : List Block) (f e : Disk) : Prop where
  header : readHeader (e start) = lh
  slot : ∀ j (h : j < vs.length), e (start + j + 1) = vs[j]
  outside : ∀ b, OutsideLog start b → b ∉ lh → e b = f b

theorem not_outsideLog_start (start : ℕ) : ¬OutsideLog start start := by
  rw [OutsideLog, logBlocks_eq]
  omega

theorem headerCount_cleared (hb : Block) : headerCount (fillHeader hb []) = 0 :=
  headerCount_fillHeader hb (Nat.zero_le _)

/-! ### One run of recovery -/

/-- On a clean disk recovery writes the cleared header and nothing else. -/
theorem Clean.recover {start : ℕ} {f e : Disk} (h : Clean start f e) :
    (Store.boot e).Issues [(start, fillHeader (e start) [])]
      (recoverFromLog start (Store.boot e)) := by
  have hempty : readHead start (Store.boot e) = [] :=
    readHeader_of_count_nonpos (Int.le_of_eq h.count)
  rw [recoverFromLog, hempty]
  exact issues_writeHead start [] (Store.boot e)

/-- Clearing the header keeps a clean disk clean. -/
theorem Clean.clear {start : ℕ} {f e : Disk} (h : Clean start f e) (hb : Block) :
    Clean start f (update e start (fillHeader hb [])) where
  count := by rw [update_self, headerCount_cleared]
  outside b hb' := by
    have hne : b ≠ start := fun hbs ↦ not_outsideLog_start start (hbs ▸ hb')
    rw [update_of_ne hne, h.outside b hb']

theorem Clean.recovery {start : ℕ} {f e e' : Disk} (h : Clean start f e)
    (hr : Recovery start e e') : Clean start f e' := by
  induction hr with
  | complete d =>
    rw [(Clean.recover h).disk]
    exact h.clear _
  | crash d e' k _ ih =>
    refine ih ?_
    rw [show recoverWrites start d = [(start, fillHeader (d start) [])] from
      (Clean.recover h).writes]
    rcases k with - | k
    · exact h
    · rw [take_succ_cons, take_nil]
      exact h.clear _

section Pending

variable {start : ℕ} {lh : List ℕ} {vs : List Block} {f e : Disk}

/-- On a pending disk recovery installs every listed block and then clears the header. -/
theorem Pending.recover (h : Pending start lh vs f e) (hvs : vs.length = lh.length)
    (hlen : lh.length ≤ logBlocks) (hout : ∀ b ∈ lh, OutsideLog start b) :
    (Store.boot e).Issues (lh.zip vs ++ [(start, fillHeader (e start) [])])
      (recoverFromLog start (Store.boot e)) := by
  have hread : readHead start (Store.boot e) = lh := h.header
  have hinst : (Store.boot e).Issues (lh.zip vs)
      (installTrans start 0 lh (Store.boot e)) :=
    issues_installTrans (Store.boot e) hout (by omega) hvs h.slot
  have hhead := issues_writeHead start [] (installTrans start 0 lh (Store.boot e))
  rw [recoverFromLog, hread]
  -- installation leaves the header block alone
  have hsame : (installTrans start 0 lh (Store.boot e)).bread start = e start := by
    rw [hinst.bread, applyWrites_of_notMem, Store.bread_boot]
    intro w hw hws
    exact not_outsideLog_start start (hws ▸ hout w.1 (of_mem_zip hw).1)
  rw [hsame] at hhead
  exact hinst.trans hhead

/-- Writing only listed blocks keeps a pending disk pending. -/
theorem Pending.install (h : Pending start lh vs f e) (hvs : vs.length ≤ logBlocks)
    (hout : ∀ b ∈ lh, OutsideLog start b) {ws : List (ℕ × Block)} (hws : ∀ w ∈ ws, w.1 ∈ lh) :
    Pending start lh vs f (applyWrites ws e) where
  header := by
    rw [applyWrites_of_notMem, h.header]
    intro w hw hws'
    exact not_outsideLog_start start (hws' ▸ hout w.1 (hws w hw))
  slot j hj := by
    rw [applyWrites_of_notMem, h.slot j hj]
    intro w hw hws'
    have hw' := hout w.1 (hws w hw)
    rw [OutsideLog, logBlocks_eq] at hw'
    rw [logBlocks_eq] at hvs
    omega
  outside b hb hbl := by
    rw [applyWrites_of_notMem, h.outside b hb hbl]
    intro w hw hwb
    exact hbl (hwb ▸ hws w hw)

/-- Installing every listed block and clearing the header leaves the new contents. -/
theorem Pending.installed (h : Pending start lh vs f e) (hvs : vs.length = lh.length)
    (hnd : lh.Nodup) (hb : Block) {f' : Disk} (hf : ∀ b ∉ lh, f' b = f b)
    (hf' : ∀ j (h : j < lh.length) (h' : j < vs.length), f' lh[j] = vs[j]) :
    Clean start f' (applyWrites (lh.zip vs ++ [(start, fillHeader hb [])]) e) where
  count := by
    rw [applyWrites_append, applyWrites_cons, applyWrites_nil, update_self,
      headerCount_cleared]
  outside b hout := by
    have hne : b ≠ start := fun hbs ↦ not_outsideLog_start start (hbs ▸ hout)
    rw [applyWrites_append, applyWrites_cons, applyWrites_nil, update_of_ne hne]
    by_cases hbl : b ∈ lh
    · obtain ⟨j, hj, rfl⟩ := getElem_of_mem hbl
      have hj' : j < vs.length := by omega
      have hmem : (lh[j], vs[j]) ∈ lh.zip vs := by
        have hjz : j < (lh.zip vs).length := by rw [length_zip]; omega
        have hget := getElem_mem hjz
        rwa [getElem_zip] at hget
      have hnd' : ((lh.zip vs).map Prod.fst).Nodup := by
        rwa [map_fst_zip (by omega)]
      rw [hf' j hj hj']
      exact applyWrites_of_mem hnd' hmem e
    · rw [applyWrites_of_notMem, h.outside b hout hbl, hf b hbl]
      intro w hw hwb
      exact hbl (hwb ▸ (of_mem_zip hw).1)

/-- Recovery of a pending disk, however often it is cut, ends with the new contents. -/
theorem Pending.recovery (h : Pending start lh vs f e) (hvs : vs.length = lh.length)
    (hlen : lh.length ≤ logBlocks) (hout : ∀ b ∈ lh, OutsideLog start b) (hnd : lh.Nodup)
    {f' : Disk} (hf : ∀ b ∉ lh, f' b = f b)
    (hf' : ∀ j (h : j < lh.length) (h' : j < vs.length), f' lh[j] = vs[j])
    {e' : Disk} (hr : Recovery start e e') : Clean start f' e' := by
  induction hr with
  | complete d =>
    rw [(Pending.recover h hvs hlen hout).disk]
    exact h.installed hvs hnd _ hf hf'
  | crash d e' k hr ih =>
    rw [show recoverWrites start d = lh.zip vs ++ [(start, fillHeader (d start) [])] from
      (Pending.recover h hvs hlen hout).writes] at hr ih
    rcases Nat.lt_or_ge (lh.zip vs).length k with hk | hk
    · -- the whole run was durable: the disk is clean again
      rw [take_of_length_le (by rw [length_append, length_singleton]; omega)] at hr
      exact (h.installed hvs hnd _ hf hf').recovery hr
    · -- the header still lists the transaction
      rw [take_append_of_le_length hk] at ih
      refine ih (h.install (by omega) hout fun w hw ↦ ?_)
      exact (of_mem_zip (mem_of_mem_take hw)).1

end Pending

/-! ### The writes of a commit -/

/-- A commit with something to write: slots, header, homes, cleared header. -/
theorem commitWrites_eq {start : ℕ} {lh : List ℕ} (d : Disk) (cache : ℕ → Option Block)
    (hpos : 0 < lh.length) (hlen : lh.length ≤ logBlocks) (hout : ∀ b ∈ lh, OutsideLog start b) :
    ∃ hb hb' : Block, commitWrites start lh d cache =
      slotWrites start 0 (lh.map (Store.mk d cache []).bread) ++
        ([(start, fillHeader hb lh)] ++
          (lh.zip (lh.map (Store.mk d cache []).bread) ++ [(start, fillHeader hb' [])])) := by
  set s : Store := ⟨d, cache, []⟩ with hs
  have hlog := @issues_writeLog start 0 lh s hout (by omega)
  have hhead := issues_writeHead start lh (writeLog start 0 lh s)
  set s₁ := writeHead start lh (writeLog start 0 lh s) with hs₁
  -- the slots are what `write_log` put there: the header write does not touch them
  have hslot : ∀ j (h : j < (lh.map s.bread).length),
      s₁.bread (start + 0 + j + 1) = (lh.map s.bread)[j] := by
    intro j hj
    rw [hhead.bread, applyWrites_cons, applyWrites_nil, update_of_ne (by omega),
      hlog.bread, applyWrites_slotWrites _ hj]
  have hinst := issues_installTrans s₁ hout (by omega) (length_map _) hslot
  have hclear := issues_writeHead start [] (installTrans start 0 lh s₁)
  refine ⟨(writeLog start 0 lh s).bread start, (installTrans start 0 lh s₁).bread start, ?_⟩
  rw [commitWrites, commit, if_pos hpos]
  exact (hlog.trans (hhead.trans (hinst.trans hclear))).writes

theorem commitWrites_nil (start : ℕ) (d : Disk) (cache : ℕ → Option Block) :
    commitWrites start [] d cache = [] := rfl

/-! ### What a cut leaves behind -/

/-- The contents outside the log once the transaction is in: the listed blocks replaced by the
contents of their buffers. -/
def committed (d : Disk) (lh : List ℕ) (cache : ℕ → Option Block) : Disk :=
  fun b ↦ if b ∈ lh then (Store.mk d cache []).bread b else d b

theorem committed_of_mem {d : Disk} {lh : List ℕ} {cache : ℕ → Option Block} {b : ℕ}
    (h : b ∈ lh) : committed d lh cache b = (Store.mk d cache []).bread b :=
  if_pos h

theorem committed_of_notMem {d : Disk} {lh : List ℕ} {cache : ℕ → Option Block} {b : ℕ}
    (h : b ∉ lh) : committed d lh cache b = d b :=
  if_neg h

theorem committed_getElem {d : Disk} {lh : List ℕ} {cache : ℕ → Option Block} (j : ℕ)
    (h : j < lh.length) (h' : j < (lh.map (Store.mk d cache []).bread).length) :
    committed d lh cache lh[j] = (lh.map (Store.mk d cache []).bread)[j] := by
  rw [getElem_map]
  exact committed_of_mem (getElem_mem h)

section Cut

variable {start : ℕ} {lh : List ℕ} {d : Disk} {cache : ℕ → Option Block}

/-- A slot write touches neither the header nor a block outside the log. -/
theorem mem_slotWrites_inside {vs : List Block} (hlen : vs.length ≤ logBlocks) {w : ℕ × Block}
    (hw : w ∈ slotWrites start 0 vs) : ¬OutsideLog start w.1 ∧ w.1 ≠ start := by
  have hw' := mem_slotWrites hw
  rw [logBlocks_eq] at hlen
  rw [OutsideLog, logBlocks_eq]
  omega

/-- Before the header write only slots are written: the old contents stand. -/
theorem clean_of_cut (hclean : headerCount (d start) = 0) (hlen : lh.length ≤ logBlocks)
    (hout : ∀ b ∈ lh, OutsideLog start b) {k : ℕ} (hk : k ≤ lh.length) :
    Clean start d (applyWrites ((commitWrites start lh d cache).take k) d) := by
  rcases Nat.eq_zero_or_pos lh.length with h0 | hpos
  · obtain rfl : k = 0 := by omega
    exact ⟨hclean, fun _ _ ↦ rfl⟩
  obtain ⟨hb, hb', hws⟩ := commitWrites_eq d cache hpos hlen hout
  rw [hws, take_append_of_le_length (by simpa using hk)]
  have hin : ∀ w ∈ (slotWrites start 0 (lh.map (Store.mk d cache []).bread)).take k,
      ¬OutsideLog start w.1 ∧ w.1 ≠ start := fun w hw ↦
    mem_slotWrites_inside (by simpa using hlen) (mem_of_mem_take hw)
  refine ⟨?_, fun b hb ↦ ?_⟩
  · rw [applyWrites_of_notMem fun w hw ↦ (hin w hw).2, hclean]
  · exact applyWrites_of_notMem (fun w hw hwb ↦ (hin w hw).1 (hwb ▸ hb)) d

/-- Once the slots and the header are durable, the transaction is pending. -/
theorem pending_of_header (hlen : lh.length ≤ logBlocks) (h32 : ∀ b ∈ lh, b < 2 ^ 32)
    {vs : List Block} (hvs : vs.length = lh.length) (hb : Block) :
    Pending start lh vs d
      (applyWrites (slotWrites start 0 vs ++ [(start, fillHeader hb lh)]) d) where
  header := by
    rw [applyWrites_append, applyWrites_cons, applyWrites_nil, update_self,
      readHeader_fillHeader hb hlen h32]
  slot j hj := by
    rw [applyWrites_append, applyWrites_cons, applyWrites_nil,
      update_of_ne (by omega)]
    exact @applyWrites_slotWrites start 0 _ d j hj
  outside b hb _ := by
    have hne : b ≠ start := fun hbs ↦ not_outsideLog_start start (hbs ▸ hb)
    rw [applyWrites_append, applyWrites_cons, applyWrites_nil, update_of_ne hne]
    refine applyWrites_of_notMem (fun w hw hwb ↦ ?_) d
    exact (mem_slotWrites_inside (by omega) hw).1 (hwb ▸ hb)

/-- From the header write on, the transaction is pending or already in. -/
theorem pending_or_clean_of_cut (hlen : lh.length ≤ logBlocks) (hnd : lh.Nodup)
    (h32 : ∀ b ∈ lh, b < 2 ^ 32) (hout : ∀ b ∈ lh, OutsideLog start b) {k : ℕ}
    (hpos : 0 < lh.length) (hk : lh.length < k) :
    Pending start lh (lh.map (Store.mk d cache []).bread) d
        (applyWrites ((commitWrites start lh d cache).take k) d) ∨
      Clean start (committed d lh cache)
        (applyWrites ((commitWrites start lh d cache).take k) d) := by
  obtain ⟨hb, hb', hws⟩ := commitWrites_eq d cache hpos hlen hout
  set vs := lh.map (Store.mk d cache []).bread with hvs
  have hvslen : vs.length = lh.length := length_map _
  obtain ⟨i, rfl⟩ : ∃ i, k = (slotWrites start 0 vs ++ [(start, fillHeader hb lh)]).length + i :=
    ⟨k - (lh.length + 1), by
      rw [length_append, length_slotWrites, length_singleton]
      omega⟩
  rw [hws, ← append_assoc, take_length_add_append, applyWrites_append]
  have hpend := @pending_of_header start lh d hlen h32 vs hvslen hb
  rcases Nat.lt_or_ge (lh.zip vs).length i with hi | hi
  · -- everything was written, the cleared header included
    refine Or.inr ?_
    rw [take_of_length_le (by rw [length_append, length_singleton]; omega)]
    exact hpend.installed hvslen hnd hb' (fun _ ↦ committed_of_notMem) committed_getElem
  · refine Or.inl ?_
    rw [take_append_of_le_length hi]
    refine hpend.install (by omega) hout fun w hw ↦ ?_
    exact (of_mem_zip (mem_of_mem_take hw)).1

end Cut

/-! ### The theorem -/

/-- **Crash atomicity.** Start from a disk `d` with an empty log, cut `commit` after any number `k`
of its writes, and recover with any number of interrupted recoveries. The header ends up empty, and
the blocks outside the log are those of `d` when the cut came before the header write (the write
number `lh.length`), and otherwise those of `d` with every listed block replaced by the contents of
its buffer.

The block numbers are C `uint`s. -/
theorem commit_crash_atomic {start : ℕ} {lh : List ℕ} {d : Disk} {cache : ℕ → Option Block}
    (hclean : headerCount (d start) = 0) (hlen : lh.length ≤ logBlocks) (hnd : lh.Nodup)
    (h32 : ∀ b ∈ lh, b < 2 ^ 32) (hout : ∀ b ∈ lh, OutsideLog start b) (k : ℕ) {e : Disk}
    (hr : Recovery start (applyWrites ((commitWrites start lh d cache).take k) d) e) :
    headerCount (e start) = 0 ∧
      ∀ b, OutsideLog start b →
        e b = if k ≤ lh.length ∨ b ∉ lh then d b else (Store.mk d cache []).bread b := by
  rcases Nat.lt_or_ge lh.length k with hk | hk
  · rcases Nat.eq_zero_or_pos lh.length with h0 | hpos
    · -- an empty transaction writes nothing
      obtain rfl : lh = [] := List.length_eq_zero_iff.1 h0
      have hold : Clean start d d := ⟨hclean, fun _ _ ↦ rfl⟩
      rw [commitWrites_nil, List.take_nil, applyWrites_nil] at hr
      have h := hold.recovery hr
      exact ⟨h.count, fun b hb ↦ by rw [if_pos (Or.inr List.not_mem_nil), h.outside b hb]⟩
    have hfin : Clean start (committed d lh cache) e := by
      rcases pending_or_clean_of_cut hlen hnd h32 hout hpos hk with hp | hc
      · exact hp.recovery (List.length_map _) hlen hout hnd (fun _ ↦ committed_of_notMem)
          committed_getElem hr
      · exact hc.recovery hr
    refine ⟨hfin.count, fun b hb ↦ ?_⟩
    rw [hfin.outside b hb]
    by_cases hbl : b ∈ lh
    · rw [committed_of_mem hbl, if_neg (by rintro (h | h) <;> [omega; exact h hbl])]
    · rw [committed_of_notMem hbl, if_pos (Or.inr hbl)]
  · have h := (clean_of_cut hclean hlen hout hk).recovery hr
    exact ⟨h.count, fun b hb ↦ by rw [if_pos (Or.inl hk), h.outside b hb]⟩

/-- A transaction over two blocks cut right after its header write, with one interrupted recovery:
both blocks are replaced. -/
theorem commit_crash_atomic_two_blocks :
    ∃ e : Disk, Recovery 2 (applyWrites ((commitWrites 2 [40, 50] (fun _ ↦ 0)
        fun b ↦ some (BitVec.ofNat 8192 b)).take 3) fun _ ↦ 0) e ∧
      headerCount (e 2) = 0 ∧ e 40 = 40 ∧ e 50 = 50 ∧ e 60 = 0 := by
  have h := @commit_crash_atomic 2 [40, 50] (fun _ ↦ 0) (fun b ↦ some (BitVec.ofNat 8192 b))
    (by decide +kernel) (by decide) (by decide) (by decide) (by
      intro b hb
      rw [OutsideLog, logBlocks_eq]
      simp only [List.mem_cons, List.not_mem_nil, or_false] at hb
      omega) 3
  refine ⟨_, Recovery.crash _ _ 1 (Recovery.complete _), ?_⟩
  obtain ⟨hcount, hcontents⟩ := h (Recovery.crash _ _ 1 (Recovery.complete _))
  refine ⟨hcount, ?_, ?_, ?_⟩
  · rw [hcontents 40 (by decide)]
    decide +kernel
  · rw [hcontents 50 (by decide)]
    decide +kernel
  · rw [hcontents 60 (by decide)]
    decide +kernel

end Xv6

import Xv6.Cache.Coherence

/-!
# A commit is invisible

`commit` is itself a user of the cache: `install_trans` overwrites every block of the transaction
with the copy in the log. What it leaves is what it found there, provided that nothing changes a
block of the transaction after `write_log` has copied it. No process does: `log_write` is not
possible while a commit runs, and apart from `log.c` the kernel calls `bwrite` nowhere and leaves
the blocks of the log alone. `Disciplined` states that much of a process.

The invariant follows the copies. A pair of a home block and a log slot is `AwaitsInstall` once
`write_log` is done with it and `install_trans` is not; while it is, slot and home block agree, and
a process that holds the home block without a pending change has not changed it.
-/

namespace Xv6

open Cache CacheLog Function List Option

/-! ### The copies `commit` makes -/

theorem memmove_mem_writeLogCmds {start tail : ℕ} {lh : List ℕ} {x y : ℕ} :
    Cmd.memmove x y ∈ writeLogCmds start tail lh ↔
      ∃ k, lh[k]? = some y ∧ x = start + (tail + k) + 1 := by
  induction lh generalizing tail with
  | nil => simp [writeLogCmds]
  | cons b bs ih =>
    rw [writeLogCmds, mem_append, ih]
    constructor
    · rintro (h | ⟨k, hk, rfl⟩)
      · simp only [breadCmds, brelseCmds, mem_append, mem_cons, reduceCtorEq,
          Cmd.memmove.injEq, not_mem_nil, or_false, false_or] at h
        exact ⟨0, by rw [h.2]; rfl, by rw [h.1]; rfl⟩
      · exact ⟨k + 1, hk, by omega⟩
    · rintro ⟨k, hk, rfl⟩
      cases k with
      | zero =>
        obtain rfl := some_inj.1 hk
        exact Or.inl (by simp)
      | succ k => exact Or.inr ⟨k, hk, by omega⟩

theorem memmove_mem_installTransCmds {start tail : ℕ} {lh : List ℕ} {x y : ℕ} :
    Cmd.memmove x y ∈ installTransCmds start tail lh ↔
      ∃ k, lh[k]? = some x ∧ y = start + (tail + k) + 1 := by
  induction lh generalizing tail with
  | nil => simp [installTransCmds]
  | cons b bs ih =>
    rw [installTransCmds, mem_append, ih]
    constructor
    · rintro (h | ⟨k, hk, rfl⟩)
      · simp only [breadCmds, brelseCmds, mem_append, mem_cons, reduceCtorEq,
          Cmd.memmove.injEq, not_mem_nil, or_false, false_or] at h
        exact ⟨0, by rw [h.1]; rfl, by rw [h.2]; rfl⟩
      · exact ⟨k + 1, hk, by omega⟩
    · rintro ⟨k, hk, rfl⟩
      cases k with
      | zero =>
        obtain rfl := some_inj.1 hk
        exact Or.inl (by simp)
      | succ k => exact Or.inr ⟨k, hk, by omega⟩

theorem memmove_notMem_writeHeadCmds (start x y : ℕ) :
    Cmd.memmove x y ∉ writeHeadCmds start := by
  simp [writeHeadCmds, breadCmds, brelseCmds]

theorem memmove_mem_commitCmds {start : ℕ} {lh : List ℕ} {x y : ℕ} :
    Cmd.memmove x y ∈ commitCmds start lh ↔
      (∃ k, lh[k]? = some y ∧ x = start + k + 1) ∨ ∃ k, lh[k]? = some x ∧ y = start + k + 1 := by
  rcases lh with - | ⟨b, bs⟩
  · simp [commitCmds]
  · rw [commitCmds, if_pos (by simp)]
    simp only [mem_append, memmove_mem_writeLogCmds, memmove_mem_installTransCmds,
      memmove_notMem_writeHeadCmds, zero_add, mem_singleton, reduceCtorEq, or_false]

theorem fillHead_mem_commitCmds {start : ℕ} {lh : List ℕ} {b : ℕ}
    (h : Cmd.fillHead b ∈ commitCmds start lh) : b = start := by
  rw [commitCmds] at h
  split_ifs at h
  · simpa [notMem_loops (c := .fillHead b) rfl, writeHeadCmds, breadCmds, brelseCmds] using h
  · simp at h

/-- `c` may stand before `c'`: a block is copied to its slot before it is copied back, and the
transaction is not emptied before. -/
def CopyOrder (start : ℕ) (c c' : Cmd) : Prop :=
  ∀ d l, OutsideLog start d →
    (c = .memmove d l → c' ≠ .memmove l d) ∧ (c = .clear → c' ≠ .memmove d l)

/-- What the copies in the code of a commit look like, `lh` being the transaction. -/
structure CopyCode (start : ℕ) (lh : List ℕ) (code : List Cmd) : Prop where
  /-- A copy to a home block is the installation of a listed block from a slot. -/
  install : ∀ {d l}, .memmove d l ∈ code → OutsideLog start d →
    d ∈ lh ∧ start < l ∧ l ≤ start + logBlocks
  /-- Any other copy is of a home block. -/
  log : ∀ {l d}, .memmove l d ∈ code → ¬ OutsideLog start l → OutsideLog start d
  /-- A slot is copied to and from for one block. -/
  slot : ∀ {d d' l}, .memmove d l ∈ code → OutsideLog start d → .memmove l d' ∈ code → d' = d
  head : ∀ {b}, .fillHead b ∈ code → b = start
  order : code.Pairwise (CopyOrder start)

section CopyCode

variable {start : ℕ} {lh : List ℕ}

theorem not_outsideLog_slot (hlen : lh.length ≤ logBlocks) {k b : ℕ} (hk : lh[k]? = some b) :
    ¬ OutsideLog start (start + k + 1) := by
  have := (List.getElem?_eq_some_iff.1 hk).1
  rw [logBlocks_eq] at hlen
  rw [OutsideLog, logBlocks_eq]
  omega

theorem copyOrder_commitCmds (hout : ∀ b ∈ lh, OutsideLog start b)
    (hlen : lh.length ≤ logBlocks) : (commitCmds start lh).Pairwise (CopyOrder start) := by
  obtain ⟨clear_writeLog, clear_install⟩ := notMem_loops (c := .clear) rfl start 0 lh
  have clear_writeHead : Cmd.clear ∉ writeHeadCmds start := by
    simp [writeHeadCmds, breadCmds, brelseCmds]
  -- nothing before `clear` copies to a home block and later back, and nothing after it copies
  set last := [Cmd.clear] ++ writeHeadCmds start ++ [.finish] with hlast
  have hnocopy : ∀ c, ∀ c' ∈ last, CopyOrder start c c' := by
    have hlast : ∀ x y, Cmd.memmove x y ∉ last := by simp [hlast, memmove_notMem_writeHeadCmds]
    intro c c' hc' d l _
    constructor <;> rintro - rfl <;> exact hlast _ _ hc'
  have hlog : ∀ c ∈ writeLogCmds start 0 lh, ∀ c', CopyOrder start c c' := by
    intro c hc c' d l hd
    constructor <;> rintro rfl
    · obtain ⟨k, hk, rfl⟩ := memmove_mem_writeLogCmds.1 hc
      rw [zero_add] at hd
      exact absurd hd (not_outsideLog_slot hlen hk)
    · exact absurd hc clear_writeLog
  rw [commitCmds]
  split_ifs
  · have hcode : writeLogCmds start 0 lh ++ writeHeadCmds start ++ installTransCmds start 0 lh ++
        [.clear] ++ writeHeadCmds start ++ [.finish] =
        writeLogCmds start 0 lh ++
          (writeHeadCmds start ++ installTransCmds start 0 lh) ++ last := by
      simp [hlast]
    rw [hcode]
    refine pairwise_append.2 ⟨pairwise_append.2 ⟨?_, ?_, fun c hc c' _ ↦ hlog c hc c'⟩, ?_,
      fun c _ ↦ hnocopy c⟩
    · exact pairwise_of_forall_mem_list fun c hc c' _ ↦ hlog c hc c'
    · refine pairwise_of_forall_mem_list fun c hc c' hc' d l hd ↦ ⟨?_, ?_⟩
      · rintro rfl rfl
        rcases mem_append.1 hc with hc | hc
        · exact memmove_notMem_writeHeadCmds _ _ _ hc
        · rcases mem_append.1 hc' with hc' | hc'
          · exact memmove_notMem_writeHeadCmds _ _ _ hc'
          · obtain ⟨k, hk, rfl⟩ := memmove_mem_installTransCmds.1 hc
            obtain ⟨k', hk', -⟩ := memmove_mem_installTransCmds.1 hc'
            rw [zero_add] at hk'
            exact not_outsideLog_slot hlen hk (hout _ (mem_of_getElem? hk'))
      · rintro rfl
        rcases mem_append.1 hc with hc | hc
        · exact absurd hc clear_writeHead
        · exact absurd hc clear_install
    · exact pairwise_of_forall_mem_list fun c _ ↦ hnocopy c
  · exact pairwise_singleton _ _

theorem copyCode_commitCmds (hout : ∀ b ∈ lh, OutsideLog start b)
    (hlen : lh.length ≤ logBlocks) : CopyCode start lh (commitCmds start lh) := by
  have hhome : ∀ {k : ℕ} {b : ℕ}, lh[k]? = some b → OutsideLog start b := fun hk ↦
    hout _ (mem_of_getElem? hk)
  refine ⟨fun h ho ↦ ?_, fun h ho ↦ ?_, fun h ho h' ↦ ?_, fillHead_mem_commitCmds,
    copyOrder_commitCmds hout hlen⟩
  · rcases memmove_mem_commitCmds.1 h with ⟨k, hk, rfl⟩ | ⟨k, hk, rfl⟩
    · exact absurd ho (not_outsideLog_slot hlen hk)
    · have := (List.getElem?_eq_some_iff.1 hk).1
      exact ⟨mem_of_getElem? hk, by omega, by omega⟩
  · rcases memmove_mem_commitCmds.1 h with ⟨k, hk, rfl⟩ | ⟨k, hk, rfl⟩
    · exact hhome hk
    · exact absurd (hhome hk) ho
  · rcases memmove_mem_commitCmds.1 h with ⟨k, hk, rfl⟩ | ⟨k, hk, rfl⟩
    · exact absurd ho (not_outsideLog_slot hlen hk)
    · rcases memmove_mem_commitCmds.1 h' with ⟨k', hk', he⟩ | ⟨k', hk', -⟩
      · obtain rfl : k = k' := by omega
        exact some_inj.1 (hk'.symm.trans hk)
      · exact absurd (hhome hk') (not_outsideLog_slot hlen hk)

/-- The rest of the code after its first step, `lh'` being the transaction then. -/
theorem CopyCode.tail {cmd : Cmd} {code : List Cmd} (h : CopyCode start lh (cmd :: code))
    {lh' : List ℕ} (hlh : lh' = if cmd = .clear then [] else lh) : CopyCode start lh' code := by
  have horder := pairwise_cons.1 h.order
  refine ⟨fun hm ho ↦ ?_, fun hm ↦ h.log (mem_cons_of_mem _ hm),
    fun hm ho hm' ↦ h.slot (mem_cons_of_mem _ hm) ho (mem_cons_of_mem _ hm'),
    fun hm ↦ h.head (mem_cons_of_mem _ hm), horder.2⟩
  obtain ⟨hd, hl⟩ := h.install (mem_cons_of_mem _ hm) ho
  rw [hlh, if_neg fun hc ↦ (horder.1 _ hm _ _ ho).2 hc rfl]
  exact ⟨hd, hl⟩

end CopyCode

/-! ### The invariant -/

/-- `write_log` is done with home block `d` and its slot `l`, and `install_trans` is not. -/
structure AwaitsInstall (start : ℕ) (code : List Cmd) (d l : ℕ) : Prop where
  install : .memmove d l ∈ code
  home : OutsideLog start d
  logged : .memmove l d ∉ code

/-- The slot `l` has the contents of block `d`, in the buffer the commit holds if it does, and a
process that holds `d` and has no change pending has not changed it. -/
structure Copied (B : Disk) (c : Cache) (d l : ℕ) : Prop where
  held : ∀ i h, (c.buf i).lock = some h → h.toUse = ⟨.commit, l⟩ → h.phase ≠ .reading →
    (c.buf i).data = B d
  unheld : (∀ i h, (c.buf i).lock = some h → h.toUse = ⟨.commit, l⟩ → h.phase = .reading) →
    B l = B d
  reader : ∀ i h, (c.buf i).lock = some h → h.agent ≠ .commit → h.blockno = d →
    h.phase = .clean → (c.buf i).data = B d

/-- `B` is the array of blocks with the commits as holders, `C` without. -/
structure Transparent (start : ℕ) (B C : Disk) (s : CacheLog) : Prop where
  agree : ∀ b, OutsideLog start b → B b = C b
  /-- Processes use home blocks. -/
  waiting : ∀ w ∈ s.cache.waiting, w.1.agent ≠ .commit → OutsideLog start w.1.blockno
  holder : ∀ i h, (s.cache.buf i).lock = some h → h.agent ≠ .commit → OutsideLog start h.blockno
  listed : ∀ b ∈ s.log.lh, OutsideLog start b
  length : s.log.lh.length ≤ logBlocks
  /-- The commit has not changed the home blocks it holds. -/
  kept : ∀ i h, (s.cache.buf i).lock = some h → h.agent = .commit → h.phase ≠ .reading →
    OutsideLog start h.blockno → (s.cache.buf i).data = B h.blockno
  code : ∀ c ∈ s.commit, CopyCode start s.log.lh c.code
  copied : ∀ c ∈ s.commit, ∀ d l, AwaitsInstall start c.code d l → Copied B s.cache d l

/-- A process uses home blocks only, and does not write a block of the transaction while it is being
committed. -/
def Disciplined (start : ℕ) (s : CacheLog) : CacheEvent → Prop
  | .bget _ b _ => OutsideLog start b
  | .bwrite _ b _ => s.commit = none ∨ b ∉ s.log.lh
  | _ => True

instance (start : ℕ) (s : CacheLog) (e : CacheEvent) : Decidable (Disciplined start s e) := by
  cases e with
  | bget p b i => exact inferInstanceAs (Decidable (OutsideLog start b))
  | bwrite p b i => exact inferInstanceAs (Decidable (s.commit = none ∨ b ∉ s.log.lh))
  | _ => exact inferInstanceAs (Decidable True)

namespace Transparent

theorem init (start : ℕ) (d : Disk) : Transparent start d d (CacheLog.init d) where
  agree _ _ := rfl
  waiting _ h := absurd h not_mem_nil
  holder _ _ h := by cases h
  listed _ h := absurd h not_mem_nil
  length := Nat.zero_le _
  kept _ _ h := by cases h
  code _ h := by cases h
  copied _ h := by cases h

variable {start : ℕ} {A B B' C C' : Disk} {s t : CacheLog} {i j : Fin nbuf}

/-! ### Steps of processes -/

/-- A step of a process on buffer `i`. It may change the array in its own block only, and not when
the block awaits its installation. -/
theorem ofProcess (h : Transparent start B C s) {p b : ℕ} {c' : Cache}
    (hf : Frame ⟨.proc p, b⟩ i s.cache c') (hb : OutsideLog start b)
    (hB : ∀ x, ¬ OutsideLog start x → B' x = B x) (hBC : ∀ x, OutsideLog start x → B' x = C' x)
    (hkept : ∀ k k', (s.cache.buf k).lock = some k' → k'.agent = .commit →
      B' k'.blockno = B k'.blockno)
    (hawaits : ∀ c ∈ s.commit, ∀ d l, AwaitsInstall start c.code d l → B' d = B d)
    (hown : ∀ c ∈ s.commit, ∀ l, AwaitsInstall start c.code b l →
      (c'.buf i).lock = some ⟨⟨.proc p, b⟩, .clean⟩ → (c'.buf i).data = B b) :
    Transparent start B' C' { s with cache := c' } := by
  have hcommit : ∀ {k k'}, (c'.buf k).lock = some k' → k'.agent = .commit →
      (s.cache.buf k).lock = some k' ∧ (c'.buf k).data = (s.cache.buf k).data := by
    intro k k' hl ha
    have hne : k'.toUse ≠ ⟨.proc p, b⟩ := fun hu ↦ by
      rw [hu] at ha
      cases ha
    have hl' := (hf.lock k k' hne).1 hl
    exact ⟨hl', hf.data k k' hne hl'⟩
  refine ⟨hBC, fun w hw ha ↦ ?_, fun k k' hl ha ↦ ?_, h.listed, h.length,
    fun k k' hl ha hph ho ↦ ?_, h.code, fun c hc d l hs ↦ ?_⟩
  · rcases hf.waiting w hw with hu | hw
    · rw [hu]
      exact hb
    · exact h.waiting w hw ha
  · rcases eq_or_ne k'.toUse ⟨.proc p, b⟩ with hu | hne
    · rw [hu]
      exact hb
    · exact h.holder k k' ((hf.lock k k' hne).1 hl) ha
  · obtain ⟨hl, hd⟩ := hcommit hl ha
    rw [hd, hkept k k' hl ha]
    exact h.kept k k' hl ha hph ho
  · have hcp := h.copied c hc d l hs
    have hl : ¬ OutsideLog start l := by
      have := (h.code c hc).install hs.install hs.home
      rw [OutsideLog]
      omega
    refine ⟨fun k k' hk hu hph ↦ ?_, fun hno ↦ ?_, fun k k' hk ha hkd hph ↦ ?_⟩
    · obtain ⟨hk, hd⟩ := hcommit hk (by rw [hu])
      rw [hd, hawaits c hc d l hs]
      exact hcp.held k k' hk hu hph
    · rw [hB l hl, hawaits c hc d l hs]
      refine hcp.unheld fun k k' hk hu ↦ hno k k' ?_ hu
      exact (hf.lock k k' (by rw [hu]; simp)).2 hk
    · rw [hawaits c hc d l hs]
      rcases eq_or_ne k i with rfl | hki
      · rcases eq_or_ne k'.toUse ⟨.proc p, b⟩ with hu | hne
        · have hbd : b = d := by rw [← hkd, hu]
          subst hbd
          refine hown c hc l hs ?_
          rw [hk, ← hu, ← hph]
        · have hk := (hf.lock k k' hne).1 hk
          rw [hf.data k k' hne hk]
          exact hcp.reader k k' hk ha hkd hph
      · rw [hf.buf k hki] at hk ⊢
        exact hcp.reader k k' hk ha hkd hph

/-- The usual case: the array does not change. -/
theorem ofProcess_quiet (h : Transparent start B C s) {p b : ℕ} {c' : Cache}
    (hf : Frame ⟨.proc p, b⟩ i s.cache c') (hb : OutsideLog start b)
    (hown : ∀ c ∈ s.commit, ∀ l, AwaitsInstall start c.code b l →
      (c'.buf i).lock = some ⟨⟨.proc p, b⟩, .clean⟩ → (c'.buf i).data = B b) :
    Transparent start B C { s with cache := c' } :=
  h.ofProcess hf hb (fun _ _ ↦ rfl) h.agree (fun _ _ _ _ ↦ rfl) (fun _ _ _ _ _ ↦ rfl) hown

/-- A step that changes neither locks nor data. -/
theorem ofSame (h : Transparent start B C s) {c' : Cache}
    (hsame : ∀ k, (c'.buf k).lock = (s.cache.buf k).lock ∧
      (c'.buf k).data = (s.cache.buf k).data) (hwait : c'.waiting = s.cache.waiting) :
    Transparent start B C { s with cache := c' } := by
  refine ⟨h.agree, fun w hw ↦ h.waiting w (hwait ▸ hw), fun k k' hl ↦ ?_, h.listed, h.length,
    fun k k' hl ↦ ?_, h.code, fun c hc d l hst ↦ ?_⟩
  · rw [(hsame k).1] at hl
    exact h.holder k k' hl
  · rw [(hsame k).1] at hl
    rw [(hsame k).2]
    exact h.kept k k' hl
  · have hcp := h.copied c hc d l hst
    refine ⟨fun k k' hl ↦ ?_, fun hno ↦ hcp.unheld fun k k' hl ↦ hno k k' ?_, fun k k' hl ↦ ?_⟩
    · rw [(hsame k).1] at hl
      rw [(hsame k).2]
      exact hcp.held k k' hl
    · rw [(hsame k).1]
      exact hl
    · rw [(hsame k).1] at hl
      rw [(hsame k).2]
      exact hcp.reader k k' hl

/-- A step of a process keeps the invariant. The array with commits as holders is coherent, so a
`bread` returns the block as it is. -/
theorem processStep (h : Transparent start B C s) (hco : Coherent B s) {e : CacheEvent}
    (hcommit : ∀ i j, e ≠ .commit i j) (hd : Disciplined start s e)
    (hs : CacheLog.step start s e = some t) :
    Transparent start (applyWrites (s.leaves e).toList B)
      (applyWrites (s.processLeaves e).toList C) t := by
  have hhome : ∀ {p b ph k}, (s.cache.buf k).lock = some ⟨⟨.proc p, b⟩, ph⟩ →
      OutsideLog start b := fun {p b ph k} hl ↦ h.holder k _ hl (by simp)
  cases e with
  | commit i j => exact absurd rfl (hcommit i j)
  | bget p b i =>
    obtain ⟨-, c', hc, rfl⟩ := onCache_eq_some hs
    refine h.ofProcess_quiet (bget_frame hc) hd fun c hcm l hst hl ↦ ?_
    obtain ⟨hl', hd'⟩ := bget_own hc
    rw [hd']
    exact (h.copied c hcm b l hst).reader i _ (hl'.symm.trans hl) (by simp) rfl rfl
  | acquiresleep p b i =>
    obtain ⟨-, c', hc, rfl⟩ := onCache_eq_some hs
    obtain ⟨hw, -, hl'⟩ := acquiresleep_own hc
    refine h.ofProcess_quiet (acquiresleep_frame hc) (h.waiting _ hw (by simp))
      fun c hcm l hst hl ↦ ?_
    rw [hl'] at hl
    simp at hl
  | bread p b i =>
    obtain ⟨-, c', hc, rfl⟩ := onCache_eq_some hs
    exact h.ofProcess_quiet (bread_frame hc) (hhome (bread_own hc).1)
      fun _ _ _ _ _ ↦ (hco.cache.bread hc).2
  | modify p b i v =>
    obtain ⟨-, c', hc, rfl⟩ := onCache_eq_some hs
    obtain ⟨hu, hl', -⟩ := modify_own hc
    obtain ⟨ph, hu⟩ := hu.exists_lock
    refine h.ofProcess_quiet (modify_frame hc) (hhome hu) fun c hcm l hst hl ↦ ?_
    rw [hl'] at hl
    simp at hl
  | bwrite p b i =>
    obtain ⟨-, c', hc, rfl⟩ := onCache_eq_some hs
    obtain ⟨ph, hu⟩ := (bwrite_own hc).1.exists_lock
    refine h.ofProcess_quiet (bwrite_frame hco.cache hc) (hhome hu) fun c hcm l hst hl ↦ ?_
    -- a block that awaits its installation belongs to the transaction
    have hmem := ((h.code c hcm).install hst.install hst.home).1
    rcases hd with hd | hd
    · rw [hd] at hcm
      cases hcm
    · exact absurd hmem hd
  | logWrite p b i =>
    obtain ⟨l, pin, hl, -, -, c', hc, rfl⟩ := step_logWrite_eq_some hs
    obtain ⟨ph, hu⟩ := (logWrite_own hc).1.exists_lock
    obtain ⟨hlen, hout, hl⟩ := Log.logWrite_eq_ok hl
    -- an operation is running, so no commit is
    have hnone : ∀ c, c ∉ s.commit := fun c hcm ↦ by
      have := hco.outstanding (isSome_iff_exists.2 ⟨c, hcm⟩)
      omega
    have hquiet := h.ofProcess_quiet (logWrite_frame hc) (hhome hu)
      fun c hcm ↦ absurd hcm (hnone c)
    refine ⟨hquiet.agree, hquiet.waiting, hquiet.holder, ?_, ?_, hquiet.kept,
      fun c hcm ↦ absurd hcm (hnone c), fun c hcm ↦ absurd hcm (hnone c)⟩
    · rcases hl with ⟨-, -, rfl⟩ | ⟨-, -, rfl⟩
      · exact h.listed
      · intro x hx
        rcases mem_append.1 hx with hx | hx
        · exact h.listed x hx
        · rw [mem_singleton.1 hx]
          exact hhome hu
    · rcases hl with ⟨-, -, rfl⟩ | ⟨-, -, rfl⟩
      · exact h.length
      · rw [length_append]
        exact hlen
  | releasesleep p b i =>
    obtain ⟨-, c', hc, rfl⟩ := onCache_eq_some hs
    obtain ⟨hl, hl'⟩ := releasesleep_own hc
    have hb := hhome hl
    show Transparent start (update B b (s.cache.buf i).data)
      (update C b (s.cache.buf i).data) _
    refine h.ofProcess (releasesleep_frame hc) hb (fun x hx ↦ ?_) (fun x hx ↦ ?_)
      (fun k k' hk ha ↦ ?_) (fun c hcm d l hst ↦ ?_) (fun c hcm l hst hn ↦ ?_)
    · refine update_of_ne ?_ _ _
      rintro rfl
      exact hx hb
    · rcases eq_or_ne x b with rfl | hxb
      · rw [update_self, update_self]
      · rw [update_of_ne hxb, update_of_ne hxb]
        exact h.agree x hx
    · -- a buffer that the commit holds is the buffer of another block
      refine update_of_ne (fun hkb ↦ ?_) _ _
      have hik := hco.cache.unique (hco.cache.caches_of_lock hl)
        (show s.cache.Caches k b from hkb ▸ hco.cache.caches_of_lock hk)
      rw [← hik, hl] at hk
      rw [← some_inj.1 hk] at ha
      cases ha
    · rcases eq_or_ne d b with rfl | hdb
      · rw [update_self]
        exact (h.copied c hcm d l hst).reader i _ hl (by simp) rfl rfl
      · exact update_of_ne hdb _ _
    · rw [hl'] at hn
      cases hn
  | brelse p b i =>
    obtain ⟨-, c', hc, rfl⟩ := onCache_eq_some hs
    have hf := brelse_frame hc
    have hsame : ∀ k, (c'.buf k).lock = (s.cache.buf k).lock ∧
        (c'.buf k).data = (s.cache.buf k).data := fun k ↦ by
      rcases eq_or_ne k i with rfl | hki
      · exact brelse_own hc
      · rw [hf.buf k hki]
        exact ⟨rfl, rfl⟩
    exact h.ofSame hsame (brelse_waiting hc)
  | beginOp p =>
    rw [CacheLog.step, ite_none_right_eq_some, map_eq_some_iff] at hs
    obtain ⟨-, l, hl, rfl⟩ := hs
    obtain ⟨-, -, rfl⟩ := Log.beginOp_eq_some hl
    exact ⟨h.agree, h.waiting, h.holder, h.listed, h.length, h.kept, h.code, h.copied⟩
  | endOp p =>
    obtain ⟨l, doCommit, -, hl, rfl⟩ := step_endOp_eq_some hs
    obtain ⟨hcm, hl⟩ := Log.endOp_eq_ok hl
    have hlh : l.lh = s.log.lh := by rcases hl with ⟨-, -, rfl⟩ | ⟨-, -, rfl⟩ <;> rfl
    have hlisted : ∀ b ∈ l.lh, OutsideLog start b := by rw [hlh]; exact h.listed
    have hlength : l.lh.length ≤ logBlocks := by rw [hlh]; exact h.length
    have hcode := copyCode_commitCmds hlisted hlength
    have hnone := (hco.eq_none hcm).1
    refine ⟨h.agree, h.waiting, h.holder, hlisted, hlength, h.kept, fun c hc ↦ ?_,
      fun c hc d k hst ↦ ?_⟩
    · cases doCommit with
      | true =>
        cases hc
        exact hcode
      | false =>
        rw [if_neg (by simp), hnone] at hc
        cases hc
    · cases doCommit with
      | true =>
        -- every block has still to be copied to its slot
        cases hc
        exfalso
        refine hst.logged (memmove_mem_commitCmds.2 (Or.inl ?_))
        rcases memmove_mem_commitCmds.1 hst.install with ⟨n, hn, rfl⟩ | hk
        · exact absurd hst.home (not_outsideLog_slot hlength hn)
        · exact hk
      | false =>
        rw [if_neg (by simp), hnone] at hc
        cases hc

/-! ### Steps of the commit -/

/-- A slot that has been copied stays so when the commit makes a step on buffer `i` of block `b`. If
`b` is the slot, it is the step that decides. -/
theorem copied_ofCommit {c c' : Cache} {b d l : ℕ} (h : Copied B c d l) (hd : B' d = B d)
    (hf : Frame ⟨.commit, b⟩ i c c') (hB : ∀ x, x ≠ b → B' x = B x)
    (hheld : l = b → ∀ ph, (c'.buf i).lock = some ⟨⟨.commit, b⟩, ph⟩ → ph ≠ .reading →
      (c'.buf i).data = B d)
    (hunheld : l = b →
      (∀ k k', (c'.buf k).lock = some k' → k'.toUse = ⟨.commit, b⟩ → k'.phase = .reading) →
      B' b = B d) :
    Copied B' c' d l := by
  rw [← hd] at hheld hunheld
  refine ⟨fun k k' hl hu hph ↦ ?_, fun hno ↦ ?_, fun k k' hl ha hk hph ↦ ?_⟩
  · rcases eq_or_ne l b with rfl | hlb
    · rcases eq_or_ne k i with rfl | hki
      · exact hheld rfl k'.phase (by rw [hl, ← hu]) hph
      · rw [hf.buf k hki] at hl ⊢
        rw [hd]
        exact h.held k k' hl hu hph
    · have hne : k'.toUse ≠ ⟨.commit, b⟩ := by simpa [hu] using hlb
      have hl := (hf.lock k k' hne).1 hl
      rw [hf.data k k' hne hl, hd]
      exact h.held k k' hl hu hph
  · rcases eq_or_ne l b with rfl | hlb
    · exact hunheld rfl hno
    · rw [hB l hlb, hd]
      refine h.unheld fun k k' hl hu ↦ hno k k' ((hf.lock k k' ?_).2 hl) hu
      simpa [hu] using hlb
  · have hne : k'.toUse ≠ ⟨.commit, b⟩ := fun hu ↦ ha (by rw [hu])
    have hl := (hf.lock k k' hne).1 hl
    rw [hf.data k k' hne hl, hd]
    exact h.reader k k' hl ha hk hph

/-- The code of a commit that goes on. -/
theorem code_of_rest {p : ℕ} {code : List Cmd} (c : Committing)
    (hc : c ∈ (if code = [] then none else some ⟨p, code⟩ : Option Committing)) :
    c.code = code := by
  split_ifs at hc
  · cases hc
  · rw [← some_inj.1 hc]

/-- A step of the commit on buffer `i` of block `b`. It may change the array in the log only. -/
theorem ofCommit (h : Transparent start B C s) {p b : ℕ} {cmd : Cmd} {code : List Cmd}
    (hs : s.commit = some ⟨p, cmd :: code⟩) (hcmd : cmd ≠ .clear) {c' : Cache}
    (hf : Frame ⟨.commit, b⟩ i s.cache c') (hB : ∀ x, OutsideLog start x → B' x = B x)
    (hkept : ∀ ph, (c'.buf i).lock = some ⟨⟨.commit, b⟩, ph⟩ → ph ≠ .reading →
      OutsideLog start b → (c'.buf i).data = B b)
    (hcopied : ∀ d l, AwaitsInstall start code d l → Copied B' c' d l) :
    Transparent start B' C { s with
      cache := c'
      commit := if code = [] then none else some ⟨p, code⟩ } := by
  have hcode := @code_of_rest p code
  refine ⟨fun x hx ↦ (hB x hx).trans (h.agree x hx), fun w hw ha ↦ ?_, fun k k' hl ha ↦ ?_,
    h.listed, h.length, fun k k' hl ha hph ho ↦ ?_, fun c hc ↦ ?_, fun c hc d l hst ↦ ?_⟩
  · rcases hf.waiting w hw with hu | hw
    · exact absurd (by rw [hu]) ha
    · exact h.waiting w hw ha
  · exact h.holder k k' ((hf.lock k k' fun hu ↦ ha (by rw [hu])).1 hl) ha
  · rw [hB _ ho]
    rcases eq_or_ne k i with rfl | hki
    · rcases eq_or_ne k'.toUse ⟨.commit, b⟩ with hu | hne
      · rw [hu] at ho ⊢
        exact hkept k'.phase (by rw [hl, ← hu]) hph ho
      · have hl := (hf.lock k k' hne).1 hl
        rw [hf.data k k' hne hl]
        exact h.kept k k' hl ha hph ho
    · rw [hf.buf k hki] at hl ⊢
      exact h.kept k k' hl ha hph ho
  · rw [hcode c hc]
    exact (h.code _ hs).tail (by rw [if_neg hcmd])
  · rw [hcode c hc] at hst
    exact hcopied d l hst

theorem AwaitsInstall.of_tail {cmd : Cmd} {code : List Cmd} {d l : ℕ}
    (h : AwaitsInstall start code d l) (hcmd : cmd ≠ .memmove l d) :
    AwaitsInstall start (cmd :: code) d l :=
  ⟨mem_cons_of_mem _ h.install, h.home, fun hm ↦ (mem_cons.1 hm).elim
    (fun he ↦ hcmd he.symm) h.logged⟩

/-- A step of the commit that is neither a copy nor a change of the array. -/
theorem ofCommit_quiet (h : Transparent start B C s) {p b : ℕ} {cmd : Cmd} {code : List Cmd}
    (hs : s.commit = some ⟨p, cmd :: code⟩) (hclear : cmd ≠ .clear)
    (hcopy : ∀ x y, cmd ≠ .memmove x y) {c' : Cache} (hf : Frame ⟨.commit, b⟩ i s.cache c')
    (hkept : ∀ ph, (c'.buf i).lock = some ⟨⟨.commit, b⟩, ph⟩ → ph ≠ .reading →
      OutsideLog start b → (c'.buf i).data = B b)
    (hheld : ∀ d, AwaitsInstall start (cmd :: code) d b → Copied B s.cache d b →
      ∀ ph, (c'.buf i).lock = some ⟨⟨.commit, b⟩, ph⟩ → ph ≠ .reading → (c'.buf i).data = B d)
    (hunheld : ∀ d, Copied B s.cache d b →
      (∀ k k', (c'.buf k).lock = some k' → k'.toUse = ⟨.commit, b⟩ → k'.phase = .reading) →
      B b = B d) :
    Transparent start B C { s with
      cache := c'
      commit := if code = [] then none else some ⟨p, code⟩ } := by
  refine h.ofCommit hs hclear hf (fun _ _ ↦ rfl) hkept fun d l hst ↦ ?_
  have hst := AwaitsInstall.of_tail hst (hcopy l d)
  have hcp := h.copied _ hs d l hst
  refine copied_ofCommit hcp rfl hf (fun _ _ ↦ rfl) ?_ ?_
  · rintro rfl
    exact hheld d hst hcp
  · rintro rfl
    exact hunheld d hcp

/-- The same for a step that leaves lock and data of its buffer alone. -/
theorem ofCommit_same (h : Transparent start B C s) {p b : ℕ} {cmd : Cmd} {code : List Cmd}
    (hs : s.commit = some ⟨p, cmd :: code⟩) (hclear : cmd ≠ .clear)
    (hcopy : ∀ x y, cmd ≠ .memmove x y) {c' : Cache} (hf : Frame ⟨.commit, b⟩ i s.cache c')
    (hsame : (c'.buf i).lock = (s.cache.buf i).lock ∧ (c'.buf i).data = (s.cache.buf i).data) :
    Transparent start B C { s with
      cache := c'
      commit := if code = [] then none else some ⟨p, code⟩ } := by
  refine h.ofCommit_quiet hs hclear hcopy hf (fun ph hl hph ho ↦ ?_)
    (fun d _ hcp ph hl hph ↦ ?_) (fun d hcp hno ↦ hcp.unheld fun k k' hl hu ↦ hno k k' ?_ hu)
  · rw [hsame.1] at hl
    rw [hsame.2]
    exact h.kept i _ hl rfl hph ho
  · rw [hsame.1] at hl
    rw [hsame.2]
    exact hcp.held i _ hl rfl hph
  · rcases eq_or_ne k i with rfl | hki
    · rwa [hsame.1]
    · rwa [hf.buf k hki]

/-- `memmove` in `install_trans` overwrites a block with what it has; in `write_log` it makes the
slot agree with the block. -/
theorem memmove (h : Transparent start B C s) (hco : Coherent B s) {p dst src : ℕ}
    {code : List Cmd} (hs : s.commit = some ⟨p, .memmove dst src :: code⟩) {c' : Cache}
    (hj : s.cache.Holds ⟨.commit, src⟩ j)
    (hc : s.cache.modify ⟨.commit, dst⟩ i (s.cache.buf j).data = some c') :
    Transparent start B C { s with
      cache := c'
      commit := if code = [] then none else some ⟨p, code⟩ } := by
  have hf := modify_frame hc
  obtain ⟨hi, hl', hd'⟩ := modify_own hc
  obtain ⟨phj, hj'⟩ := hj.exists_lock
  have hjph : phj ≠ .reading := by
    rintro rfl
    rcases hj with hj | hj <;> rw [hj] at hj' <;> simp at hj'
  have hcode := h.code _ hs
  have horder := (pairwise_cons.1 hcode.order).1
  have hslot : ∀ {d l}, AwaitsInstall start code d l → ¬ OutsideLog start l := fun {d l} hst ↦ by
    have := hcode.install (mem_cons_of_mem _ hst.install) hst.home
    rw [OutsideLog]
    omega
  have cmd_ne : ∀ {d l}, l ≠ dst → Cmd.memmove dst src ≠ .memmove l d := fun hne he ↦
    hne (Cmd.memmove.inj he).1.symm
  by_cases hdst : OutsideLog start dst
  · -- the slot holds what the block has
    have hcopied : AwaitsInstall start (.memmove dst src :: code) dst src := by
      refine ⟨mem_cons_self, hdst, fun hm ↦ ?_⟩
      rcases mem_cons.1 hm with he | hm
      · have := hcode.install mem_cons_self hdst
        rw [Cmd.memmove.injEq] at he
        rw [OutsideLog] at hdst
        omega
      · exact (horder _ hm dst src hdst).1 rfl rfl
    have hdata : (c'.buf i).data = B dst := by
      rw [hd']
      exact (h.copied _ hs dst src hcopied).held j _ hj' rfl hjph
    refine h.ofCommit hs (by simp) hf (fun _ _ ↦ rfl) (fun _ _ _ _ ↦ hdata) fun d l hst ↦ ?_
    have hne : l ≠ dst := by
      rintro rfl
      exact hslot hst hdst
    have hst := AwaitsInstall.of_tail hst (cmd_ne hne)
    exact copied_ofCommit (h.copied _ hs d l hst) rfl hf (fun _ _ ↦ rfl)
      (fun he ↦ absurd he hne) (fun he ↦ absurd he hne)
  · refine h.ofCommit hs (by simp) hf (fun _ _ ↦ rfl) (fun _ _ _ ho ↦ absurd ho hdst)
      fun d l hst ↦ ?_
    rcases eq_or_ne l dst with rfl | hne
    · obtain rfl : src = d :=
        hcode.slot (mem_cons_of_mem _ hst.install) hst.home mem_cons_self
      have hdata : (c'.buf i).data = B src := by
        rw [hd']
        exact h.kept j _ hj' rfl hjph hst.home
      refine ⟨fun k k' hk hu hph ↦ ?_, fun hno ↦ ?_, fun k k' hk ha hkd hph ↦ ?_⟩
      · rcases eq_or_ne k i with rfl | hki
        · exact hdata
        · -- a block has one buffer
          rw [hf.buf k hki] at hk
          have := hco.cache.caches_of_lock hk
          rw [hu] at this
          exact absurd (hco.cache.unique this (hco.cache.caches_of_holds hi)) hki
      · exact absurd (hno i _ hl' rfl) (by simp)
      · -- the commit holds the block, so no process does
        have hk := (hf.lock k k' fun hu ↦ ha (by rw [hu])).1 hk
        have hck := hco.cache.caches_of_lock hk
        rw [hkd] at hck
        obtain rfl := hco.cache.unique hck (hco.cache.caches_of_holds hj)
        rw [hk, some_inj] at hj'
        exact absurd (by rw [hj']) ha
    · have hst := AwaitsInstall.of_tail hst (cmd_ne hne)
      exact copied_ofCommit (h.copied _ hs d l hst) rfl hf (fun _ _ ↦ rfl)
        (fun he ↦ absurd he hne) (fun he ↦ absurd he hne)

/-- `brelse` by the commit leaves home blocks as they are. -/
theorem releasesleep (h : Transparent start B C s) {p b : ℕ} {code : List Cmd}
    (hs : s.commit = some ⟨p, .releasesleep b :: code⟩) {c' : Cache}
    (hc : s.cache.releasesleep ⟨.commit, b⟩ i = some c') :
    Transparent start (update B b (s.cache.buf i).data) C { s with
      cache := c'
      commit := if code = [] then none else some ⟨p, code⟩ } := by
  obtain ⟨hl, hl'⟩ := releasesleep_own hc
  have hf := releasesleep_frame hc
  have hB : ∀ x, OutsideLog start x → update B b (s.cache.buf i).data x = B x := by
    intro x hx
    rcases eq_or_ne x b with rfl | hxb
    · rw [update_self]
      exact h.kept i _ hl rfl (by simp) hx
    · exact update_of_ne hxb _ _
  refine h.ofCommit hs (by simp) hf hB (fun ph hn ↦ ?_) fun d l hst ↦ ?_
  · rw [hl'] at hn
    cases hn
  · have hcp := h.copied _ hs d l (AwaitsInstall.of_tail hst (by simp))
    refine copied_ofCommit hcp (hB d hst.home) hf (fun x hx ↦ update_of_ne hx _ _) ?_ ?_
    · intro _ ph hn
      rw [hl'] at hn
      cases hn
    · rintro rfl -
      rw [update_self]
      exact hcp.held i _ hl rfl (by simp)

/-- A step of the commit keeps the invariant, and nothing is left by a process. -/
theorem commitStep (h : Transparent start B C s) (hco : Coherent B s)
    (hs : s.commitStep i j = some t) :
    Transparent start (applyWrites (s.leaves (.commit i j)).toList B) C t := by
  obtain ⟨p, cmd, code, r, hc, hr, rfl⟩ := commitStep_eq_some hs
  have quiet : (∀ b, cmd ≠ .releasesleep b) →
      applyWrites (s.leaves (.commit i j)).toList B = B := fun hn ↦ by
    rw [leaves_commit hc hn]
    rfl
  have hcache := hco.cache_commit hc
  cases cmd with
  | bget b =>
    obtain ⟨hr, hl⟩ := exec_map hr
    rw [quiet (by simp), hl]
    exact h.ofCommit_same hc (by simp) (by simp) (bget_frame hr) (bget_own hr)
  | acquiresleep b =>
    obtain ⟨hr, hl⟩ := exec_map hr
    rw [quiet (by simp), hl]
    obtain ⟨-, hn, hl'⟩ := acquiresleep_own hr
    have hreading : ∀ ph, (r.1.buf i).lock = some ⟨⟨.commit, b⟩, ph⟩ → ph = .reading := by
      intro ph hph
      rw [hl'] at hph
      simpa using hph.symm
    refine h.ofCommit_quiet hc (by simp) (by simp) (acquiresleep_frame hr)
      (fun ph hl hph ↦ absurd (hreading ph hl) hph)
      (fun d _ _ ph hl hph ↦ absurd (hreading ph hl) hph)
      (fun d hcp hno ↦ hcp.unheld fun k k' hl hu ↦ ?_)
    rcases eq_or_ne k i with rfl | hki
    · rw [hn] at hl
      cases hl
    · exact hno k k' (by rwa [(acquiresleep_frame hr).buf k hki]) hu
  | bread b =>
    obtain ⟨hr, hl⟩ := exec_map hr
    rw [quiet (by simp), hl]
    obtain ⟨hl₀, hl'⟩ := bread_own hr
    have hdata := (hcache.bread hr).2
    refine h.ofCommit_quiet hc (by simp) (by simp) (bread_frame hr) (fun _ _ _ _ ↦ hdata)
      (fun d _ hcp _ _ _ ↦ hdata.trans (hcp.unheld fun k k' hl hu ↦ ?_))
      (fun d hcp hno ↦ absurd (hno i _ hl' rfl) (by simp))
    -- the buffer being read is the only one of its block
    have hck := hcache.caches_of_lock hl
    rw [hu] at hck
    obtain rfl := hcache.unique hck (hcache.caches_of_lock hl₀)
    rw [hl₀, some_inj] at hl
    rw [← hl]
  | memmove dst src =>
    rw [Cmd.exec, ite_none_right_eq_some] at hr
    obtain ⟨hj, hr⟩ := hr
    obtain ⟨hr, hl⟩ := exec_map hr
    rw [quiet (by simp), hl]
    exact h.memmove hco hc hj hr
  | fillHead b =>
    obtain ⟨hr, hl⟩ := exec_map hr
    rw [quiet (by simp), hl]
    obtain ⟨-, hl', -⟩ := modify_own hr
    obtain rfl := (h.code _ hc).head mem_cons_self
    refine h.ofCommit_quiet hc (by simp) (by simp) (modify_frame hr) (fun _ _ _ ho ↦ ?_)
      (fun d hst _ _ _ _ ↦ ?_) (fun d hcp hno ↦ absurd (hno i _ hl' rfl) (by simp))
    · rw [OutsideLog] at ho
      omega
    · have := (h.code _ hc).install hst.install hst.home
      omega
  | bwrite b =>
    obtain ⟨hr, hl⟩ := exec_map hr
    rw [quiet (by simp), hl]
    obtain ⟨hu, hl', hd'⟩ := bwrite_own hr
    obtain ⟨ph, hu', hph⟩ : ∃ ph, (s.cache.buf i).lock = some ⟨⟨.commit, b⟩, ph⟩ ∧
        ph ≠ .reading := by
      rcases hu with hu | hu
      · exact ⟨_, hu, by simp⟩
      · exact ⟨_, hu, by simp⟩
    refine h.ofCommit_quiet hc (by simp) (by simp) (bwrite_frame hcache hr) (fun _ _ _ ho ↦ ?_)
      (fun d _ hcp _ _ _ ↦ ?_) (fun d hcp hno ↦ absurd (hno i _ hl' rfl) (by simp))
    · rw [hd']
      exact h.kept i _ hu' rfl hph ho
    · rw [hd']
      exact hcp.held i _ hu' rfl hph
  | bunpin b =>
    obtain ⟨hr, hl⟩ := exec_map hr
    rw [quiet (by simp), hl]
    exact h.ofCommit_same hc (by simp) (by simp) (bunpin_frame hr) (bunpin_own hr).2
  | releasesleep b =>
    obtain ⟨hr, hl⟩ := exec_map hr
    have hA : applyWrites (s.leaves (.commit i j)).toList B =
        update B b (s.cache.buf i).data := by rw [leaves, leaves?, hc]; rfl
    rw [hA, hl]
    exact h.releasesleep hc hr
  | brelse b =>
    obtain ⟨hr, hl⟩ := exec_map hr
    rw [quiet (by simp), hl]
    exact h.ofCommit_same hc (by simp) (by simp) (brelse_frame hr) (brelse_own hr)
  | clear =>
    obtain rfl := some_inj.1 hr
    rw [quiet (by simp)]
    have htail : CopyCode start s.log.clear.lh code := (h.code _ hc).tail rfl
    have hcode := @code_of_rest p code
    refine ⟨h.agree, h.waiting, h.holder, fun b hb ↦ absurd hb not_mem_nil, Nat.zero_le _,
      h.kept, fun c hc ↦ ?_, fun c hc d l hst ↦ ?_⟩
    · rw [hcode c hc]
      exact htail
    · -- nothing is left to install
      rw [hcode c hc] at hst
      exact absurd (htail.install hst.install hst.home).1 not_mem_nil
  | finish =>
    obtain rfl := some_inj.1 hr
    rw [quiet (by simp)]
    obtain ⟨rfl, -⟩ := (hco.code _ hc).eq_nil
    rw [if_pos rfl]
    refine ⟨h.agree, h.waiting, h.holder, h.listed, h.length, h.kept, ?_, ?_⟩
    · rintro c ⟨⟩
    · rintro c ⟨⟩

end Transparent

end Xv6

import Xv6.Log.Group

/-!
# Group commit is all-or-nothing for every operation

The invariant of a run `tr` has three parts. `OpsInv` ties the bookkeeping to the events: who has
begun, who has ended, which buffers are locked by whom. `LogInv` says that the in-memory header is
a list of distinct home blocks that fits the log. `Durable` is about the disk: the run splits into
`tr1 ++ tr2` where every operation that has begun in `tr1` has ended there, and the disk, read
through recovery, holds the contents after `tr1`. The split moves at one event only, the write of
the non-empty header, and at that moment no operation is in progress.
-/

namespace Xv6

open Function List Option

variable {start : ℕ} {d₀ : Disk} {tr : List GroupEvent} {s t : GroupState}

/-- The contents of the blocks after the buffer updates of a run. -/
def contents (d₀ : Disk) (tr : List GroupEvent) : Disk :=
  applyWrites (allModifications tr) d₀

theorem contents_append (d₀ : Disk) (tr : List GroupEvent) (a : GroupEvent) :
    contents d₀ (tr ++ [a]) = applyWrites (allModifications [a]) (contents d₀ tr) := by
  rw [contents, allModifications_append, applyWrites_append, contents]

/-- An event other than an update leaves the contents alone. -/
theorem contents_append_of_update?_none {a : GroupEvent} (h : a.update? = none) :
    contents d₀ (tr ++ [a]) = contents d₀ tr := by
  rw [contents_append, allModifications, filterMap_cons_none h, filterMap_nil,
    applyWrites_nil]

/-! ### The invariant -/

/-- The lists of operations agree with the events. -/
structure TraceInv (tr : List GroupEvent) (begun active : List ℕ) : Prop where
  mem_begun : ∀ i, i ∈ begun ↔ .beginOp i ∈ tr
  once : ∀ i l1 l2, tr = l1 ++ l2 → .beginOp i ∈ l1 → .beginOp i ∉ l2
  mem_active : ∀ i, i ∈ active ↔ .beginOp i ∈ tr ∧ .endOp i ∉ tr
  nodup : active.Nodup
  modify : ∀ i b v, .modify i b v ∈ tr → .beginOp i ∈ tr
  endOp : ∀ i, .endOp i ∈ tr → .beginOp i ∈ tr

/-- The counters, the locks and the progress of the commit agree with the operations. -/
structure OpsInv (start : ℕ) (s : GroupState) : Prop where
  outstanding : s.log.outstanding = s.active.length
  locks : ∀ h ∈ s.locks, h.op ∈ s.active ∧ OutsideLog start h.blockno ∧ h.blockno < 2 ^ 32
  locksNodup : (s.locks.map Held.blockno).Nodup
  committing : s.log.committing = s.pc.isSome
  idle : s.pc.isSome → s.active = []

/-- The in-memory header lists distinct home blocks, no more than the log holds. -/
structure LogInv (start : ℕ) (l : Log) : Prop where
  nodup : l.lh.Nodup
  length : l.lh.length ≤ logBlocks
  home : ∀ b ∈ l.lh, OutsideLog start b ∧ b < 2 ^ 32

/-- A block that differs from the committed contents is listed, or locked and not yet logged. -/
def Settled (start : ℕ) (base cur : Disk) (s : GroupState) : Prop :=
  ∀ b, OutsideLog start b → b ∉ s.log.lh →
    (∀ h ∈ s.locks, h.blockno = b → h.dirty = false) → base b = cur b

/-- What the disk holds, by the progress of the commit: `base` is what recovery would produce,
`cur` what the buffers hold. -/
inductive Phase (start : ℕ) (base cur : Disk) (s : GroupState) : Prop
  | idle (hpc : s.pc = none) (clean : Clean start base s.disk)
      (settled : Settled start base cur s)
  | writing (tail : ℕ) (hpc : s.pc = some (.writeLog tail)) (clean : Clean start base s.disk)
      (settled : Settled start base cur s) (hle : tail ≤ s.log.lh.length)
      (slots : ∀ j < tail, ∀ h : j < s.log.lh.length, s.disk (start + j + 1) = cur s.log.lh[j])
  | installing (tail : ℕ) (hpc : s.pc = some (.installTrans tail)) (same : base = cur)
      (pending : Pending start s.log.lh (s.log.lh.map cur) cur s.disk)
      (hle : tail ≤ s.log.lh.length)
      (homes : ∀ j < tail, ∀ h : j < s.log.lh.length, s.disk s.log.lh[j] = cur s.log.lh[j])
  | finishing (hpc : s.pc = some .finish) (clean : Clean start base s.disk)
      (settled : Settled start base cur s) (empty : s.log.lh = [])

/-- The committed part of the run, and the disk that goes with it. -/
structure Durable (start : ℕ) (d₀ : Disk) (tr tr1 tr2 : List GroupEvent) (s : GroupState) :
    Prop where
  split : tr = tr1 ++ tr2
  closed : ∀ i, .beginOp i ∈ tr1 ↔ .endOp i ∈ tr1
  foreign : ∀ i b v, .modify i b v ∈ tr2 → .beginOp i ∉ tr1
  modify : ∀ i b v, .modify i b v ∈ tr1 → .beginOp i ∈ tr1
  phase : Phase start (contents d₀ tr1) (contents d₀ tr) s

/-- The invariant of a run. -/
structure GroupInv (start : ℕ) (d₀ : Disk) (tr : List GroupEvent) (s : GroupState) : Prop where
  trace : TraceInv tr s.begun s.active
  ops : OpsInv start s
  log : LogInv start s.log
  buf : ∀ b, OutsideLog start b → s.buf b = contents d₀ tr b
  durable : ∃ tr1 tr2, Durable start d₀ tr tr1 tr2 s

theorem OpsInv.locks_eq_nil (h : OpsInv start s) (ha : s.active = []) : s.locks = [] := by
  refine eq_nil_iff_forall_not_mem.2 fun l hl ↦ ?_
  have := (h.locks l hl).1
  rw [ha] at this
  exact not_mem_nil this

/-- While an operation is in progress no commit is running. -/
theorem OpsInv.pc_eq_none (h : OpsInv start s) {i : ℕ} (hi : i ∈ s.active) : s.pc = none := by
  cases hpc : s.pc with
  | none => rfl
  | some pc =>
    have ha := h.idle (by rw [hpc]; rfl)
    rw [ha] at hi
    exact absurd hi not_mem_nil

theorem Phase.of_pc_eq_none {base cur : Disk} (h : Phase start base cur s) (hpc : s.pc = none) :
    Clean start base s.disk ∧ Settled start base cur s := by
  cases h with
  | idle _ clean settled => exact ⟨clean, settled⟩
  | writing _ h => exact absurd (hpc.symm.trans h) (by simp)
  | installing _ h => exact absurd (hpc.symm.trans h) (by simp)
  | finishing h => exact absurd (hpc.symm.trans h) (by simp)

theorem GroupInv.init (h : headerCount (d₀ start) = 0) :
    GroupInv start d₀ [] (GroupState.init d₀) where
  trace :=
    { mem_begun := fun i ↦ by simp [GroupState.init]
      once := fun i l1 l2 h _ ↦ by
        obtain ⟨-, rfl⟩ := append_eq_nil_iff.1 h.symm
        exact not_mem_nil
      mem_active := fun i ↦ by simp [GroupState.init]
      nodup := nodup_nil
      modify := fun i b v h ↦ absurd h not_mem_nil
      endOp := fun i h ↦ absurd h not_mem_nil }
  ops :=
    { outstanding := rfl
      locks := fun h hh ↦ absurd hh not_mem_nil
      locksNodup := nodup_nil
      committing := rfl
      idle := fun _ ↦ rfl }
  log := ⟨nodup_nil, Nat.zero_le _, fun b hb ↦ absurd hb not_mem_nil⟩
  buf _ _ := rfl
  durable := by
    refine ⟨[], [], rfl, fun i ↦ by simp,
      fun i b v h ↦ absurd h not_mem_nil, fun i b v h ↦ absurd h not_mem_nil, ?_⟩
    exact Phase.idle rfl ⟨h, fun _ _ ↦ rfl⟩ fun _ _ _ _ ↦ rfl

/-! ### The events -/

/-- Splitting a run that has just been extended: the new event is the last of the second part,
unless that part is empty. -/
theorem append_singleton_eq_append {a : GroupEvent} {l1 l2 : List GroupEvent}
    (h : tr ++ [a] = l1 ++ l2) : l2 = [] ∨ ∃ l2', l2 = l2' ++ [a] ∧ tr = l1 ++ l2' := by
  rcases eq_nil_or_concat l2 with rfl | ⟨l2', c, rfl⟩
  · exact Or.inl rfl
  · rw [concat_eq_append, ← append_assoc] at h
    obtain ⟨htr, hac⟩ := append_inj' h rfl
    rw [concat_eq_append, singleton_inj.1 hac]
    exact Or.inr ⟨l2', rfl, htr⟩

namespace TraceInv

variable {begun active : List ℕ}

/-- An event that neither begins nor ends an operation. -/
theorem other (h : TraceInv tr begun active) {a : GroupEvent} (hb : ∀ i, a ≠ .beginOp i)
    (he : ∀ i, a ≠ .endOp i) (hm : ∀ i b v, a = .modify i b v → i ∈ active) :
    TraceInv (tr ++ [a]) begun active := by
  have hb' : ∀ i, .beginOp i ∈ tr ++ [a] ↔ .beginOp i ∈ tr := fun i ↦ by
    simp [Ne.symm (hb i)]
  have he' : ∀ i, .endOp i ∈ tr ++ [a] ↔ .endOp i ∈ tr := fun i ↦ by
    simp [Ne.symm (he i)]
  refine ⟨fun i ↦ by rw [hb', h.mem_begun], fun i l1 l2 hl h1 h2 ↦ ?_,
    fun i ↦ by rw [hb', he', h.mem_active], h.nodup, fun i b v hmem ↦ ?_,
    fun i hi ↦ by rw [hb']; exact h.endOp i ((he' i).1 hi)⟩
  · rcases append_singleton_eq_append hl with rfl | ⟨l2', rfl, htr⟩
    · exact not_mem_nil h2
    · rcases mem_append.1 h2 with h2 | h2
      · exact h.once i l1 l2' htr h1 h2
      · exact hb i (mem_singleton.1 h2).symm
  · rw [hb']
    rcases mem_append.1 hmem with hmem | hmem
    · exact h.modify i b v hmem
    · exact ((h.mem_active i).1 (hm i b v (mem_singleton.1 hmem).symm)).1

theorem beginOp (h : TraceInv tr begun active) {i : ℕ} (hi : i ∉ begun) :
    TraceInv (tr ++ [.beginOp i]) (i :: begun) (i :: active) := by
  have hnew : .beginOp i ∉ tr := fun hmem ↦ hi ((h.mem_begun i).2 hmem)
  refine ⟨fun j ↦ ?_, fun j l1 l2 hl h1 h2 ↦ ?_, fun j ↦ ?_, ?_, fun j b v hmem ↦ ?_,
    fun j hmem ↦ ?_⟩
  · rw [mem_cons, h.mem_begun, mem_append, mem_singleton, GroupEvent.beginOp.injEq,
      or_comm]
  · rcases append_singleton_eq_append hl with rfl | ⟨l2', rfl, htr⟩
    · exact not_mem_nil h2
    · rcases mem_append.1 h2 with h2 | h2
      · exact h.once j l1 l2' htr h1 h2
      · rw [mem_singleton, GroupEvent.beginOp.injEq] at h2
        exact hnew (by rw [htr, ← h2]; exact mem_append_left _ h1)
  · have hend : .endOp j ∈ tr ++ [.beginOp i] ↔ .endOp j ∈ tr := by simp
    rw [mem_cons, h.mem_active, hend, mem_append, mem_singleton,
      GroupEvent.beginOp.injEq]
    constructor
    · rintro (rfl | ⟨h1, h2⟩)
      · exact ⟨Or.inr rfl, fun hmem ↦ hnew (h.endOp j hmem)⟩
      · exact ⟨Or.inl h1, h2⟩
    · rintro ⟨h1 | rfl, h2⟩
      · exact Or.inr ⟨h1, h2⟩
      · exact Or.inl rfl
  · refine nodup_cons.2 ⟨fun hmem ↦ hnew ((h.mem_active i).1 hmem).1, h.nodup⟩
  · have hmem' : .modify j b v ∈ tr := by simpa using hmem
    exact mem_append_left _ (h.modify j b v hmem')
  · have hmem' : .endOp j ∈ tr := by simpa using hmem
    exact mem_append_left _ (h.endOp j hmem')

theorem endOp_event (h : TraceInv tr begun active) {i : ℕ} (hi : i ∈ active) :
    TraceInv (tr ++ [.endOp i]) begun (active.erase i) := by
  have hb' : ∀ j, .beginOp j ∈ tr ++ [.endOp i] ↔ .beginOp j ∈ tr := fun j ↦ by simp
  refine ⟨fun j ↦ by rw [hb', h.mem_begun], fun j l1 l2 hl h1 h2 ↦ ?_, fun j ↦ ?_,
    h.nodup.erase i, fun j b v hmem ↦ ?_, fun j hmem ↦ ?_⟩
  · rcases append_singleton_eq_append hl with rfl | ⟨l2', rfl, htr⟩
    · exact not_mem_nil h2
    · rw [mem_append, mem_singleton] at h2
      exact h.once j l1 l2' htr h1 (h2.resolve_right (by simp))
  · rw [h.nodup.mem_erase_iff, h.mem_active, hb', mem_append, mem_singleton,
      GroupEvent.endOp.injEq]
    tauto
  · rw [hb']
    have hmem' : .modify j b v ∈ tr := by simpa using hmem
    exact h.modify j b v hmem'
  · rw [hb']
    rw [mem_append, mem_singleton, GroupEvent.endOp.injEq] at hmem
    rcases hmem with hmem | rfl
    · exact h.endOp j hmem
    · exact ((h.mem_active j).1 hi).1

end TraceInv

/-- The durable part of the run does not move with an event that leaves the disk's phase as it
was. -/
theorem Durable.extend {tr1 tr2 : List GroupEvent} (h : Durable start d₀ tr tr1 tr2 s)
    {a : GroupEvent} (hm : ∀ i b v, a = .modify i b v → .beginOp i ∉ tr1)
    (hp : Phase start (contents d₀ tr1) (contents d₀ (tr ++ [a])) t) :
    Durable start d₀ (tr ++ [a]) tr1 (tr2 ++ [a]) t where
  split := by rw [h.split, append_assoc]
  closed := h.closed
  foreign i b v hmem := by
    rcases mem_append.1 hmem with hmem | hmem
    · exact h.foreign i b v hmem
    · exact hm i b v (mem_singleton.1 hmem).symm
  modify := h.modify
  phase := hp

/-- An event that is no update moves neither the contents nor the durable part of the run. -/
theorem Durable.quiet {tr1 tr2 : List GroupEvent} (h : Durable start d₀ tr tr1 tr2 s)
    {a : GroupEvent} (ha : a.update? = none) (htrace : TraceInv (tr ++ [a]) t.begun t.active)
    (hops : OpsInv start t) (hlog : LogInv start t.log)
    (hbuf : ∀ b, OutsideLog start b → t.buf b = contents d₀ tr b)
    (hp : Phase start (contents d₀ tr1) (contents d₀ tr) t) : GroupInv start d₀ (tr ++ [a]) t := by
  have hcont : contents d₀ (tr ++ [a]) = contents d₀ tr := contents_append_of_update?_none ha
  refine ⟨htrace, hops, hlog, by rwa [hcont], tr1, tr2 ++ [a], h.extend ?_ (by rwa [hcont])⟩
  rintro i b v rfl
  cases ha

/-! ### Steps between `begin_op` and `end_op` -/

theorem mem_setDirty {b : ℕ} {c : Bool} {locks : List Held} {h : Held}
    (hh : h ∈ GroupState.setDirty b c locks) :
    ∃ h' ∈ locks, h.blockno = h'.blockno ∧ h.op = h'.op ∧
      h.dirty = if h'.blockno = b then c else h'.dirty := by
  obtain ⟨h', hh', rfl⟩ := mem_map.1 hh
  refine ⟨h', hh', ?_⟩
  split_ifs <;> exact ⟨rfl, rfl, rfl⟩

theorem exists_mem_setDirty {b : ℕ} {c : Bool} {locks : List Held} {h : Held} (hh : h ∈ locks) :
    ∃ h' ∈ GroupState.setDirty b c locks, h'.blockno = h.blockno ∧ h'.op = h.op ∧
      h'.dirty = if h.blockno = b then c else h.dirty := by
  refine ⟨_, mem_map_of_mem hh, ?_⟩
  split_ifs <;> exact ⟨rfl, rfl, rfl⟩

theorem map_blockno_setDirty (b : ℕ) (c : Bool) (locks : List Held) :
    (GroupState.setDirty b c locks).map Held.blockno = locks.map Held.blockno := by
  rw [GroupState.setDirty, List.map_map]
  refine map_congr_left fun h _ ↦ ?_
  rw [Function.comp_apply]
  split_ifs <;> rfl

/-- Marking a buffer keeps the bookkeeping. -/
theorem OpsInv.locks_setDirty (h : OpsInv start s) (b : ℕ) (c : Bool) :
    ∀ l ∈ GroupState.setDirty b c s.locks,
      l.op ∈ s.active ∧ OutsideLog start l.blockno ∧ l.blockno < 2 ^ 32 := by
  intro l hl
  obtain ⟨l', hl', hb, ho, -⟩ := mem_setDirty hl
  rw [hb, ho]
  exact h.locks l' hl'

theorem GroupInv.beginOp (h : GroupInv start d₀ tr s) {i : ℕ}
    (hs : s.step start (.beginOp i) = some t) : GroupInv start d₀ (tr ++ [.beginOp i]) t := by
  rw [GroupState.step] at hs
  split_ifs at hs with hi
  obtain ⟨l, hl, rfl⟩ := map_eq_some_iff.1 hs
  obtain ⟨hc, -, rfl⟩ := Log.beginOp_eq_some hl
  have hpc : s.pc = none := by
    rw [← not_isSome_iff_eq_none, ← h.ops.committing, hc]
    exact Bool.false_ne_true
  obtain ⟨tr1, tr2, hd⟩ := h.durable
  obtain ⟨hclean, hset⟩ := hd.phase.of_pc_eq_none hpc
  refine hd.quiet rfl (h.trace.beginOp hi) ⟨?_, ?_, h.ops.locksNodup, h.ops.committing, ?_⟩
    ⟨h.log.nodup, h.log.length, h.log.home⟩ h.buf (.idle hpc hclean hset)
  · exact congrArg (· + 1) h.ops.outstanding
  · exact fun l hl ↦ ⟨mem_cons_of_mem _ (h.ops.locks l hl).1, (h.ops.locks l hl).2⟩
  · intro hsome
    rw [hpc] at hsome
    exact absurd hsome Bool.false_ne_true

theorem GroupInv.bread (h : GroupInv start d₀ tr s) {i b : ℕ}
    (hs : s.step start (.bread i b) = some t) : GroupInv start d₀ (tr ++ [.bread i b]) t := by
  rw [GroupState.step] at hs
  split_ifs at hs with hg
  obtain ⟨hi, hout, h32, hfree⟩ := hg
  obtain rfl := some_inj.1 hs
  obtain ⟨tr1, tr2, hd⟩ := h.durable
  obtain ⟨hclean, hset⟩ := hd.phase.of_pc_eq_none (h.ops.pc_eq_none hi)
  refine hd.quiet rfl (h.trace.other (by simp) (by simp) (by simp))
    ⟨h.ops.outstanding, ?_, ?_, h.ops.committing, h.ops.idle⟩ h.log h.buf
    (.idle (h.ops.pc_eq_none hi) hclean fun c hc hlh hl ↦
      hset c hc hlh fun l hmem ↦ hl l (mem_cons_of_mem _ hmem))
  · rintro l hl
    rcases mem_cons.1 hl with rfl | hl
    · exact ⟨hi, hout, h32⟩
    · exact h.ops.locks l hl
  · rw [map_cons, nodup_cons]
    refine ⟨fun hmem ↦ ?_, h.ops.locksNodup⟩
    obtain ⟨l, hl, hlb⟩ := mem_map.1 hmem
    exact hfree l hl hlb

theorem GroupInv.modify (h : GroupInv start d₀ tr s) {i b : ℕ} {v : Block}
    (hs : s.step start (.modify i b v) = some t) :
    GroupInv start d₀ (tr ++ [.modify i b v]) t := by
  rw [GroupState.step] at hs
  split_ifs at hs with hg
  obtain ⟨k, hk, rfl, rfl⟩ := hg
  obtain rfl := some_inj.1 hs
  have hact := (h.ops.locks k hk).1
  have hcont : contents d₀ (tr ++ [.modify k.op k.blockno v]) =
      update (contents d₀ tr) k.blockno v := contents_append _ _ _
  obtain ⟨tr1, tr2, hd⟩ := h.durable
  -- the operation is in progress, so it has not begun in the closed part of the run
  have hforeign : .beginOp k.op ∉ tr1 := fun hmem ↦ ((h.trace.mem_active k.op).1 hact).2 (by
    rw [hd.split]
    exact mem_append_left _ ((hd.closed k.op).1 hmem))
  refine ⟨h.trace.other (by simp) (by simp) ?_,
    ⟨h.ops.outstanding, h.ops.locks_setDirty _ _, ?_, h.ops.committing, h.ops.idle⟩, h.log, ?_,
    tr1, tr2 ++ [.modify k.op k.blockno v], hd.extend ?_ ?_⟩
  · rintro j b w hj
    injection hj with hj
    exact hj ▸ hact
  · rw [map_blockno_setDirty]
    exact h.ops.locksNodup
  · intro c hc
    rw [hcont]
    show update s.buf k.blockno v c = _
    by_cases hcb : c = k.blockno
    · subst hcb
      rw [update_self, update_self]
    · rw [update_of_ne hcb, update_of_ne hcb, h.buf c hc]
  · rintro j b w hj
    injection hj with hj
    exact hj ▸ hforeign
  · obtain ⟨hclean, hset⟩ := hd.phase.of_pc_eq_none (h.ops.pc_eq_none hact)
    refine Phase.idle (h.ops.pc_eq_none hact) hclean fun c hc hlh hl ↦ ?_
    by_cases hcb : c = k.blockno
    · -- the buffer is dirty now
      obtain ⟨k', hk', hb, -, hdirty⟩ := @exists_mem_setDirty k.blockno true _ _ hk
      rw [if_pos rfl] at hdirty
      have := hl k' hk' (by rw [hb, hcb])
      rw [hdirty] at this
      exact absurd this (by simp)
    · rw [hcont, update_of_ne hcb]
      refine hset c hc hlh fun l hlmem hlc ↦ ?_
      obtain ⟨l', hl', hb, -, hdirty⟩ := @exists_mem_setDirty k.blockno true _ _ hlmem
      rw [if_neg (by rw [hlc]; exact hcb)] at hdirty
      rw [← hdirty]
      exact hl l' hl' (by rw [hb, hlc])

theorem GroupInv.logWrite (h : GroupInv start d₀ tr s) {i b : ℕ}
    (hs : s.step start (.logWrite i b) = some t) :
    GroupInv start d₀ (tr ++ [.logWrite i b]) t := by
  rw [GroupState.step] at hs
  split_ifs at hs with hg
  obtain ⟨k, hk, rfl, rfl⟩ := hg
  split at hs
  case h_2 => exact absurd hs (by simp)
  case h_1 l p hl =>
    obtain rfl := some_inj.1 hs
    obtain ⟨hact, hhome⟩ := h.ops.locks k hk
    -- the list grows by this block or has it already; nothing else of the log changes
    obtain ⟨hlog, hmem, hsub, hout, hcomm⟩ : LogInv start l ∧ k.blockno ∈ l.lh ∧
        (∀ c ∈ s.log.lh, c ∈ l.lh) ∧ l.outstanding = s.log.outstanding ∧
        l.committing = s.log.committing := by
      obtain ⟨hlt, -, ⟨-, hb, rfl⟩ | ⟨-, hb, rfl⟩⟩ := Log.logWrite_eq_ok hl
      · exact ⟨h.log, hb, fun c hc ↦ hc, rfl, rfl⟩
      · refine ⟨⟨?_, ?_, ?_⟩, mem_append_right _ (mem_singleton_self _),
          fun c hc ↦ mem_append_left _ hc, rfl, rfl⟩
        · refine h.log.nodup.append (nodup_singleton _) ?_
          intro c hc hc'
          exact hb (mem_singleton.1 hc' ▸ hc)
        · rw [length_append, length_singleton]
          exact hlt
        · intro c hc
          rcases mem_append.1 hc with hc | hc
          · exact h.log.home c hc
          · rw [mem_singleton.1 hc]
            exact hhome
    obtain ⟨tr1, tr2, hd⟩ := h.durable
    obtain ⟨hclean, hset⟩ := hd.phase.of_pc_eq_none (h.ops.pc_eq_none hact)
    refine hd.quiet rfl (h.trace.other (by simp) (by simp) (by simp))
      ⟨hout.trans h.ops.outstanding, h.ops.locks_setDirty _ _, ?_, hcomm.trans h.ops.committing,
        h.ops.idle⟩ hlog h.buf (.idle (h.ops.pc_eq_none hact) hclean fun c hc hlh hl' ↦ ?_)
    · rw [map_blockno_setDirty]
      exact h.ops.locksNodup
    · have hcb : c ≠ k.blockno := fun hcb ↦ hlh (hcb ▸ hmem)
      refine hset c hc (fun hc' ↦ hlh (hsub c hc')) fun l' hlmem hlc ↦ ?_
      obtain ⟨m, hm, hb, -, hdirty⟩ := @exists_mem_setDirty k.blockno false _ _ hlmem
      rw [if_neg (by rw [hlc]; exact hcb)] at hdirty
      rw [← hdirty]
      exact hl' m hm (by rw [hb, hlc])

theorem GroupInv.brelse (h : GroupInv start d₀ tr s) {i b : ℕ}
    (hs : s.step start (.brelse i b) = some t) : GroupInv start d₀ (tr ++ [.brelse i b]) t := by
  rw [GroupState.step] at hs
  split_ifs at hs with hg
  obtain ⟨k, hk, rfl, rfl, hkd⟩ := hg
  obtain rfl := some_inj.1 hs
  have hact := (h.ops.locks k hk).1
  obtain ⟨tr1, tr2, hd⟩ := h.durable
  obtain ⟨hclean, hset⟩ := hd.phase.of_pc_eq_none (h.ops.pc_eq_none hact)
  refine hd.quiet rfl (h.trace.other (by simp) (by simp) (by simp))
    ⟨h.ops.outstanding, fun l hl ↦ h.ops.locks l (mem_of_mem_filter hl),
      h.ops.locksNodup.sublist (filter_sublist.map _), h.ops.committing, h.ops.idle⟩ h.log
    h.buf
    (.idle (h.ops.pc_eq_none hact) hclean fun c hc hlh hl ↦ hset c hc hlh fun l hlmem hlc ↦ ?_)
  by_cases hcb : c = k.blockno
  · -- the released buffer was clean, and it is the only one of its block
    have hlk : l = k := inj_on_of_nodup_map h.ops.locksNodup hlmem hk (hlc.trans hcb)
    rw [hlk, hkd]
  · refine hl l (mem_filter.2 ⟨hlmem, ?_⟩) hlc
    rw [hlc]
    exact decide_eq_true hcb

theorem GroupInv.endOp (h : GroupInv start d₀ tr s) {i : ℕ}
    (hs : s.step start (.endOp i) = some t) : GroupInv start d₀ (tr ++ [.endOp i]) t := by
  rw [GroupState.step] at hs
  split_ifs at hs with hg
  obtain ⟨hi, hfree⟩ := hg
  split at hs
  case h_2 => exact absurd hs (by simp)
  case h_1 l c hl =>
    obtain rfl := some_inj.1 hs
    have hpc := h.ops.pc_eq_none hi
    have hlen : (s.active.erase i).length = s.log.outstanding - 1 := by
      rw [length_erase_of_mem hi, h.ops.outstanding]
    have hlocks : ∀ k ∈ s.locks, k.op ∈ s.active.erase i ∧ OutsideLog start k.blockno ∧
        k.blockno < 2 ^ 32 := fun k hk ↦
      ⟨h.trace.nodup.mem_erase_iff.2 ⟨hfree k hk, (h.ops.locks k hk).1⟩, (h.ops.locks k hk).2⟩
    obtain ⟨tr1, tr2, hd⟩ := h.durable
    obtain ⟨hclean, hset⟩ := hd.phase.of_pc_eq_none hpc
    obtain ⟨hc, ⟨rfl, hzero, rfl⟩ | ⟨rfl, -, rfl⟩⟩ := Log.endOp_eq_ok hl
    · -- the last operation: the commit starts
      have hnil : s.active.erase i = [] := length_eq_zero_iff.1 (hlen.trans hzero)
      refine hd.quiet rfl (h.trace.endOp_event hi)
        ⟨hlen.symm, hlocks, h.ops.locksNodup, rfl, fun _ ↦ hnil⟩
        ⟨h.log.nodup, h.log.length, h.log.home⟩ h.buf ?_
      by_cases hpos : 0 < s.log.lh.length
      · refine Phase.writing 0 ?_ hclean hset (Nat.zero_le _) fun j hj ↦ absurd hj (by omega)
        simp [GroupState.commitStart, hpos]
      · have hempty : s.log.lh = [] := length_eq_zero_iff.1 (by omega)
        refine Phase.finishing ?_ hclean hset hempty
        simp [GroupState.commitStart, hpos]
    · refine hd.quiet rfl (h.trace.endOp_event hi)
        ⟨hlen.symm, hlocks, h.ops.locksNodup, h.ops.committing, fun hsome ↦ ?_⟩
        ⟨h.log.nodup, h.log.length, h.log.home⟩ h.buf (.idle hpc hclean hset)
      rw [if_neg Bool.false_ne_true, hpc] at hsome
      exact absurd hsome Bool.false_ne_true

/-! ### Steps of the commit -/

/-- Writing a slot does not show outside the log. -/
theorem Clean.writeSlot {f e : Disk} (h : Clean start f e) {j : ℕ} (hj : j < logBlocks)
    (v : Block) : Clean start f (update e (start + j + 1) v) where
  count := by rw [update_of_ne (by omega), h.count]
  outside b hb := by
    rw [OutsideLog, logBlocks_eq] at hb
    rw [logBlocks_eq] at hj
    rw [update_of_ne (by omega), h.outside b (by rw [OutsideLog, logBlocks_eq]; omega)]

/-- The write of a slot keeps the phase. -/
theorem Phase.writeSlot {base cur : Disk} {tail b : ℕ} (hlog : LogInv start s.log)
    (hbuf : ∀ b, OutsideLog start b → s.buf b = cur b)
    (clean : Clean start base s.disk) (settled : Settled start base cur s)
    (slots : ∀ j < tail, ∀ h : j < s.log.lh.length, s.disk (start + j + 1) = cur s.log.lh[j])
    (hb : s.log.lh[tail]? = some b) :
    Phase start base cur { s with
      disk := update s.disk (start + tail + 1) (s.buf b)
      pc := some (.writeLog (tail + 1)) } := by
  obtain ⟨hlt, rfl⟩ := List.getElem?_eq_some_iff.1 hb
  have hlen := hlog.length
  refine Phase.writing (tail + 1) rfl (clean.writeSlot (by omega) _) settled hlt fun j hj hj' ↦ ?_
  show update s.disk (start + tail + 1) (s.buf s.log.lh[tail]) (start + j + 1) = _
  rcases Nat.lt_succ_iff_lt_or_eq.1 hj with hj | rfl
  · rw [update_of_ne (by omega), slots j hj hj']
  · rw [update_self]
    exact hbuf _ (hlog.home _ (getElem_mem hlt)).1

/-- The write of the header is the commit point: what the buffers hold is durable from here on. -/
theorem Phase.writeHead {base cur : Disk} {tail : ℕ} (hlog : LogInv start s.log)
    (hlocks : s.locks = []) (clean : Clean start base s.disk) (settled : Settled start base cur s)
    (slots : ∀ j < tail, ∀ h : j < s.log.lh.length, s.disk (start + j + 1) = cur s.log.lh[j])
    (hb : s.log.lh[tail]? = none) :
    Phase start cur cur { s with
      disk := update s.disk start (fillHeader (s.disk start) s.log.lh)
      pc := some (.installTrans 0) } := by
  have hle : s.log.lh.length ≤ tail := List.getElem?_eq_none_iff.1 hb
  refine Phase.installing 0 rfl rfl ⟨?_, fun j hj ↦ ?_, fun b hb hbl ↦ ?_⟩ (Nat.zero_le _)
    fun j hj ↦ absurd hj (by omega)
  · show readHeader (update s.disk start _ start) = _
    rw [update_self, readHeader_fillHeader _ hlog.length fun b hb ↦ (hlog.home b hb).2]
  · have hj' : j < s.log.lh.length := by simpa using hj
    show update s.disk start _ (start + j + 1) = _
    rw [update_of_ne (by omega), slots j (by omega) hj', getElem_map]
  · have hne : b ≠ start := fun hbs ↦ not_outsideLog_start start (hbs ▸ hb)
    show update s.disk start _ b = _
    rw [update_of_ne hne, clean.outside b hb]
    refine settled b hb hbl fun l hl ↦ ?_
    rw [hlocks] at hl
    exact absurd hl not_mem_nil

/-- The write of a home block keeps the phase. -/
theorem Phase.writeHome {base cur buf : Disk} {tail b : ℕ} (hlog : LogInv start s.log)
    (same : base = cur) (pending : Pending start s.log.lh (s.log.lh.map cur) cur s.disk)
    (homes : ∀ j < tail, ∀ h : j < s.log.lh.length, s.disk s.log.lh[j] = cur s.log.lh[j])
    (hb : s.log.lh[tail]? = some b) :
    Phase start base cur { s with
      disk := update s.disk b (s.disk (start + tail + 1))
      buf := buf
      pc := some (.installTrans (tail + 1)) } := by
  obtain ⟨hlt, rfl⟩ := List.getElem?_eq_some_iff.1 hb
  have hout : ∀ c ∈ s.log.lh, OutsideLog start c := fun c hc ↦ (hlog.home c hc).1
  have hslot : s.disk (start + tail + 1) = cur s.log.lh[tail] := by
    rw [pending.slot tail (by simpa using hlt), getElem_map]
  refine Phase.installing (tail + 1) rfl same ?_ hlt fun j hj hj' ↦ ?_
  · have hws : ∀ w ∈ [(s.log.lh[tail], s.disk (start + tail + 1))], w.1 ∈ s.log.lh := by
      intro w hw
      rw [mem_singleton.1 hw]
      exact getElem_mem hlt
    exact pending.install (by simpa using hlog.length) hout hws
  · show update s.disk s.log.lh[tail] _ s.log.lh[j] = _
    by_cases hjt : j = tail
    · subst hjt
      rw [update_self, hslot]
    · rw [update_of_ne fun heq ↦ hjt ((hlog.nodup.getElem_inj_iff).1 heq),
        homes j (by omega) hj']

/-- Once every home is written, clearing the header leaves a clean disk. -/
theorem Phase.clearHead {base cur : Disk} {tail : ℕ} (same : base = cur)
    (pending : Pending start s.log.lh (s.log.lh.map cur) cur s.disk)
    (homes : ∀ j < tail, ∀ h : j < s.log.lh.length, s.disk s.log.lh[j] = cur s.log.lh[j])
    (hb : s.log.lh[tail]? = none) :
    Phase start base cur { s with
      disk := update s.disk start (fillHeader (s.disk start) [])
      log := s.log.clear
      pc := some .finish } := by
  have hle : s.log.lh.length ≤ tail := List.getElem?_eq_none_iff.1 hb
  subst same
  refine Phase.finishing rfl ⟨?_, fun b hb ↦ ?_⟩ (fun _ _ _ _ ↦ rfl) rfl
  · show headerCount (update s.disk start _ start) = 0
    rw [update_self, headerCount_cleared]
  · have hne : b ≠ start := fun hbs ↦ not_outsideLog_start start (hbs ▸ hb)
    show update s.disk start _ b = _
    rw [update_of_ne hne]
    by_cases hbl : b ∈ s.log.lh
    · obtain ⟨j, hj, rfl⟩ := getElem_of_mem hbl
      exact homes j (by omega) hj
    · exact pending.outside b hb hbl

theorem GroupInv.commit (h : GroupInv start d₀ tr s) (hs : s.step start .commit = some t) :
    GroupInv start d₀ (tr ++ [.commit]) t := by
  rw [GroupState.step, GroupState.commitStep] at hs
  have htrace := h.trace.other (a := .commit) (by simp) (by simp) (by simp)
  obtain ⟨tr1, tr2, hd⟩ := h.durable
  have hactive : ∀ {pc}, s.pc = some pc → s.active = [] ∧ s.log.committing = true := fun hpc ↦
    ⟨h.ops.idle (by rw [hpc]; rfl), by rw [h.ops.committing, hpc]; rfl⟩
  cases hd.phase with
  | idle hpc => rw [hpc] at hs; exact absurd hs (by simp)
  | writing tail hpc clean settled hle slots =>
    rw [hpc] at hs
    obtain ⟨hnil, hcomm⟩ := hactive hpc
    simp only at hs
    split at hs
    case h_1 b hb =>
      obtain rfl := some_inj.1 hs
      exact hd.quiet rfl htrace
        ⟨h.ops.outstanding, h.ops.locks, h.ops.locksNodup, hcomm, fun _ ↦ hnil⟩ h.log h.buf
        (.writeSlot h.log h.buf clean settled slots hb)
    case h_2 hb =>
      obtain rfl := some_inj.1 hs
      have hcont : contents d₀ (tr ++ [.commit]) = contents d₀ tr :=
        contents_append_of_update?_none rfl
      refine ⟨htrace, ⟨h.ops.outstanding, h.ops.locks, h.ops.locksNodup, hcomm, fun _ ↦ hnil⟩,
        h.log, by rw [hcont]; exact h.buf, tr ++ [.commit], [], ?_⟩
      -- nobody is between `begin_op` and `end_op`: the whole run is closed
      refine ⟨(append_nil _).symm, fun i ↦ ⟨fun hi ↦ ?_, htrace.endOp i⟩,
        fun i b v hi ↦ absurd hi not_mem_nil, htrace.modify, ?_⟩
      · by_contra hend
        have := (htrace.mem_active i).2 ⟨hi, hend⟩
        rw [hnil] at this
        exact not_mem_nil this
      · rw [hcont]
        exact Phase.writeHead h.log (h.ops.locks_eq_nil hnil) clean settled slots hb
  | installing tail hpc same pending hle homes =>
    rw [hpc] at hs
    obtain ⟨hnil, hcomm⟩ := hactive hpc
    simp only at hs
    split at hs
    case h_1 b hb =>
      obtain rfl := some_inj.1 hs
      refine hd.quiet rfl htrace
        ⟨h.ops.outstanding, h.ops.locks, h.ops.locksNodup, hcomm, fun _ ↦ hnil⟩ h.log
        (fun c hc ↦ ?_) (.writeHome h.log same pending homes hb)
      -- installing does not change what the buffer holds
      obtain ⟨hlt, rfl⟩ := List.getElem?_eq_some_iff.1 hb
      show update s.buf s.log.lh[tail] _ c = _
      by_cases hcb : c = s.log.lh[tail]
      · subst hcb
        rw [update_self, pending.slot tail (by simpa using hlt), getElem_map]
      · rw [update_of_ne hcb, h.buf c hc]
    case h_2 hb =>
      obtain rfl := some_inj.1 hs
      exact hd.quiet rfl htrace
        ⟨h.ops.outstanding, h.ops.locks, h.ops.locksNodup, hcomm, fun _ ↦ hnil⟩
        ⟨nodup_nil, Nat.zero_le _, fun b hb ↦ absurd hb not_mem_nil⟩ h.buf
        (.clearHead same pending homes hb)
  | finishing hpc clean settled empty =>
    rw [hpc] at hs
    obtain rfl := some_inj.1 hs
    exact hd.quiet rfl htrace
      ⟨h.ops.outstanding, h.ops.locks, h.ops.locksNodup, rfl,
        fun hsome ↦ absurd hsome Bool.false_ne_true⟩
      ⟨h.log.nodup, h.log.length, h.log.home⟩ h.buf (.idle rfl clean settled)

/-! ### Whole runs -/

theorem GroupInv.step {a : GroupEvent} (h : GroupInv start d₀ tr s)
    (hs : s.step start a = some t) : GroupInv start d₀ (tr ++ [a]) t := by
  cases a with
  | beginOp i => exact h.beginOp hs
  | bread i b => exact h.bread hs
  | modify i b v => exact h.modify hs
  | logWrite i b => exact h.logWrite hs
  | brelse i b => exact h.brelse hs
  | endOp i => exact h.endOp hs
  | commit => exact h.commit hs

theorem GroupInv.run (h0 : headerCount (d₀ start) = 0)
    (hs : runSteps (GroupState.step start) (GroupState.init d₀) tr = some s) :
    GroupInv start d₀ tr s :=
  runSteps_traceInvariant (GroupInv.init h0) (fun _ _ _ _ _ h hs ↦ h.step hs) hs

/-- Recovery produces the contents of the closed part of the run. -/
theorem Phase.recovery {base cur : Disk} (h : Phase start base cur s) (hlog : LogInv start s.log)
    {e : Disk} (hr : Recovery start s.disk e) : ∀ b, OutsideLog start b → e b = base b := by
  cases h with
  | idle _ clean _ => exact (clean.recovery hr).outside
  | writing _ _ clean _ _ _ => exact (clean.recovery hr).outside
  | installing _ _ same pending _ _ =>
    rw [same]
    refine (pending.recovery (length_map _) hlog.length (fun b hb ↦ (hlog.home b hb).1)
      hlog.nodup (fun _ _ ↦ rfl) (fun j hj hj' ↦ ?_) hr).outside
    rw [getElem_map]
  | finishing _ clean _ _ => exact (clean.recovery hr).outside

/-- **Group commit is all-or-nothing for every operation.** Stop any interleaving of any number of
operations at any point and recover. The home blocks are the initial disk with the modifications,
in the order they were made, of a set `S` of operations. Every operation in `S` had executed
`end_op`, and `S` is closed under going back in time: if `A` ended before `B` began and `B` is in
`S`, then so is `A`. -/
theorem group_commit_atomic (h0 : headerCount (d₀ start) = 0)
    (hs : runSteps (GroupState.step start) (GroupState.init d₀) tr = some s) {e : Disk}
    (hr : Recovery start s.disk e) :
    ∃ S : Finset ℕ,
      (∀ b, OutsideLog start b → e b = applyWrites (modifications S tr) d₀ b) ∧
      (∀ i ∈ S, .endOp i ∈ tr) ∧ ∀ A B, EndsBefore tr A B → B ∈ S → A ∈ S := by
  have h := GroupInv.run h0 hs
  obtain ⟨tr1, tr2, hd⟩ := h.durable
  have hS : ∃ S : Finset ℕ, ∀ i, i ∈ S ↔ .beginOp i ∈ tr1 := by
    refine ⟨(tr1.filterMap fun | .beginOp i => some i | _ => none).toFinset, fun i ↦ ?_⟩
    rw [List.mem_toFinset, List.mem_filterMap]
    constructor
    · rintro ⟨a, ha, hai⟩
      cases a <;> simp_all
    · exact fun hi ↦ ⟨_, hi, rfl⟩
  obtain ⟨S, hS⟩ := hS
  refine ⟨S, fun b hb ↦ ?_, fun i hi ↦ ?_, fun A B hAB hB ↦ ?_⟩
  · -- the modifications of `S` are those of the closed part of the run
    have hmods : modifications S tr = allModifications tr1 := by
      have hsplit : modifications S (tr1 ++ tr2) = modifications S tr1 ++ modifications S tr2 :=
        List.filterMap_append
      rw [hd.split, hsplit, modifications_eq_all, modifications_eq_nil, List.append_nil]
      · exact fun i b v hm hi ↦ hd.foreign i b v hm ((hS i).1 hi)
      · exact fun i b v hm ↦ (hS i).2 (hd.modify i b v hm)
    rw [hmods]
    exact hd.phase.recovery h.log hr b hb
  · rw [hd.split]
    exact List.mem_append_left _ ((hd.closed i).1 ((hS i).1 hi))
  · obtain ⟨l1, l2, l3, htr⟩ := hAB
    rw [hS] at hB
    have hBlast : .beginOp B ∈ .endOp A :: (l2 ++ .beginOp B :: l3) := by simp
    rcases List.append_eq_append_iff.1 (hd.split.symm.trans htr) with ⟨m, hl1, htr2⟩ | ⟨m, htr1, hm⟩
    · -- the end of `A` would come after the closed part, and `B` would begin twice
      refine absurd ?_ (h.trace.once B tr1 tr2 hd.split hB)
      rw [htr2]
      exact List.mem_append_right _ hBlast
    · rcases m with - | ⟨c, m⟩
      · rw [List.nil_append] at hm
        exact absurd (hm ▸ hBlast) (h.trace.once B tr1 tr2 hd.split hB)
      · rw [List.cons_append] at hm
        obtain ⟨rfl, -⟩ := List.cons.inj hm
        refine (hS A).2 ((hd.closed A).2 ?_)
        rw [htr1]
        exact List.mem_append_right _ List.mem_cons_self

/-- Two operations that overlap and share a block, with the commit stopped right after its header
write. -/
def overlappingOps : List GroupEvent :=
  [.beginOp 0, .beginOp 1, .bread 0 40, .modify 0 40 1, .logWrite 0 40, .brelse 0 40, .endOp 0,
    .bread 1 40, .modify 1 40 2, .logWrite 1 40, .brelse 1 40, .endOp 1, .commit, .commit]

theorem group_commit_atomic_overlappingOps :
    ∃ (s : GroupState) (e : Disk),
      runSteps (GroupState.step 2) (GroupState.init fun _ ↦ 0) overlappingOps = some s ∧
      Recovery 2 s.disk e ∧
      ∃ S : Finset ℕ,
        (∀ b, OutsideLog 2 b →
          e b = applyWrites (modifications S overlappingOps) (fun _ ↦ 0) b) ∧
        (∀ i ∈ S, .endOp i ∈ overlappingOps) ∧
        ∀ A B, EndsBefore overlappingOps A B → B ∈ S → A ∈ S := by
  have hsome : (runSteps (GroupState.step 2) (GroupState.init fun _ ↦ 0)
      overlappingOps).isSome = true := by decide +kernel
  obtain ⟨s, hs⟩ := Option.isSome_iff_exists.1 hsome
  exact ⟨s, _, hs, Recovery.complete _,
    group_commit_atomic (by decide +kernel) hs (Recovery.complete _)⟩

end Xv6

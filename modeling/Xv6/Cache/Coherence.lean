import Mathlib.Data.List.Chain
import Xv6.Cache.BioInv
import Xv6.Cache.Machine

/-!
# Every `bread` returns what was left

The invariant of the machine over whole runs: the cache stands for the array of the last data left
in each block, with the blocks pinned that the log lists, or that the running commit has still to
unpin. The step that is not local to the cache is `bunpin` in `install_trans`: the buffer may be
recycled from then on, so its data has to be on disk. It is because the code calls `bwrite` on it
just before, and holds it in between.
-/

namespace Xv6

open Cache Option

/-- The blocks that the code has still to unpin. -/
def unpins (code : List Cmd) : List ℕ :=
  code.filterMap fun
    | .bunpin b => some b
    | _ => none

/-- A `bunpin` comes right after the `bwrite` of the same block. -/
def WrittenFirst (a b : Cmd) : Prop :=
  ∀ n, b = .bunpin n → a = .bwrite n

/-! ### The code of `commit` -/

theorem unpins_append (a b : List Cmd) : unpins (a ++ b) = unpins a ++ unpins b :=
  List.filterMap_append

theorem unpins_writeLogCmds (start tail : ℕ) (lh : List ℕ) :
    unpins (writeLogCmds start tail lh) = [] := by
  induction lh generalizing tail with
  | nil => rfl
  | cons b bs ih => rw [writeLogCmds, unpins_append, ih]; rfl

theorem unpins_installTransCmds (start tail : ℕ) (lh : List ℕ) :
    unpins (installTransCmds start tail lh) = lh := by
  induction lh generalizing tail with
  | nil => rfl
  | cons b bs ih => rw [installTransCmds, unpins_append, ih]; rfl

theorem unpins_writeHeadCmds (start : ℕ) : unpins (writeHeadCmds start) = [] := rfl

/-- `commit` unpins exactly the blocks of the transaction. -/
theorem unpins_commitCmds (start : ℕ) (lh : List ℕ) : unpins (commitCmds start lh) = lh := by
  rw [commitCmds, unpins_append]
  split_ifs with h
  · simp only [unpins_append, unpins_writeLogCmds, unpins_installTransCmds, unpins_writeHeadCmds]
    simp [unpins]
  · exact (List.length_eq_zero_iff.1 (Nat.eq_zero_of_not_pos h)).symm

/-- Code in which every `bunpin` follows its `bwrite`, and which does not begin with one. -/
def WellOrdered (code : List Cmd) : Prop :=
  code.IsChain WrittenFirst ∧ ∀ n, code.head? ≠ some (.bunpin n)

theorem WellOrdered.append {a b : List Cmd} (ha : WellOrdered a) (hb : WellOrdered b) :
    WellOrdered (a ++ b) := by
  refine ⟨List.isChain_append.2 ⟨ha.1, hb.1, fun x _ y hy n hn ↦ ?_⟩, fun n hn ↦ ?_⟩
  · exact absurd (hn ▸ hy) (hb.2 n)
  · cases a with
    | nil => exact hb.2 n hn
    | cons c a => exact ha.2 n hn

theorem wellOrdered_nil : WellOrdered [] :=
  ⟨List.IsChain.nil, by simp⟩

theorem wellOrdered_writeLogCmds (start tail : ℕ) (lh : List ℕ) :
    WellOrdered (writeLogCmds start tail lh) := by
  induction lh generalizing tail with
  | nil => exact wellOrdered_nil
  | cons b bs ih =>
    rw [writeLogCmds]
    exact WellOrdered.append (by simp [WellOrdered, breadCmds, brelseCmds, WrittenFirst]) (ih _)

theorem wellOrdered_installTransCmds (start tail : ℕ) (lh : List ℕ) :
    WellOrdered (installTransCmds start tail lh) := by
  induction lh generalizing tail with
  | nil => exact wellOrdered_nil
  | cons b bs ih =>
    rw [installTransCmds]
    exact WellOrdered.append (by simp [WellOrdered, breadCmds, brelseCmds, WrittenFirst]) (ih _)

theorem wellOrdered_writeHeadCmds (start : ℕ) : WellOrdered (writeHeadCmds start) := by
  simp [WellOrdered, writeHeadCmds, breadCmds, brelseCmds, WrittenFirst]

theorem wellOrdered_commitCmds (start : ℕ) (lh : List ℕ) : WellOrdered (commitCmds start lh) := by
  rw [commitCmds]
  refine WellOrdered.append ?_ (by simp [WellOrdered])
  split_ifs
  · exact ((((wellOrdered_writeLogCmds ..).append (wellOrdered_writeHeadCmds start)).append
      (wellOrdered_installTransCmds ..)).append (by simp [WellOrdered])).append
      (wellOrdered_writeHeadCmds start)
  · exact wellOrdered_nil

/-- Steps that are not in the loops of `commit`. -/
def Cmd.outsideLoops : Cmd → Bool
  | fillHead _ | clear | finish => true
  | _ => false

theorem notMem_loops {c : Cmd} (hc : c.outsideLoops = true) (start tail : ℕ) (lh : List ℕ) :
    c ∉ writeLogCmds start tail lh ∧ c ∉ installTransCmds start tail lh := by
  induction lh generalizing tail with
  | nil => exact ⟨List.not_mem_nil, List.not_mem_nil⟩
  | cons b bs ih =>
    cases c with
    | fillHead | clear | finish => simp [writeLogCmds, installTransCmds, breadCmds, brelseCmds, ih]
    | _ => cases hc

/-- The code that a running commit has left: it ends in `finish`, which comes nowhere else, it
unpins only what it has just written, and it empties the transaction unless it is empty. -/
structure CodeInv (lh : List ℕ) (code : List Cmd) : Prop where
  finish : ∃ pre, code = pre ++ [.finish] ∧ .finish ∉ pre
  ordered : code.IsChain WrittenFirst
  clear : lh = [] ∨ .clear ∈ code

theorem codeInv_commitCmds (start : ℕ) (lh : List ℕ) : CodeInv lh (commitCmds start lh) := by
  refine ⟨⟨_, rfl, ?_⟩, (wellOrdered_commitCmds start lh).1, ?_⟩
  · split_ifs
    · simp [notMem_loops (c := .finish) rfl, writeHeadCmds, breadCmds, brelseCmds]
    · exact List.not_mem_nil
  · rcases Nat.eq_zero_or_pos lh.length with h | h
    · exact Or.inl (List.length_eq_zero_iff.1 h)
    · refine Or.inr ?_
      rw [commitCmds, if_pos h]
      simp

/-- A step other than the last leaves code to run. -/
theorem CodeInv.tail {lh lh' : List ℕ} {cmd : Cmd} {code : List Cmd}
    (h : CodeInv lh (cmd :: code)) (hcmd : cmd ≠ .finish)
    (hlh : lh' = if cmd = .clear then [] else lh) : code ≠ [] ∧ CodeInv lh' code := by
  obtain ⟨pre, hpre, hfin⟩ := h.finish
  obtain ⟨pre, rfl⟩ : ∃ pre', pre = cmd :: pre' := by
    cases pre with
    | nil => exact absurd (List.cons.inj hpre).1 hcmd
    | cons c pre => exact ⟨pre, by rw [(List.cons.inj hpre).1]⟩
  obtain rfl : code = pre ++ [.finish] := (List.cons.inj hpre).2
  refine ⟨by simp, ⟨pre, rfl, fun h ↦ hfin (List.mem_cons_of_mem _ h)⟩, h.ordered.tail, ?_⟩
  subst hlh
  split_ifs with hc
  · exact Or.inl rfl
  · exact h.clear.imp_right fun hm ↦ (List.mem_cons.1 hm).resolve_left (Ne.symm hc)

/-- The last step. -/
theorem CodeInv.eq_nil {lh : List ℕ} {code : List Cmd} (h : CodeInv lh (.finish :: code)) :
    code = [] ∧ lh = [] := by
  obtain ⟨pre, hpre, hfin⟩ := h.finish
  cases pre with
  | nil =>
    obtain rfl : code = [] := (List.cons.inj hpre).2
    exact ⟨rfl, h.clear.resolve_right (by simp)⟩
  | cons c pre =>
    rw [← (List.cons.inj hpre).1] at hfin
    exact absurd List.mem_cons_self hfin

/-! ### The invariant -/

namespace CacheLog

/-- The blocks that the log keeps pinned. -/
def pins (s : CacheLog) : List ℕ :=
  match s.commit with
  | none => s.log.lh
  | some c => unpins c.code

/-- The machine stands for the array of blocks `A`. -/
structure Coherent (A : Disk) (s : CacheLog) : Prop where
  cache : CacheInv A s.pins s.cache
  committing : s.log.committing = s.commit.isSome
  /-- `log_write` is not possible during a commit. -/
  outstanding : s.commit.isSome → s.log.outstanding = 0
  code : ∀ c ∈ s.commit, CodeInv s.log.lh c.code
  /-- The buffer to unpin next is held by the commit, and its data is on disk. -/
  written : ∀ c ∈ s.commit, ∀ b, c.code.head? = some (.bunpin b) →
    ∃ i, s.cache.Holds ⟨.commit, b⟩ i ∧ s.cache.disk b = (s.cache.buf i).data

/-- Between commits the transaction is what is pinned. -/
theorem coherent_of_none {A : Disk} {s : CacheLog} (hn : s.commit = none)
    (hcm : s.log.committing = false) (hc : CacheInv A s.log.lh s.cache) : Coherent A s := by
  refine ⟨?_, by rw [hcm, hn]; rfl, fun h ↦ ?_, fun c h ↦ ?_, fun c h ↦ ?_⟩
  · rw [pins, hn]
    exact hc
  all_goals
    rw [hn] at h
    cases h

theorem Coherent.eq_none {A : Disk} {s : CacheLog} (h : Coherent A s)
    (hcm : s.log.committing = false) : s.commit = none ∧ CacheInv A s.log.lh s.cache := by
  have hn : s.commit = none := by
    rw [h.committing] at hcm
    exact not_isSome_iff_eq_none.1 (by simp [hcm])
  have hc := h.cache
  rw [pins, hn] at hc
  exact ⟨hn, hc⟩

theorem Coherent.cache_commit {A : Disk} {s : CacheLog} (h : Coherent A s) {p : ℕ}
    {code : List Cmd} (hs : s.commit = some ⟨p, code⟩) : CacheInv A (unpins code) s.cache := by
  have hc := h.cache
  rwa [pins, hs] at hc

theorem coherent_init (d : Disk) : Coherent d (init d) :=
  coherent_of_none rfl rfl (cacheInv_binit d)

theorem onCache_eq_some {s t : CacheLog} {p : ℕ} {c : Option Cache} (h : s.onCache p c = some t) :
    s.Free p ∧ ∃ c', c = some c' ∧ t = { s with cache := c' } := by
  rw [onCache, ite_none_right_eq_some, map_eq_some_iff] at h
  obtain ⟨hf, c', hc, rfl⟩ := h
  exact ⟨hf, c', hc, rfl⟩

variable {A A' : Disk} {s t : CacheLog}

/-- A step of a process on the cache. -/
theorem Coherent.ofProcess (h : Coherent A s) {p b : ℕ} {i : Fin nbuf}
    {c' : Cache} (hc : CacheInv A' s.pins c') (hf : Frame ⟨.proc p, b⟩ i s.cache c') :
    Coherent A' { s with cache := c' } := by
  refine ⟨hc, h.committing, h.outstanding, h.code, fun c hcm b' hb ↦ ?_⟩
  obtain ⟨j, hj, hd⟩ := h.written c hcm b' hb
  have hne : (⟨.commit, b'⟩ : Use) ≠ ⟨.proc p, b⟩ := by simp
  obtain ⟨ph, hl⟩ := hj.exists_lock
  refine ⟨j, hj.imp (hf.lock j _ hne).2 (hf.lock j _ hne).2, ?_⟩
  rw [hf.data j _ hne hl]
  exact (hf.disk j _ hne hl).trans hd

/-- A step of the running commit other than the last. -/
theorem Coherent.ofCommit (h : Coherent A s) {p : ℕ} {cmd : Cmd} {code : List Cmd}
    (hs : s.commit = some ⟨p, cmd :: code⟩) (hcmd : cmd ≠ .finish) {c' : Cache} {l' : Log}
    (hc : CacheInv A' (unpins code) c')
    (hl : l' = if cmd = .clear then s.log.clear else s.log)
    (hw : ∀ b, cmd = .bwrite b →
      ∃ i, c'.Holds ⟨.commit, b⟩ i ∧ c'.disk b = (c'.buf i).data) :
    Coherent A' { s with
      cache := c'
      log := l'
      commit := if code = [] then none else some ⟨p, code⟩ } := by
  have hcode := h.code _ hs
  have hlh : l'.lh = if cmd = .clear then [] else s.log.lh := by rw [hl]; split_ifs <;> rfl
  have hcm : l'.committing = s.log.committing := by rw [hl]; split_ifs <;> rfl
  have hout : l'.outstanding = s.log.outstanding := by rw [hl]; split_ifs <;> rfl
  obtain ⟨hne, htail⟩ := hcode.tail hcmd hlh
  rw [if_neg hne]
  have hsome : s.commit.isSome := by rw [hs]; rfl
  refine ⟨hc, ?_, fun _ ↦ hout.trans (h.outstanding hsome), ?_, ?_⟩
  · show l'.committing = true
    rw [hcm, h.committing, hsome]
  · rintro c ⟨⟩
    exact htail
  · rintro c ⟨⟩ b hb
    -- only the `bwrite` of the block can stand before its `bunpin`
    obtain ⟨rest, rfl⟩ : ∃ rest, code = .bunpin b :: rest := by
      cases code with
      | nil => cases hb
      | cons c rest => exact ⟨rest, by rw [some_inj.1 hb]⟩
    exact hw b (List.isChain_cons_cons.1 hcode.ordered |>.1 b rfl)

/-! ### One lemma for each kind of step -/

theorem step_logWrite_eq_some {start p b : ℕ} {i : Fin nbuf}
    (h : step start s (.logWrite p b i) = some t) :
    ∃ l pin, s.log.logWrite b = .ok (l, pin) ∧ p ∈ s.inOp ∧ s.Free p ∧
      ∃ c', s.cache.logWrite ⟨.proc p, b⟩ i pin = some c' ∧
        t = { s with
          cache := c'
          log := l } := by
  rw [step] at h
  split at h
  · rename_i l pin hl
    rw [ite_none_right_eq_some, map_eq_some_iff] at h
    obtain ⟨hp, r, hr, rfl⟩ := h
    obtain ⟨hf, c', hc, rfl⟩ := onCache_eq_some hr
    exact ⟨l, pin, hl, hp, hf, c', hc, rfl⟩
  · cases h

theorem step_endOp_eq_some {start p : ℕ} (h : step start s (.endOp p) = some t) :
    ∃ l doCommit, p ∈ s.inOp ∧ s.log.endOp = .ok (l, doCommit) ∧
      t = { s with
        log := l
        inOp := s.inOp.erase p
        commit := if doCommit then some ⟨p, commitCmds start l.lh⟩ else s.commit } := by
  rw [step, ite_none_right_eq_some] at h
  obtain ⟨hp, h⟩ := h
  split at h
  · rename_i l doCommit hl
    exact ⟨l, doCommit, hp, hl, (some_inj.1 h).symm⟩
  · cases h

theorem commitStep_eq_some {i j : Fin nbuf} (h : s.commitStep i j = some t) :
    ∃ p cmd code r, s.commit = some ⟨p, cmd :: code⟩ ∧ cmd.exec s.cache s.log i j = some r ∧
      t = { s with
        cache := r.1
        log := r.2
        commit := if code = [] then none else some ⟨p, code⟩ } := by
  rw [commitStep] at h
  split at h
  · rename_i p cmd code hc
    obtain ⟨r, hr, rfl⟩ := map_eq_some_iff.1 h
    exact ⟨p, cmd, code, r, hc, hr, rfl⟩
  · cases h

/-- A command that is one operation on the cache. -/
theorem exec_map {c : Option Cache} {l : Log} {r : Cache × Log} (h : c.map (·, l) = some r) :
    c = some r.1 ∧ r.2 = l := by
  obtain ⟨c', hc, rfl⟩ := map_eq_some_iff.1 h
  exact ⟨hc, rfl⟩

theorem leaves_commit {p : ℕ} {cmd : Cmd} {code : List Cmd} {i j : Fin nbuf}
    (hs : s.commit = some ⟨p, cmd :: code⟩) (h : ∀ b, cmd ≠ .releasesleep b) :
    s.leaves (.commit i j) = none := by
  rw [leaves, leaves?, hs]
  cases cmd with
  | releasesleep b => exact absurd rfl (h b)
  | _ => rfl

theorem breads_commit {p : ℕ} {cmd : Cmd} {code : List Cmd} {i j k : Fin nbuf} {b : ℕ}
    (hs : s.commit = some ⟨p, cmd :: code⟩) (h : s.breads (.commit i j) = some (b, k)) :
    cmd = .bread b ∧ k = i := by
  rw [breads, hs] at h
  cases cmd with
  | bread b => cases h; exact ⟨rfl, rfl⟩
  | _ => cases h

/-- The running commit keeps the machine coherent; when it releases a buffer, it leaves its data. -/
theorem Coherent.commitStep (h : Coherent A s) {i j : Fin nbuf} (hs : s.commitStep i j = some t) :
    Coherent (applyWrites (s.leaves (.commit i j)).toList A) t := by
  obtain ⟨p, cmd, code, r, hc, hr, rfl⟩ := commitStep_eq_some hs
  have hcache := h.cache_commit hc
  have quiet : (∀ b, cmd ≠ .releasesleep b) →
      applyWrites (s.leaves (.commit i j)).toList A = A := fun hn ↦ by
    rw [leaves_commit hc hn]
    rfl
  cases cmd with
  | bget b =>
    obtain ⟨hr, hl⟩ := exec_map hr
    rw [quiet (by simp)]
    exact h.ofCommit hc (by simp) (hcache.bget hr) (by simpa using hl) (by simp)
  | acquiresleep b =>
    obtain ⟨hr, hl⟩ := exec_map hr
    rw [quiet (by simp)]
    exact h.ofCommit hc (by simp) (hcache.acquiresleep hr) (by simpa using hl) (by simp)
  | bread b =>
    obtain ⟨hr, hl⟩ := exec_map hr
    rw [quiet (by simp)]
    exact h.ofCommit hc (by simp) (hcache.bread hr).1 (by simpa using hl) (by simp)
  | memmove dst src =>
    rw [Cmd.exec, ite_none_right_eq_some] at hr
    obtain ⟨hr, hl⟩ := exec_map hr.2
    rw [quiet (by simp)]
    exact h.ofCommit hc (by simp) (hcache.modify hr) (by simpa using hl) (by simp)
  | fillHead b =>
    obtain ⟨hr, hl⟩ := exec_map hr
    rw [quiet (by simp)]
    exact h.ofCommit hc (by simp) (hcache.modify hr) (by simpa using hl) (by simp)
  | bwrite b =>
    obtain ⟨hr, hl⟩ := exec_map hr
    rw [quiet (by simp)]
    refine h.ofCommit hc (by simp) (hcache.bwrite hr) (by simpa using hl) ?_
    rintro b' ⟨⟩
    exact ⟨i, hcache.bwrite_written hr⟩
  | bunpin b =>
    obtain ⟨hr, hl⟩ := exec_map hr
    rw [quiet (by simp)]
    obtain ⟨k, hk, hd⟩ := h.written _ hc b rfl
    obtain rfl : k = i := hcache.unique (hcache.caches_of_holds hk)
      (hcache.caches_of_holds (bunpin_own hr).1)
    exact h.ofCommit hc (by simp) (CacheInv.bunpin (u := ⟨.commit, b⟩) hcache hd hr)
      (by simpa using hl) (by simp)
  | releasesleep b =>
    obtain ⟨hr, hl⟩ := exec_map hr
    have hA : applyWrites (s.leaves (.commit i j)).toList A =
        Function.update A b (s.cache.buf i).data := by rw [leaves, leaves?, hc]; rfl
    rw [hA]
    exact h.ofCommit hc (by simp) (hcache.releasesleep hr) (by simpa using hl) (by simp)
  | brelse b =>
    obtain ⟨hr, hl⟩ := exec_map hr
    rw [quiet (by simp)]
    exact h.ofCommit hc (by simp) (hcache.brelse hr) (by simpa using hl) (by simp)
  | clear =>
    obtain rfl := some_inj.1 hr
    rw [quiet (by simp)]
    exact h.ofCommit hc (by simp) hcache (by simp) (by simp)
  | finish =>
    obtain rfl := some_inj.1 hr
    rw [quiet (by simp)]
    obtain ⟨rfl, hlh⟩ := (h.code _ hc).eq_nil
    rw [if_pos rfl]
    -- nothing is pinned and the transaction is empty
    refine coherent_of_none rfl rfl ?_
    show CacheInv A s.log.lh s.cache
    rw [hlh]
    exact hcache

theorem Coherent.logWrite (h : Coherent A s) {p b : ℕ} {i : Fin nbuf} {l : Log} {pin : Bool}
    {c' : Cache} (hl : s.log.logWrite b = .ok (l, pin))
    (hc : s.cache.logWrite ⟨.proc p, b⟩ i pin = some c') :
    Coherent A { s with
      cache := c'
      log := l } := by
  obtain ⟨-, hout, hl⟩ := Log.logWrite_eq_ok hl
  -- an operation is running, so no commit is
  have hcm : s.log.committing = false := by
    rw [h.committing, ← Bool.not_eq_true]
    intro hn
    have := h.outstanding hn
    omega
  obtain ⟨hnone, hcache⟩ := h.eq_none hcm
  rcases hl with ⟨rfl, hmem, rfl⟩ | ⟨rfl, -, rfl⟩
  · exact coherent_of_none hnone hcm (hcache.logWrite_absorb hmem hc)
  · exact coherent_of_none hnone hcm (hcache.logWrite_pin hc)

theorem Coherent.endOp (h : Coherent A s) {start p : ℕ} {l : Log} {doCommit : Bool}
    {inOp : List ℕ} (hl : s.log.endOp = .ok (l, doCommit)) :
    Coherent A { s with
      log := l
      inOp := inOp
      commit := if doCommit then some ⟨p, commitCmds start l.lh⟩ else s.commit } := by
  obtain ⟨hcm, hl⟩ := Log.endOp_eq_ok hl
  obtain ⟨hnone, hcache⟩ := h.eq_none hcm
  rcases hl with ⟨rfl, ho, rfl⟩ | ⟨rfl, -, rfl⟩
  · rw [if_pos rfl]
    refine ⟨?_, rfl, fun _ ↦ ho, ?_, ?_⟩
    · show CacheInv A (unpins (commitCmds start s.log.lh)) s.cache
      rw [unpins_commitCmds]
      exact hcache
    · rintro c ⟨⟩
      exact codeInv_commitCmds start _
    · rintro c ⟨⟩ b hb
      exact absurd hb ((wellOrdered_commitCmds start _).2 b)
  · exact coherent_of_none hnone hcm hcache

theorem Coherent.beginOp (h : Coherent A s) {l : Log} {inOp : List ℕ}
    (hl : s.log.beginOp = some l) : Coherent A { s with log := l, inOp := inOp } := by
  obtain ⟨hcm, -, rfl⟩ := Log.beginOp_eq_some hl
  obtain ⟨hnone, hcache⟩ := h.eq_none hcm
  exact coherent_of_none hnone hcm hcache

/-- Every step keeps the machine coherent, and moves the array of blocks on by what the step
leaves. -/
theorem Coherent.step (h : Coherent A s) {start : ℕ} {e : CacheEvent}
    (hs : step start s e = some t) : Coherent (applyWrites (s.leaves e).toList A) t := by
  cases e with
  | bget p b i =>
    obtain ⟨-, c', hc, rfl⟩ := onCache_eq_some hs
    exact h.ofProcess (h.cache.bget hc) (bget_frame hc)
  | acquiresleep p b i =>
    obtain ⟨-, c', hc, rfl⟩ := onCache_eq_some hs
    exact h.ofProcess (h.cache.acquiresleep hc) (acquiresleep_frame hc)
  | bread p b i =>
    obtain ⟨-, c', hc, rfl⟩ := onCache_eq_some hs
    exact h.ofProcess (h.cache.bread hc).1 (bread_frame hc)
  | modify p b i v =>
    obtain ⟨-, c', hc, rfl⟩ := onCache_eq_some hs
    exact h.ofProcess (h.cache.modify hc) (modify_frame hc)
  | bwrite p b i =>
    obtain ⟨-, c', hc, rfl⟩ := onCache_eq_some hs
    exact h.ofProcess (h.cache.bwrite hc) (bwrite_frame h.cache hc)
  | logWrite p b i =>
    obtain ⟨l, pin, hl, -, -, c', hc, rfl⟩ := step_logWrite_eq_some hs
    exact h.logWrite hl hc
  | releasesleep p b i =>
    obtain ⟨-, c', hc, rfl⟩ := onCache_eq_some hs
    exact h.ofProcess (h.cache.releasesleep hc) (releasesleep_frame hc)
  | brelse p b i =>
    obtain ⟨-, c', hc, rfl⟩ := onCache_eq_some hs
    exact h.ofProcess (h.cache.brelse hc) (brelse_frame hc)
  | beginOp p =>
    rw [CacheLog.step, ite_none_right_eq_some, map_eq_some_iff] at hs
    obtain ⟨-, l, hl, rfl⟩ := hs
    exact h.beginOp hl
  | endOp p =>
    obtain ⟨l, doCommit, -, hl, rfl⟩ := step_endOp_eq_some hs
    exact h.endOp hl
  | commit i j => exact h.commitStep hs

/-- A `bread` returns what the array of blocks has. -/
theorem Coherent.breads (h : Coherent A s) {start : ℕ} {e : CacheEvent}
    (hs : CacheLog.step start s e = some t) {b : ℕ} {i : Fin nbuf}
    (hb : s.breads e = some (b, i)) : (t.cache.buf i).data = A b := by
  cases e with
  | bread p b' k =>
    obtain ⟨-, c', hc, rfl⟩ := onCache_eq_some hs
    cases hb
    exact (h.cache.bread hc).2
  | commit k j =>
    obtain ⟨p, cmd, code, r, hc, hr, rfl⟩ := commitStep_eq_some hs
    obtain ⟨rfl, rfl⟩ := breads_commit hc hb
    obtain ⟨hr, -⟩ := exec_map hr
    exact (h.cache.bread hr).2
  | _ => cases hb

/-- The machine stands for the array of the last data left. -/
theorem coherent_run {start : ℕ} {d : Disk} {es : List CacheEvent}
    (h : runSteps (CacheLog.step start) (init d) es = some s) : Coherent (lastLeft start d es) s :=
  runSteps_traceInvariant (I := fun es s ↦ Coherent (lastLeft start d es) s) (coherent_init d)
    (fun es r e t hr hc hs ↦ by
      rw [lastLeft, observations_concat hr, applyWrites_append]
      exact hc.step hs) h

end CacheLog

end Xv6

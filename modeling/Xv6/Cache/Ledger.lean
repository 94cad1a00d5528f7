import Mathlib.Algebra.Order.BigOperators.Group.List
import Mathlib.Algebra.Order.Group.Nat
import Mathlib.Algebra.Ring.Nat
import Xv6.Cache.Coherence

/-!
# How full the log can get

`begin_op` admits an operation if the log could take `MAXOPBLOCKS` blocks from each operation in
progress and from the new one. What an operation really appends is known to nobody but the
operation, so the machine is run with a ledger beside it: for each process, the blocks its current
operation has passed to `log_write`, and how many of them were new to the log.

If every operation appends at most `A` blocks, the budget inequality
`lh.n + (what the operations may still append) ≤ LOGBLOCKS - 2 * (MAXOPBLOCKS - A)` is kept by every
step. The case that carries it is admission: with nobody in progress the log is empty, because the
last operation to end commits; with one other operation in progress the log had room for two whole
reservations; with two others it was empty; and with three nobody is admitted.
-/

namespace Xv6

open Cache Function List Option

/-- The machine, and what each process's current operation has logged. -/
structure Ledger where
  sys : CacheLog
  /-- The distinct blocks passed to `log_write`. -/
  logged : ℕ → List ℕ
  /-- How many of them were appended to the log, and not absorbed. -/
  appended : ℕ → ℕ

namespace Ledger

/-- The machine after `binit` and `initlock`. -/
def init (d : Disk) : Ledger where
  sys := .init d
  logged := fun _ ↦ []
  appended := fun _ ↦ 0

/-- The blocks logged by each operation after an event. -/
def loggedAfter (s : Ledger) : CacheEvent → ℕ → List ℕ
  | .beginOp p => update s.logged p []
  | .logWrite p b _ =>
    if b ∈ s.logged p then s.logged else update s.logged p (b :: s.logged p)
  | _ => s.logged

/-- The number of blocks appended by each operation after an event. -/
def appendedAfter (s : Ledger) : CacheEvent → ℕ → ℕ
  | .beginOp p => update s.appended p 0
  | .logWrite p b _ =>
    if b ∈ s.sys.log.lh then s.appended else update s.appended p (s.appended p + 1)
  | _ => s.appended

/-- One step, with its entry in the ledger. -/
def step (start : ℕ) (s : Ledger) (e : CacheEvent) : Option Ledger :=
  (s.sys.step start e).map fun t ↦
    { sys := t
      logged := s.loggedAfter e
      appended := s.appendedAfter e }

/-- The rule that an operation appends at most `A` blocks. -/
def Appends (A : ℕ) (s : Ledger) : CacheEvent → Prop
  | .logWrite p b _ => b ∈ s.sys.log.lh ∨ s.appended p < A
  | _ => True

instance (A : ℕ) (s : Ledger) (e : CacheEvent) : Decidable (s.Appends A e) :=
  match e with
  | .logWrite p b _ => inferInstanceAs (Decidable (b ∈ s.sys.log.lh ∨ s.appended p < A))
  | .bget .. | .acquiresleep .. | .bread .. | .modify .. | .bwrite .. | .releasesleep ..
      | .brelse ..
  | .beginOp _ | .endOp _ | .commit .. => instDecidableTrue

theorem step_eq_some {start : ℕ} {s t : Ledger} {e : CacheEvent} (h : step start s e = some t) :
    s.sys.step start e = some t.sys ∧ t.logged = s.loggedAfter e ∧
      t.appended = s.appendedAfter e := by
  obtain ⟨u, hu, rfl⟩ := map_eq_some_iff.1 h
  exact ⟨hu, rfl, rfl⟩

end Ledger

/-! ### What a step does to the log -/

namespace CacheLog

/-- The log, the operations in progress and the running commit, after a step. -/
inductive LogStep (start : ℕ) (s t : CacheLog) : CacheEvent → Prop
  | cache (e : CacheEvent) (hlog : t.log = s.log) (hops : t.inOp = s.inOp)
      (hcommit : t.commit = s.commit) (hbegin : ∀ p, e ≠ .beginOp p)
      (hwrite : ∀ p b i, e ≠ .logWrite p b i) (hproc : ∀ i j, e ≠ .commit i j) :
      LogStep start s t e
  | beginOp (p : ℕ) (hlog : s.log.beginOp = some t.log) (hp : p ∉ s.inOp)
      (hops : t.inOp = p :: s.inOp) (hcommit : t.commit = s.commit) : LogStep start s t (.beginOp p)
  | logWrite (p b : ℕ) (i : Fin nbuf) (pin : Bool) (hlog : s.log.logWrite b = .ok (t.log, pin))
      (hp : p ∈ s.inOp) (hops : t.inOp = s.inOp) (hcommit : t.commit = s.commit) :
      LogStep start s t (.logWrite p b i)
  | endOp (p : ℕ) (doCommit : Bool) (hlog : s.log.endOp = .ok (t.log, doCommit)) (hp : p ∈ s.inOp)
      (hops : t.inOp = s.inOp.erase p)
      (hcommit : t.commit = if doCommit then some ⟨p, commitCmds start t.log.lh⟩ else s.commit) :
      LogStep start s t (.endOp p)
  | commit (i j : Fin nbuf) (p : ℕ) (cmd : Cmd) (code : List Cmd)
      (hs : s.commit = some ⟨p, cmd :: code⟩)
      (hlog : t.log = if cmd = .clear then s.log.clear else
        if cmd = .finish then s.log.endCommit else s.log)
      (hops : t.inOp = s.inOp) (hcommit : t.commit = if code = [] then none else some ⟨p, code⟩) :
      LogStep start s t (.commit i j)

variable {start : ℕ} {s t : CacheLog} {e : CacheEvent}

theorem exec_log {c : Cache} {l : Log} {i j : Fin nbuf} {cmd : Cmd} {r : Cache × Log}
    (h : cmd.exec c l i j = some r) :
    r.2 = if cmd = .clear then l.clear else if cmd = .finish then l.endCommit else l := by
  cases cmd with
  | memmove dst src =>
    rw [Cmd.exec, ite_none_right_eq_some] at h
    exact (exec_map h.2).2
  | clear => cases h; rfl
  | finish => cases h; rfl
  | _ => exact (exec_map h).2

theorem logStep_of_step (h : step start s e = some t) : LogStep start s t e := by
  cases e with
  | logWrite p b i =>
    obtain ⟨l, pin, hl, hp, -, c, -, rfl⟩ := step_logWrite_eq_some h
    exact .logWrite p b i pin hl hp rfl rfl
  | beginOp p =>
    rw [step, ite_none_right_eq_some, map_eq_some_iff] at h
    obtain ⟨⟨-, hp⟩, l, hl, rfl⟩ := h
    exact .beginOp p hl hp rfl rfl
  | endOp p =>
    obtain ⟨l, doCommit, hp, hl, rfl⟩ := step_endOp_eq_some h
    exact .endOp p doCommit hl hp rfl rfl
  | commit i j =>
    obtain ⟨p, cmd, code, r, hs, hr, rfl⟩ := commitStep_eq_some h
    exact .commit i j p cmd code hs (exec_log hr) rfl rfl
  | _ =>
    obtain ⟨-, c, -, rfl⟩ := onCache_eq_some h
    exact .cache _ rfl rfl rfl (by simp) (by simp) (by simp)

end CacheLog

/-! ### The code of `commit` and the pins -/

/-- Nothing is unpinned after the transaction has been emptied. -/
def ClearsLast (a b : Cmd) : Prop := a = .clear → ∀ n, b ≠ .bunpin n

theorem pairwise_clearsLast_commitCmds (start : ℕ) (lh : List ℕ) :
    (commitCmds start lh).Pairwise ClearsLast := by
  have hhead : Cmd.clear ∉ writeHeadCmds start := by simp [writeHeadCmds, breadCmds, brelseCmds]
  rw [commitCmds]
  split_ifs
  · set front := writeLogCmds start 0 lh ++ writeHeadCmds start ++ installTransCmds start 0 lh
      with hfront
    have hclear : Cmd.clear ∉ front := by
      simp [hfront, notMem_loops (c := .clear) rfl, hhead]
    rw [append_assoc, append_assoc, pairwise_append]
    refine ⟨?_, ?_, fun a ha b _ hc ↦ absurd (hc ▸ ha) hclear⟩
    · exact pairwise_of_forall_mem_list fun a ha b _ hc ↦ absurd (hc ▸ ha) hclear
    · refine pairwise_of_forall_mem_list fun a _ b hb _ n hn ↦ ?_
      subst hn
      simp [writeHeadCmds, breadCmds, brelseCmds] at hb
  · exact pairwise_singleton _ _

theorem unpins_eq_nil_of_clear {code : List Cmd} (h : (Cmd.clear :: code).Pairwise ClearsLast) :
    unpins code = [] := by
  refine filterMap_eq_nil_iff.2 fun cmd hcmd ↦ ?_
  cases cmd with
  | bunpin b => exact absurd rfl ((pairwise_cons.1 h).1 _ hcmd rfl b)
  | _ => rfl

theorem unpins_sublist_cons (cmd : Cmd) (code : List Cmd) :
    (unpins code).Sublist (unpins (cmd :: code)) :=
  (sublist_cons_self cmd code).filterMap _

/-! ### The budget -/

theorem sum_map_le_length_mul {l : List ℕ} {f : ℕ → ℕ} {n : ℕ} (h : ∀ q, f q ≤ n) :
    (l.map f).sum ≤ l.length * n := by
  induction l with
  | nil => exact Nat.zero_le _
  | cons q l ih =>
    rw [map_cons, sum_cons, length_cons, add_mul]
    have hq := h q
    omega

namespace Ledger

/-- What the operations in progress may still append, each being allowed `A` blocks. -/
def allowance (A : ℕ) (s : Ledger) : ℕ := (s.sys.inOp.map fun p ↦ A - s.appended p).sum

/-- The invariant of the ledger. -/
structure LogBook (A : ℕ) (s : Ledger) : Prop where
  coherent : ∃ B, s.sys.Coherent B
  nodupOps : s.sys.inOp.Nodup
  outstanding : s.sys.log.outstanding = s.sys.inOp.length
  distinct : s.sys.log.lh.Nodup
  budget : s.sys.log.lh.length + s.allowance A + 2 * (maxOpBlocks - A) ≤ logBlocks
  /-- With nobody in progress and no commit running, the log is empty. -/
  idle : s.sys.inOp = [] → s.sys.commit = none → s.sys.log.lh = []
  /-- The running commit has still to unpin blocks of the transaction only. -/
  toUnpin : ∀ c ∈ s.sys.commit, (unpins c.code).Sublist s.sys.log.lh ∧ c.code.Pairwise ClearsLast

variable {A start : ℕ} {s t : Ledger} {e : CacheEvent}

theorem logBook_init (d : Disk) : LogBook A (init d) where
  coherent := ⟨d, CacheLog.coherent_init d⟩
  nodupOps := nodup_nil
  outstanding := rfl
  distinct := nodup_nil
  budget := by
    show 0 + 0 + 2 * (10 - A) ≤ 30
    omega
  idle _ _ := rfl
  toUnpin _ h := by cases h

/-- While a commit is running no operation is in progress. -/
theorem LogBook.inOp_eq_nil (h : LogBook A s) (hc : s.sys.commit.isSome) : s.sys.inOp = [] := by
  obtain ⟨B, hB⟩ := h.coherent
  have hout := hB.outstanding hc
  rw [h.outstanding] at hout
  exact length_eq_zero_iff.1 hout

theorem LogBook.commit_eq_none (h : LogBook A s) {p : ℕ} (hp : p ∈ s.sys.inOp) :
    s.sys.commit = none := by
  rw [← not_isSome_iff_eq_none]
  intro hc
  rw [h.inOp_eq_nil hc] at hp
  exact not_mem_nil hp

theorem appendedAfter_eq (hbegin : ∀ p, e ≠ .beginOp p) (hwrite : ∀ p b i, e ≠ .logWrite p b i) :
    s.appendedAfter e = s.appended := by
  cases e with
  | beginOp p => exact absurd rfl (hbegin p)
  | logWrite p b i => exact absurd rfl (hwrite p b i)
  | _ => rfl

/-- Admission keeps the budget. -/
theorem LogBook.beginOp (h : LogBook A s) (hA : A ≤ maxOpBlocks) {p : ℕ} {l : Log}
    (hl : s.sys.log.beginOp = some l) (hp : p ∉ s.sys.inOp) (ht : t.sys.log = l)
    (hops : t.sys.inOp = p :: s.sys.inOp) (happ : t.appended = update s.appended p 0) :
    t.sys.log.lh.length + t.allowance A + 2 * (maxOpBlocks - A) ≤ logBlocks := by
  obtain ⟨hcm, hadm, rfl⟩ := Log.beginOp_eq_some hl
  have hrest : (s.sys.inOp.map fun q ↦ A - t.appended q) =
      s.sys.inOp.map fun q ↦ A - s.appended q :=
    map_congr_left fun q hq ↦ by
      have hqp : q ≠ p := fun heq ↦ hp (heq ▸ hq)
      rw [happ, update_of_ne hqp]
  have hallow : t.allowance A = A + s.allowance A := by
    rw [allowance, hops, map_cons, sum_cons, hrest, happ, update_self, allowance,
      Nat.sub_zero]
  have hle : s.allowance A ≤ s.sys.inOp.length * A :=
    sum_map_le_length_mul fun q ↦ Nat.sub_le A _
  obtain ⟨B, hB⟩ := h.coherent
  have hidle : s.sys.inOp.length = 0 → s.sys.log.lh.length = 0 := fun h0 ↦ by
    rw [h.idle (length_eq_zero_iff.1 h0) (hB.eq_none hcm).1, length_nil]
  rw [h.outstanding] at hadm
  rw [ht, hallow]
  show s.sys.log.lh.length + (A + s.allowance A) + 2 * (10 - A) ≤ 30
  have hA : A ≤ 10 := hA
  have hadm : s.sys.log.lh.length + (s.sys.inOp.length + 1) * 10 ≤ 30 := hadm
  -- at most two others are in progress
  obtain h0 | h1 | h2 : s.sys.inOp.length = 0 ∨ s.sys.inOp.length = 1 ∨ s.sys.inOp.length = 2 := by
    omega
  · rw [h0, zero_mul] at hle
    have := hidle h0
    omega
  · rw [h1] at hle hadm
    omega
  · rw [h2] at hle hadm
    omega

/-- An append uses up one block of the operation's allowance. -/
theorem LogBook.append (h : LogBook A s) {p : ℕ} (hp : p ∈ s.sys.inOp) (happ : s.appended p < A)
    (hops : t.sys.inOp = s.sys.inOp)
    (ht : t.appended = update s.appended p (s.appended p + 1)) :
    t.allowance A + 1 = s.allowance A := by
  have hother : ∀ q, q ≠ p → t.appended q = s.appended q := fun q hq ↦ by rw [ht, update_of_ne hq]
  have hsum := sum_add_of_eq_elsewhere_of_mem (mem_toFinset.2 hp) hother (A - ·)
  rw [sum_toFinset _ h.nodupOps, sum_toFinset _ h.nodupOps] at hsum
  have htp : t.appended p = s.appended p + 1 := by rw [ht, update_self]
  rw [allowance, hops, allowance]
  omega

/-- An operation that ends gives back what it has not used. -/
theorem LogBook.allowance_erase_le (p : ℕ) (hops : t.sys.inOp = s.sys.inOp.erase p)
    (ht : t.appended = s.appended) : t.allowance A ≤ s.allowance A := by
  rw [allowance, hops, ht, allowance]
  exact (erase_sublist.map _).sum_le_sum fun _ _ ↦ Nat.zero_le _

/-- A step that leaves the log alone. -/
theorem LogBook.of_log_eq (h : LogBook A s) (hco : ∃ B, t.sys.Coherent B)
    (hlog : t.sys.log = s.sys.log) (hops : t.sys.inOp = s.sys.inOp)
    (happ : t.appended = s.appended) (hcommit : t.sys.commit = s.sys.commit) : LogBook A t where
  coherent := hco
  nodupOps := by rw [hops]; exact h.nodupOps
  outstanding := by rw [hlog, hops]; exact h.outstanding
  distinct := by rw [hlog]; exact h.distinct
  budget := by rw [hlog, allowance, hops, happ]; exact h.budget
  idle := by rw [hlog, hops, hcommit]; exact h.idle
  toUnpin := by rw [hlog, hcommit]; exact h.toUnpin

/-- Every step keeps the ledger. -/
theorem LogBook.step (h : LogBook A s) (hA : A ≤ maxOpBlocks) (hrule : s.Appends A e)
    (hs : Ledger.step start s e = some t) : LogBook A t := by
  obtain ⟨hs, -, happ⟩ := step_eq_some hs
  obtain ⟨B, hB⟩ := h.coherent
  have hco : ∃ B, t.sys.Coherent B := ⟨_, hB.step hs⟩
  cases CacheLog.logStep_of_step hs with
  | cache _ hlog hops hcommit hbegin hwrite =>
    rw [appendedAfter_eq hbegin hwrite] at happ
    exact h.of_log_eq hco hlog hops happ hcommit
  | beginOp p hlog hp hops hcommit =>
    have hbudget := h.beginOp hA hlog hp rfl hops happ
    obtain ⟨hcm, -, hl⟩ := Log.beginOp_eq_some hlog
    have hlh : t.sys.log.lh = s.sys.log.lh := by rw [hl]
    refine ⟨hco, ?_, ?_, ?_, hbudget, fun hnil ↦ ?_, ?_⟩
    · rw [hops]
      exact nodup_cons.2 ⟨hp, h.nodupOps⟩
    · rw [hl, hops, length_cons, ← h.outstanding]
    · rw [hlh]
      exact h.distinct
    · rw [hops] at hnil
      cases hnil
    · rw [hlh, hcommit]
      exact h.toUnpin
  | logWrite p b i pin hlog hp hops hcommit =>
    obtain ⟨-, -, ⟨-, hb, hl⟩ | ⟨-, hb, hl⟩⟩ := Log.logWrite_eq_ok hlog
    · -- the block is absorbed
      exact h.of_log_eq hco hl hops (by rw [happ, appendedAfter, if_pos hb]) hcommit
    · have hlt : s.appended p < A := hrule.resolve_left hb
      have hallow := h.append hp hlt hops (by rw [happ, appendedAfter, if_neg hb])
      have hlh : t.sys.log.lh = s.sys.log.lh ++ [b] := by rw [hl]
      refine ⟨hco, ?_, ?_, ?_, ?_, fun hnil ↦ ?_, fun c hc ↦ ?_⟩
      · rw [hops]
        exact h.nodupOps
      · rw [hl, hops]
        exact h.outstanding
      · rw [hlh]
        exact h.distinct.append (nodup_singleton b) (by simpa using hb)
      · have hbudget := h.budget
        rw [hlh, length_append, length_singleton]
        omega
      · rw [hops] at hnil
        rw [hnil] at hp
        exact absurd hp not_mem_nil
      · rw [hcommit, h.commit_eq_none hp] at hc
        cases hc
  | endOp p doCommit hlog hp hops hcommit =>
    have happ : t.appended = s.appended := happ
    have hallow : t.allowance A ≤ s.allowance A := LogBook.allowance_erase_le p hops happ
    have hlen : t.sys.inOp.length = s.sys.inOp.length - 1 := by
      rw [hops, length_erase_of_mem hp]
    obtain ⟨-, hl⟩ := Log.endOp_eq_ok hlog
    have hlh : t.sys.log.lh = s.sys.log.lh := by
      rcases hl with ⟨-, -, hl⟩ | ⟨-, -, hl⟩ <;> rw [hl]
    have hout : t.sys.log.outstanding = s.sys.log.outstanding - 1 := by
      rcases hl with ⟨-, -, hl⟩ | ⟨-, -, hl⟩ <;> rw [hl]
    refine ⟨hco, ?_, ?_, ?_, ?_, fun hnil hnone ↦ ?_, fun c hc ↦ ?_⟩
    · rw [hops]
      exact h.nodupOps.erase p
    · rw [hout, hlen, h.outstanding]
    · rw [hlh]
      exact h.distinct
    · have hbudget := h.budget
      rw [hlh]
      omega
    · -- the last one to end has started a commit
      rcases hl with ⟨hdo, -, -⟩ | ⟨-, hne, -⟩
      · rw [hcommit, hdo, if_pos rfl] at hnone
        cases hnone
      · rw [hnil, length_nil] at hlen
        rw [h.outstanding] at hne
        omega
    · rw [hcommit] at hc
      split_ifs at hc
      · obtain rfl := some_inj.1 hc
        dsimp only
        rw [unpins_commitCmds]
        exact ⟨List.Sublist.refl _, pairwise_clearsLast_commitCmds start _⟩
      · rw [h.commit_eq_none hp] at hc
        cases hc
  | commit i j p cmd code hsome hlog hops hcommit =>
    have happ : t.appended = s.appended := happ
    obtain ⟨hsub, hclears⟩ := h.toUnpin _ hsome
    have hout : t.sys.log.outstanding = s.sys.log.outstanding := by
      rw [hlog]
      split_ifs <;> rfl
    have hlh : t.sys.log.lh = s.sys.log.lh ∨ cmd = .clear ∧ t.sys.log.lh = [] := by
      rw [hlog]
      split_ifs with hc
      · exact Or.inr ⟨hc, rfl⟩
      · exact Or.inl rfl
      · exact Or.inl rfl
    refine ⟨hco, ?_, ?_, ?_, ?_, fun _ hnone ↦ ?_, fun c hc ↦ ?_⟩
    · rw [hops]
      exact h.nodupOps
    · rw [hout, hops]
      exact h.outstanding
    · rcases hlh with hlh | ⟨-, hlh⟩
      · rw [hlh]
        exact h.distinct
      · rw [hlh]
        exact nodup_nil
    · have hbudget := h.budget
      have hallow : t.allowance A = s.allowance A := by rw [allowance, hops, happ, allowance]
      rcases hlh with hlh | ⟨-, hlh⟩ <;> rw [hlh, hallow]
      · exact hbudget
      · rw [length_nil]
        omega
    · -- the code is at its end, and the transaction was emptied before
      obtain ⟨B', hB'⟩ := hco
      have hfinish : cmd = .finish := by
        by_contra hne
        have htail := (hB.code _ hsome).tail hne rfl
        rw [hcommit, if_neg htail.1] at hnone
        cases hnone
      subst hfinish
      have hnil := (hB.code _ hsome).eq_nil.2
      rcases hlh with hlh | ⟨-, hlh⟩
      · rw [hlh, hnil]
      · exact hlh
    · rw [hcommit] at hc
      split_ifs at hc
      · cases hc
      obtain rfl := some_inj.1 hc
      refine ⟨?_, (pairwise_cons.1 hclears).2⟩
      rcases hlh with hlh | ⟨rfl, -⟩
      · rw [hlh]
        exact (unpins_sublist_cons cmd code).trans hsub
      · dsimp only
        rw [unpins_eq_nil_of_clear hclears]
        exact nil_sublist _

theorem logBook_run (hA : A ≤ maxOpBlocks) {d : Disk} {es : List CacheEvent}
    (h : runSteps (restrictSteps (Ledger.step start) (Appends A)) (init d) es = some s) :
    LogBook A s :=
  runSteps_invariant (logBook_init d) (fun _ _ _ hr hs ↦
    hr.step hA (restrictSteps_eq_some hs).1 (restrictSteps_eq_some hs).2) h

end Ledger

/-! ### The pins -/

namespace CacheLog

/-- The running commit has installed block `b` and taken the log's pin off its buffer. -/
def Installed (s : CacheLog) (b : ℕ) : Prop := ∃ c ∈ s.commit, .bunpin b ∉ c.code

theorem mem_unpins {code : List Cmd} {b : ℕ} : b ∈ unpins code ↔ .bunpin b ∈ code := by
  rw [unpins, mem_filterMap]
  constructor
  · rintro ⟨cmd, hcmd, h⟩
    cases cmd with
    | bunpin n =>
      obtain rfl := some_inj.1 h
      exact hcmd
    | _ => cases h
  · exact fun h ↦ ⟨_, h, rfl⟩

end CacheLog

namespace Ledger

variable {A : ℕ} {s : Ledger}

/-- The log keeps a block pinned if it lists it and has not installed it yet, and pins it once. -/
theorem LogBook.count_pins (h : LogBook A s) (b : ℕ) :
    s.sys.pins.Nodup ∧ (b ∈ s.sys.pins ↔ b ∈ s.sys.log.lh ∧ ¬s.sys.Installed b) := by
  rw [CacheLog.pins, CacheLog.Installed]
  cases hc : s.sys.commit with
  | none => exact ⟨h.distinct, by simp⟩
  | some c =>
    obtain ⟨hsub, -⟩ := h.toUnpin c hc
    refine ⟨h.distinct.sublist hsub, ?_⟩
    show b ∈ unpins c.code ↔ _
    have hmem : b ∈ unpins c.code → b ∈ s.sys.log.lh := fun hb ↦ hsub.subset hb
    rw [CacheLog.mem_unpins] at hmem ⊢
    simp only [mem_some_iff, exists_eq_left', not_not]
    exact ⟨fun hb ↦ ⟨hmem hb, hb⟩, And.right⟩

/-- The references to a buffer are those of the calls that use it, and the log's pin if there is
one. -/
theorem LogBook.refcnt_eq (h : LogBook A s) (i : Fin nbuf) :
    (s.sys.cache.buf i).refcnt = s.sys.cache.refs [] i +
      if (s.sys.cache.buf i).dev = rootDev then s.sys.pins.count (s.sys.cache.buf i).blockno
        else 0 := by
  obtain ⟨B, hB⟩ := h.coherent
  rw [hB.cache.refcnt, refs, refs, count_nil, ite_self, add_zero]

/-- **The log admission bound.** If every operation appends at most `A` blocks, then in every state
of every run: the log holds at most `LOGBLOCKS - 2 * (MAXOPBLOCKS - A)` blocks, all different; the
buffer of a listed block that is not installed yet has exactly one reference besides those of the
calls that use it, and no other buffer has more than these; `outstanding` counts the operations in
progress; and during a commit there are none, and neither `begin_op` nor `log_write` goes
through. -/
theorem log_admission_bound {start : ℕ} {d : Disk} {es : List CacheEvent} (hA : A ≤ maxOpBlocks)
    (hrun : runSteps (restrictSteps (Ledger.step start) (Appends A)) (init d) es = some s) :
    s.sys.log.lh.length ≤ logBlocks - 2 * (maxOpBlocks - A) ∧
      s.sys.log.lh.Nodup ∧
      (∀ b ∈ s.sys.log.lh, ¬s.sys.Installed b → ∃ i, s.sys.cache.Caches i b ∧
        (s.sys.cache.buf i).refcnt = s.sys.cache.refs [] i + 1) ∧
      (∀ i, (∀ b ∈ s.sys.log.lh, ¬s.sys.Installed b → ¬s.sys.cache.Caches i b) →
        (s.sys.cache.buf i).refcnt = s.sys.cache.refs [] i) ∧
      s.sys.log.outstanding = s.sys.inOp.length ∧
      (s.sys.log.committing = true → s.sys.log.outstanding = 0 ∧
        ∀ e t, s.sys.step start e = some t →
          (∀ p, e ≠ .beginOp p) ∧ ∀ p b i, e ≠ .logWrite p b i) := by
  have h := logBook_run hA hrun
  obtain ⟨B, hB⟩ := h.coherent
  refine ⟨?_, h.distinct, fun b hb hni ↦ ?_, fun i hi ↦ ?_, h.outstanding, fun hcm ↦ ?_⟩
  · have hbudget := h.budget
    omega
  · have hpin : b ∈ s.sys.pins := ((h.count_pins b).2).2 ⟨hb, hni⟩
    obtain ⟨i, hi⟩ := hB.cache.pinned b hpin
    refine ⟨i, hi, ?_⟩
    rw [h.refcnt_eq i, if_pos hi.1, hi.2, List.count_eq_one_of_mem (h.count_pins b).1 hpin]
  · rw [h.refcnt_eq i]
    split_ifs with hdev
    · have hzero : s.sys.pins.count (s.sys.cache.buf i).blockno = 0 := by
        refine List.count_eq_zero.2 fun hpin ↦ ?_
        obtain ⟨hb, hni⟩ := ((h.count_pins _).2).1 hpin
        exact hi _ hb hni ⟨hdev, rfl⟩
      rw [hzero, add_zero]
    · rw [add_zero]
  · have hsome : s.sys.commit.isSome := by rw [← hB.committing, hcm]
    have hout := hB.outstanding hsome
    refine ⟨hout, fun e t hs ↦ ⟨?_, ?_⟩⟩
    · rintro p rfl
      cases CacheLog.logStep_of_step hs with
      | cache _ _ _ _ hbegin _ => exact hbegin p rfl
      | beginOp _ hlog =>
        rw [(Log.beginOp_eq_some hlog).1] at hcm
        cases hcm
    · rintro p b i rfl
      cases CacheLog.logStep_of_step hs with
      | cache _ _ _ _ _ hwrite => exact hwrite p b i rfl
      | logWrite _ _ _ _ hlog =>
        have hpos := (Log.logWrite_eq_ok hlog).2.1
        omega

/-- A whole use of the buffer `i` of block `b` inside an operation of process `p`. -/
def logsBlock (p b : ℕ) (i : Fin nbuf) : List CacheEvent :=
  [.bget p b i, .acquiresleep p b i, .bread p b i, .logWrite p b i, .releasesleep p b i,
    .brelse p b i]

/-- Two operations overlap; the second logs a block the first has logged, and one of its own. -/
def overlappingRun (i j : Fin nbuf) : List CacheEvent :=
  [.beginOp 1, .beginOp 2] ++ logsBlock 1 40 i ++ logsBlock 2 40 i ++ logsBlock 2 41 j ++ [.endOp 1]

theorem log_admission_bound_overlappingRun :
    ∃ s, runSteps (restrictSteps (Ledger.step 2) (Appends 7)) (init fun _ ↦ 0)
        (overlappingRun 0 1) = some s ∧ s.sys.log.lh = [40, 41] ∧ s.sys.log.lh.length ≤ 24 := by
  have hsome : ∃ s ∈ runSteps (restrictSteps (Ledger.step 2) (Appends 7)) (init fun _ ↦ 0)
      (overlappingRun 0 1), s.sys.log.lh = [40, 41] := by decide +kernel
  obtain ⟨s, hs, hlh⟩ := hsome
  exact ⟨s, hs, hlh, (log_admission_bound (by decide) hs).1⟩

end Ledger

end Xv6

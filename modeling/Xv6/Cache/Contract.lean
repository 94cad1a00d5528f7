import Xv6.Cache.Ledger

/-!
# What an operation may log

`MAXOPBLOCKS` is advertised as the number of blocks an operation may write, and `begin_op` reserves
as much for each operation. Keeping to that is not enough: three operations that log ten blocks
each fill the log exactly, and then `log_write` panics even for a block it would absorb, and
`commit` finds every buffer of the cache pinned (`tooBig_and_noBuffers`). One block less per
operation is enough, if only operations use the cache (`not_tooBig_not_noBuffers`).

During a commit nobody else uses a buffer, so a buffer is referenced only if the log pins it or the
commit itself uses it. How many buffers the commit uses is read off the code it has left: the calls
of `brelse` in it that belong to calls of `bget` made before. A `bget` of the code either is for a
pinned block, which is cached, or is made when the commit uses no buffer at all.
-/

namespace Xv6

open Cache Function List Option

namespace Cache

/-- The number of buffers whose sleep lock is held by `a`. -/
def heldBy (c : Cache) (a : Agent) : ℕ :=
  ∑ i, if (c.buf i).lock.map (fun h ↦ h.agent) = some a then 1 else 0

/-- The number of uses of buffers that `a` has begun and not ended, from `bget` to `brelse`. -/
def uses (c : Cache) (a : Agent) : ℕ :=
  c.waiting.countP (·.1.agent = a) + c.releasing.countP (·.1.agent = a) + c.heldBy a

variable {c c' : Cache} {u : Use} {i : Fin nbuf} {a : Agent}

theorem heldBy_update (c' : Cache) (i : Fin nbuf) (x : Buf)
    (h : c'.buf = update c.buf i x) (a : Agent) :
    c'.heldBy a + (if (c.buf i).lock.map (fun h ↦ h.agent) = some a then 1 else 0) =
      c.heldBy a + if x.lock.map (fun h ↦ h.agent) = some a then 1 else 0 := by
  rw [heldBy, h, heldBy]
  exact sum_update_add c.buf i x fun b : Buf ↦
    if b.lock.map (fun h ↦ h.agent) = some a then 1 else 0

/-- A step that keeps the holder of buffer `i` and the lists of calls. -/
theorem uses_of_setBuf {x : Buf} (hbuf : c'.buf = update c.buf i x)
    (hlock : x.lock.map (fun h ↦ h.agent) = (c.buf i).lock.map fun h ↦ h.agent)
    (hw : c'.waiting = c.waiting) (hr : c'.releasing = c.releasing) (a : Agent) :
    c'.uses a = c.uses a := by
  have hheld := heldBy_update c' i x hbuf a
  rw [hlock] at hheld
  rw [uses, uses, hw, hr]
  omega

theorem uses_bget (h : c.bget u i = some c') (a : Agent) :
    c'.uses a = c.uses a + if u.agent = a then 1 else 0 := by
  obtain ⟨x, hbuf, hx, hw, hr⟩ : ∃ x : Buf, c'.buf = update c.buf i x ∧
      x.lock = (c.buf i).lock ∧ c'.waiting = (u, i) :: c.waiting ∧
      c'.releasing = c.releasing := by
    rw [bget] at h
    split_ifs at h
    · cases h
      exact ⟨_, rfl, rfl, rfl, rfl⟩
    · cases h
      exact ⟨_, rfl, rfl, rfl, rfl⟩
  have hheld := heldBy_update c' i x hbuf a
  rw [hx] at hheld
  rw [uses, uses, hw, hr, countP_cons_key fun x : Use × Fin nbuf ↦ x.1.agent]
  dsimp only
  omega

theorem uses_acquiresleep (h : c.acquiresleep u i = some c') (a : Agent) :
    c'.uses a = c.uses a := by
  rw [acquiresleep, ite_none_right_eq_some, some_inj] at h
  obtain ⟨⟨hmem, hlock⟩, h⟩ := h
  have hheld := heldBy_update c' i { c.buf i with lock := some ⟨u, .reading⟩ } (by rw [← h]; rfl) a
  have hw : c'.waiting = c.waiting.erase (u, i) := by rw [← h]
  have hr : c'.releasing = c.releasing := by rw [← h]; rfl
  have herase := countP_erase_key (fun x : Use × Fin nbuf ↦ x.1.agent) hmem a
  dsimp only at herase
  simp only [hlock, map_none, map_some, reduceCtorEq, if_false,
    some_inj] at hheld
  rw [uses, uses, hw, hr]
  omega

theorem uses_releasesleep (h : c.releasesleep u i = some c') (a : Agent) :
    c'.uses a = c.uses a := by
  rw [releasesleep, ite_none_right_eq_some, some_inj] at h
  obtain ⟨hlock, h⟩ := h
  have hheld := heldBy_update c' i { c.buf i with lock := none } (by rw [← h]; rfl) a
  have hw : c'.waiting = c.waiting := by rw [← h]; rfl
  have hr : c'.releasing = (u, i) :: c.releasing := by rw [← h]
  simp only [hlock, map_none, map_some, reduceCtorEq, if_false,
    some_inj] at hheld
  rw [uses, uses, hw, hr, countP_cons_key fun x : Use × Fin nbuf ↦ x.1.agent]
  dsimp only
  omega

theorem uses_brelse (h : c.brelse u i = some c') (a : Agent) :
    c'.uses a + (if u.agent = a then 1 else 0) = c.uses a := by
  rw [brelse, ite_none_right_eq_some, some_inj] at h
  obtain ⟨hmem, h⟩ := h
  have hheld := heldBy_update c' i { c.buf i with refcnt := (c.buf i).refcnt - 1 }
    (by rw [← h]; rfl) a
  have hw : c'.waiting = c.waiting := by rw [← h]; rfl
  have hr : c'.releasing = c.releasing.erase (u, i) := by rw [← h]
  have herase := countP_erase_key (fun x : Use × Fin nbuf ↦ x.1.agent) hmem a
  dsimp only at herase
  dsimp only at hheld
  rw [uses, uses, hw, hr]
  omega

/-- A holder that does something to its buffer still holds it. -/
theorem map_agent_of_holds (h : c.Holds u i) :
    (c.buf i).lock.map (fun h ↦ h.agent) = some u.agent := by
  rcases h with h | h <;> rw [h] <;> rfl

theorem uses_bread (h : c.bread u i = some c') (a : Agent) : c'.uses a = c.uses a := by
  rw [bread, ite_none_right_eq_some, some_inj] at h
  obtain ⟨hlock, h⟩ := h
  have hbuf := congrArg Cache.buf h
  refine uses_of_setBuf hbuf.symm ?_ (by rw [← h]; rfl) (by rw [← h]; rfl) a
  rw [hlock]
  rfl

/-- The holder of buffer `i` replaces it and still holds it. -/
theorem uses_of_holds {x : Buf} (hlock : c.Holds u i) (hbuf : c'.buf = update c.buf i x)
    (hx : x.lock.map (fun h ↦ h.agent) = some u.agent) (hw : c'.waiting = c.waiting)
    (hr : c'.releasing = c.releasing) (a : Agent) : c'.uses a = c.uses a :=
  uses_of_setBuf hbuf (hx.trans (map_agent_of_holds hlock).symm) hw hr a

theorem uses_modify {v : Block} (h : c.modify u i v = some c') (a : Agent) :
    c'.uses a = c.uses a := by
  rw [modify, ite_none_right_eq_some, some_inj] at h
  obtain ⟨hlock, h⟩ := h
  exact uses_of_holds hlock (congrArg Cache.buf h).symm rfl (by rw [← h]; rfl) (by rw [← h]; rfl) a

theorem uses_bwrite (h : c.bwrite u i = some c') (a : Agent) : c'.uses a = c.uses a := by
  rw [bwrite, ite_none_right_eq_some, some_inj] at h
  obtain ⟨hlock, h⟩ := h
  exact uses_of_holds hlock (congrArg Cache.buf h).symm rfl (by rw [← h]; rfl) (by rw [← h]; rfl) a

theorem uses_logWrite {pin : Bool} (h : c.logWrite u i pin = some c') (a : Agent) :
    c'.uses a = c.uses a := by
  rw [logWrite, ite_none_right_eq_some, some_inj] at h
  obtain ⟨hlock, h⟩ := h
  exact uses_of_holds hlock (congrArg Cache.buf h).symm rfl (by rw [← h]; rfl) (by rw [← h]; rfl) a

theorem uses_bunpin (h : c.bunpin u i = some c') (a : Agent) : c'.uses a = c.uses a := by
  rw [bunpin, ite_none_right_eq_some, some_inj] at h
  obtain ⟨hlock, h⟩ := h
  exact uses_of_holds hlock (congrArg Cache.buf h).symm (map_agent_of_holds hlock)
    (by rw [← h]; rfl) (by rw [← h]; rfl) a

/-- Without uses there are only the references of the log. -/
theorem refs_eq_zero (h : ∀ a, c.uses a = 0) (i : Fin nbuf) : c.refs [] i = 0 := by
  have hw : c.waiting.countP (·.2 = i) = 0 := by
    refine countP_eq_zero.2 fun w hw _ ↦ ?_
    have hzero := h w.1.agent
    have hpos : 0 < c.waiting.countP (·.1.agent = w.1.agent) :=
      countP_pos_iff.2 ⟨w, hw, by simp⟩
    rw [uses] at hzero
    omega
  have hr : c.releasing.countP (·.2 = i) = 0 := by
    refine countP_eq_zero.2 fun w hw _ ↦ ?_
    have hzero := h w.1.agent
    have hpos : 0 < c.releasing.countP (·.1.agent = w.1.agent) :=
      countP_pos_iff.2 ⟨w, hw, by simp⟩
    rw [uses] at hzero
    omega
  have hl : (c.buf i).lock = none := by
    cases hlock : (c.buf i).lock with
    | none => rfl
    | some k =>
      have hzero := h k.agent
      have hle : (if (c.buf i).lock.map (fun h ↦ h.agent) = some k.agent then 1 else 0) ≤
          c.heldBy k.agent :=
        Finset.single_le_sum
          (f := fun j ↦ if (c.buf j).lock.map (fun h ↦ h.agent) = some k.agent then 1 else 0)
          (fun _ _ ↦ Nat.zero_le _) (Finset.mem_univ i)
      rw [hlock, map_some, if_pos rfl] at hle
      rw [uses] at hzero
      omega
  rw [refs, hw, hr, hl, count_nil, ite_self]
  rfl

end Cache

/-! ### The buffers `commit` uses -/

/-- The calls of `bget` in the code. -/
def gets (code : List Cmd) : ℕ := code.countP fun
  | .bget _ => true
  | _ => false

/-- The calls of `brelse` in the code. -/
def drops (code : List Cmd) : ℕ := code.countP fun
  | .brelse _ => true
  | _ => false

theorem gets_cons (cmd : Cmd) (code : List Cmd) : gets (cmd :: code) = gets [cmd] + gets code := by
  rw [gets, gets, gets, ← countP_append, singleton_append]

theorem drops_cons (cmd : Cmd) (code : List Cmd) :
    drops (cmd :: code) = drops [cmd] + drops code := by
  rw [drops, drops, drops, ← countP_append, singleton_append]

/-- Every `bget` of the code is for a block that is still pinned, or is made when the commit uses no
buffer. -/
def Fits : List Cmd → Prop
  | [] => True
  | .bget b :: code => (b ∈ unpins code ∨ drops code = gets code + 1) ∧ Fits code
  | _ :: code => Fits code

theorem Fits.tail {cmd : Cmd} {code : List Cmd} (h : Fits (cmd :: code)) : Fits code := by
  cases cmd with
  | bget b => exact h.2
  | _ => exact h

/-- The code fits, and everything it takes it gives back. -/
def FitsAll (code : List Cmd) : Prop := Fits code ∧ drops code = gets code

theorem fitsAll_writeHeadCmds (start : ℕ) {code : List Cmd} (h : FitsAll code) :
    FitsAll (writeHeadCmds start ++ code) := by
  obtain ⟨hfits, hbal⟩ := h
  simp only [writeHeadCmds, breadCmds, brelseCmds, cons_append, nil_append, FitsAll, Fits]
  rw [drops, gets] at hbal
  refine ⟨⟨Or.inr ?_, hfits⟩, ?_⟩ <;>
    simpa [drops, gets, countP_cons] using hbal

theorem fitsAll_writeLogCmds (start tail : ℕ) {lh : List ℕ} {code : List Cmd} (h : FitsAll code)
    (hlh : ∀ b ∈ lh, b ∈ unpins code) : FitsAll (writeLogCmds start tail lh ++ code) := by
  induction lh generalizing tail with
  | nil => exact h
  | cons b bs ih =>
    obtain ⟨hfits, hbal⟩ := ih (tail + 1) fun x hx ↦ hlh x (mem_cons_of_mem b hx)
    have hb : b ∈ unpins (writeLogCmds start (tail + 1) bs ++ code) := by
      rw [unpins_append]
      exact mem_append_right _ (hlh b mem_cons_self)
    simp only [writeLogCmds, breadCmds, brelseCmds, cons_append, nil_append, FitsAll, Fits]
    rw [drops, gets] at hbal
    refine ⟨⟨Or.inr ?_, Or.inl ?_, hfits⟩, ?_⟩
    · simpa [drops, gets, countP_cons] using hbal
    · exact hb
    · simpa [drops, gets, countP_cons] using hbal

theorem fitsAll_installTransCmds (start tail : ℕ) (lh : List ℕ) {code : List Cmd}
    (h : FitsAll code) : FitsAll (installTransCmds start tail lh ++ code) := by
  induction lh generalizing tail with
  | nil => exact h
  | cons b bs ih =>
    obtain ⟨hfits, hbal⟩ := ih (tail + 1)
    simp only [installTransCmds, breadCmds, brelseCmds, cons_append, nil_append, FitsAll,
      Fits]
    rw [drops, gets] at hbal
    refine ⟨⟨Or.inr ?_, Or.inl ?_, hfits⟩, ?_⟩
    · simpa [drops, gets, countP_cons] using hbal
    · simp [unpins]
    · simpa [drops, gets, countP_cons] using hbal

theorem fitsAll_commitCmds (start : ℕ) (lh : List ℕ) : FitsAll (commitCmds start lh) := by
  have hfinish : FitsAll [.finish] := ⟨trivial, rfl⟩
  rw [commitCmds]
  split_ifs
  · simp only [append_assoc]
    have hclear : FitsAll ([.clear] ++ (writeHeadCmds start ++ [.finish])) :=
      fitsAll_writeHeadCmds start hfinish
    refine fitsAll_writeLogCmds start 0
      (fitsAll_writeHeadCmds start (fitsAll_installTransCmds start 0 lh hclear)) fun b hb ↦ ?_
    rw [unpins_append, unpins_append, unpins_installTransCmds]
    exact mem_append_right _ (mem_append_left _ hb)
  · exact hfinish

theorem uses_exec {c : Cache} {l : Log} {i j : Fin nbuf} {cmd : Cmd} {r : Cache × Log}
    (h : cmd.exec c l i j = some r) :
    (∀ p, r.1.uses (.proc p) = c.uses (.proc p)) ∧
      r.1.uses .commit + drops [cmd] = c.uses .commit + gets [cmd] := by
  have quiet : (∀ a, r.1.uses a = c.uses a) → drops [cmd] = gets [cmd] →
      (∀ p, r.1.uses (.proc p) = c.uses (.proc p)) ∧
        r.1.uses .commit + drops [cmd] = c.uses .commit + gets [cmd] := fun hu hd ↦
    ⟨fun p ↦ hu _, by rw [hu, hd]⟩
  cases cmd with
  | bget b =>
    have hu := uses_bget (CacheLog.exec_map h).1
    have hg : gets [Cmd.bget b] = 1 := rfl
    have hd : drops [Cmd.bget b] = 0 := rfl
    exact ⟨fun p ↦ by rw [hu, if_neg (by simp), add_zero],
      by rw [hu, if_pos rfl, hg, hd, add_zero]⟩
  | acquiresleep b => exact quiet (uses_acquiresleep (CacheLog.exec_map h).1) rfl
  | bread b => exact quiet (uses_bread (CacheLog.exec_map h).1) rfl
  | memmove dst src =>
    rw [Cmd.exec, ite_none_right_eq_some] at h
    exact quiet (uses_modify (CacheLog.exec_map h.2).1) rfl
  | fillHead b => exact quiet (uses_modify (CacheLog.exec_map h).1) rfl
  | bwrite b => exact quiet (uses_bwrite (CacheLog.exec_map h).1) rfl
  | bunpin b => exact quiet (uses_bunpin (CacheLog.exec_map h).1) rfl
  | releasesleep b => exact quiet (uses_releasesleep (CacheLog.exec_map h).1) rfl
  | brelse b =>
    have hu := uses_brelse (CacheLog.exec_map h).1
    have hg : gets [Cmd.brelse b] = 0 := rfl
    have hd : drops [Cmd.brelse b] = 1 := rfl
    exact ⟨fun p ↦ by rw [← hu (.proc p), if_neg (by simp), add_zero],
      by rw [← hu .commit, if_pos rfl, hg, hd, add_zero]⟩
  | clear => cases h; exact quiet (fun _ ↦ rfl) rfl
  | finish => cases h; exact quiet (fun _ ↦ rfl) rfl

/-! ### The contract -/

namespace CacheLog

/-- A process calls `log_write` on a buffer it holds, and `log_write` panics with "too big a
transaction". -/
def TooBig (s : CacheLog) : Prop :=
  ∃ p b i, p ∈ s.inOp ∧ s.cache.Holds ⟨.proc p, b⟩ i ∧ s.log.logWrite b = .error .tooBig

/-- The running commit calls `bget`, and `bget` panics with "bget: no buffers". -/
def NoBuffers (s : CacheLog) : Prop :=
  ∃ c ∈ s.commit, ∃ b, c.code.head? = some (.bget b) ∧ (∀ j, ¬s.cache.Caches j b) ∧
    ∀ j, (s.cache.buf j).refcnt ≠ 0

/-- What a step of a process does to the uses of buffers. -/
theorem uses_step {start : ℕ} {s t : CacheLog} {e : CacheEvent} (h : step start s e = some t)
    (he : ∀ i j, e ≠ .commit i j) :
    t.cache.uses .commit = s.cache.uses .commit ∧
      ∀ p, t.cache.uses (.proc p) ≠ 0 → s.cache.uses (.proc p) ≠ 0 ∨ ∃ b i, e = .bget p b i := by
  have quiet : (∀ a, t.cache.uses a = s.cache.uses a) →
      t.cache.uses .commit = s.cache.uses .commit ∧
        ∀ p, t.cache.uses (.proc p) ≠ 0 →
          s.cache.uses (.proc p) ≠ 0 ∨ ∃ b i, e = .bget p b i := fun hu ↦
    ⟨hu _, fun p hp ↦ Or.inl (by rwa [hu] at hp)⟩
  cases e with
  | bget p b i =>
    obtain ⟨-, c, hc, rfl⟩ := onCache_eq_some h
    have hu := uses_bget hc
    refine ⟨by rw [hu, if_neg (by simp), add_zero], fun q hq ↦ ?_⟩
    by_cases hpq : p = q
    · exact Or.inr ⟨b, i, by rw [hpq]⟩
    · rw [hu, if_neg (by simpa using hpq), add_zero] at hq
      exact Or.inl hq
  | acquiresleep p b i =>
    obtain ⟨-, c, hc, rfl⟩ := onCache_eq_some h
    exact quiet (uses_acquiresleep hc)
  | bread p b i =>
    obtain ⟨-, c, hc, rfl⟩ := onCache_eq_some h
    exact quiet (uses_bread hc)
  | modify p b i v =>
    obtain ⟨-, c, hc, rfl⟩ := onCache_eq_some h
    exact quiet (uses_modify hc)
  | bwrite p b i =>
    obtain ⟨-, c, hc, rfl⟩ := onCache_eq_some h
    exact quiet (uses_bwrite hc)
  | logWrite p b i =>
    obtain ⟨l, pin, -, -, -, c, hc, rfl⟩ := step_logWrite_eq_some h
    exact quiet (uses_logWrite hc)
  | releasesleep p b i =>
    obtain ⟨-, c, hc, rfl⟩ := onCache_eq_some h
    exact quiet (uses_releasesleep hc)
  | brelse p b i =>
    obtain ⟨-, c, hc, rfl⟩ := onCache_eq_some h
    have hu := uses_brelse hc
    refine ⟨by rw [← hu .commit, if_neg (by simp), add_zero], fun q hq ↦ Or.inl ?_⟩
    have hq' := hu (.proc q)
    change c.uses (.proc q) ≠ 0 at hq
    omega
  | beginOp p =>
    rw [step, ite_none_right_eq_some, map_eq_some_iff] at h
    obtain ⟨-, l, -, rfl⟩ := h
    exact quiet fun _ ↦ rfl
  | endOp p =>
    obtain ⟨l, doCommit, -, -, rfl⟩ := step_endOp_eq_some h
    exact quiet fun _ ↦ rfl
  | commit i j => exact absurd rfl (he i j)

end CacheLog

namespace Ledger

/-- The contract with a budget of `n` blocks: an operation logs at most `n` distinct blocks, and
only operations use the cache, with every buffer given back before `end_op`. -/
def InContract (n : ℕ) (s : Ledger) : CacheEvent → Prop
  | .logWrite p b _ => b ∈ s.logged p ∨ (s.logged p).length < n
  | .bget p _ _ => p ∈ s.sys.inOp
  | .endOp p => s.sys.cache.uses (.proc p) = 0
  | _ => True

instance (n : ℕ) (s : Ledger) (e : CacheEvent) : Decidable (s.InContract n e) :=
  match e with
  | .logWrite p b _ => inferInstanceAs (Decidable (b ∈ s.logged p ∨ (s.logged p).length < n))
  | .bget p _ _ => inferInstanceAs (Decidable (p ∈ s.sys.inOp))
  | .endOp p => inferInstanceAs (Decidable (s.sys.cache.uses (.proc p) = 0))
  | .acquiresleep .. | .bread .. | .modify .. | .bwrite .. | .releasesleep .. | .brelse ..
  | .beginOp _ | .commit .. => instDecidableTrue

/-- What the running commit has left to do. -/
def code (s : Ledger) : List Cmd := (s.sys.commit.map Committing.code).getD []

/-- The invariant of runs that keep to the contract. -/
structure ContractInv (n : ℕ) (s : Ledger) : Prop where
  book : LogBook n s
  logged : ∀ p ∈ s.sys.inOp,
    (∀ b ∈ s.logged p, b ∈ s.sys.log.lh) ∧ s.appended p ≤ (s.logged p).length
  users : ∀ p, s.sys.cache.uses (.proc p) ≠ 0 → p ∈ s.sys.inOp
  balance : s.sys.cache.uses .commit + gets s.code = drops s.code
  fits : Fits s.code

variable {n start : ℕ} {s t : Ledger} {e : CacheEvent}

theorem uses_binit (d : Disk) (a : Agent) : (binit d).uses a = 0 := by
  have hheld : (binit d).heldBy a = 0 := Finset.sum_eq_zero fun i _ ↦ rfl
  rw [uses, hheld]
  rfl

theorem contractInv_init (d : Disk) : ContractInv n (init d) where
  book := logBook_init d
  logged _ h := absurd h not_mem_nil
  users p h := absurd (uses_binit d _) h
  balance := by
    show (binit d).uses .commit + 0 = 0
    rw [uses_binit]
  fits := trivial

/-- A block that the operation has logged before is still in the log, so the contract bounds what it
appends. -/
theorem ContractInv.appends (h : ContractInv n s) (hrule : s.InContract n e)
    (hs : Ledger.step start s e = some t) : s.Appends n e := by
  cases e with
  | logWrite p b i =>
    cases CacheLog.logStep_of_step (step_eq_some hs).1 with
    | cache _ _ _ _ _ hwrite => exact absurd rfl (hwrite p b i)
    | logWrite _ _ _ _ _ hp =>
      obtain ⟨hsub, hle⟩ := h.logged p hp
      exact hrule.imp (hsub b) hle.trans_lt
  | _ => trivial

/-- What the operations have logged is in the log. -/
theorem ContractInv.logged_step (h : ContractInv n s) (hs : Ledger.step start s e = some t) :
    ∀ p ∈ t.sys.inOp, (∀ b ∈ t.logged p, b ∈ t.sys.log.lh) ∧
      t.appended p ≤ (t.logged p).length := by
  obtain ⟨hs, hlogged, happ⟩ := step_eq_some hs
  intro p hp
  cases CacheLog.logStep_of_step hs with
  | cache _ hlog hops _ hbegin hwrite =>
    have hl : t.logged = s.logged := by
      rw [hlogged]
      cases e with
      | beginOp p => exact absurd rfl (hbegin p)
      | logWrite p b i => exact absurd rfl (hwrite p b i)
      | _ => rfl
    rw [appendedAfter_eq hbegin hwrite] at happ
    rw [hl, happ, hlog]
    exact h.logged p (hops ▸ hp)
  | beginOp q hlog _ hops =>
    obtain ⟨-, -, hl⟩ := Log.beginOp_eq_some hlog
    rw [hlogged, happ, hl, loggedAfter, appendedAfter]
    by_cases hpq : p = q
    · rw [hpq, update_self, update_self]
      exact ⟨fun b hb ↦ absurd hb not_mem_nil, le_rfl⟩
    · rw [update_of_ne hpq, update_of_ne hpq]
      rw [hops] at hp
      exact h.logged p ((mem_cons.1 hp).resolve_left hpq)
  | logWrite q b i pin hlog hq hops =>
    rw [hops] at hp
    obtain ⟨hsub, hle⟩ := h.logged p hp
    obtain ⟨-, -, hl⟩ := Log.logWrite_eq_ok hlog
    have hgrow : ∀ x, x ∈ s.sys.log.lh ∨ x = b → x ∈ t.sys.log.lh := by
      intro x hx
      rcases hl with ⟨-, hb, hl⟩ | ⟨-, -, hl⟩
      · rw [hl]
        rcases hx with hx | rfl
        · exact hx
        · exact hb
      · rw [hl]
        exact mem_append.2 (hx.imp_right fun hx ↦ mem_singleton.2 hx)
    rw [hlogged, happ, loggedAfter, appendedAfter]
    by_cases hpq : p = q
    · subst hpq
      by_cases hmem : b ∈ s.logged p
      · rw [if_pos hmem, if_pos (hsub b hmem)]
        exact ⟨fun x hx ↦ hgrow x (Or.inl (hsub x hx)), hle⟩
      · rw [if_neg hmem, update_self]
        refine ⟨fun x hx ↦ hgrow x ?_, ?_⟩
        · exact (mem_cons.1 hx).symm.imp_left (hsub x)
        · rw [length_cons]
          split_ifs
          · omega
          · rw [update_self]
            omega
    · have hlp : (if b ∈ s.logged q then s.logged else
          update s.logged q (b :: s.logged q)) p = s.logged p := by
        split_ifs
        · rfl
        · rw [update_of_ne hpq]
      have hap : (if b ∈ s.sys.log.lh then s.appended else
          update s.appended q (s.appended q + 1)) p = s.appended p := by
        split_ifs
        · rfl
        · rw [update_of_ne hpq]
      rw [hlp, hap]
      exact ⟨fun x hx ↦ hgrow x (Or.inl (hsub x hx)), hle⟩
  | endOp q doCommit hlog _ hops =>
    obtain ⟨-, hl⟩ := Log.endOp_eq_ok hlog
    have hlh : t.sys.log.lh = s.sys.log.lh := by
      rcases hl with ⟨-, -, hl⟩ | ⟨-, -, hl⟩ <;> rw [hl]
    rw [hlogged, happ, hlh]
    exact h.logged p (mem_of_mem_erase (hops ▸ hp))
  | commit i j q cmd code hsome _ hops =>
    -- nobody is in an operation
    rw [hops, h.book.inOp_eq_nil (by rw [hsome]; rfl)] at hp
    exact absurd hp not_mem_nil

theorem ContractInv.step (h : ContractInv n s) (hn : n ≤ maxOpBlocks) (hrule : s.InContract n e)
    (hs : Ledger.step start s e = some t) : ContractInv n t := by
  have hbook := h.book.step hn (h.appends hrule hs) hs
  have hlogged := h.logged_step hs
  obtain ⟨hs, -, -⟩ := step_eq_some hs
  have keep (hcommit : t.sys.commit = s.sys.commit) (hne : ∀ i j, e ≠ .commit i j)
      (husers : ∀ q, t.sys.cache.uses (.proc q) ≠ 0 → q ∈ t.sys.inOp) : ContractInv n t := by
    have hcode : t.code = s.code := by rw [Ledger.code, hcommit, Ledger.code]
    refine ⟨hbook, hlogged, husers, ?_, by rw [hcode]; exact h.fits⟩
    rw [(CacheLog.uses_step hs hne).1, hcode]
    exact h.balance
  cases CacheLog.logStep_of_step hs with
  | commit i j p cmd code hsome hlog hops hcommit =>
    obtain ⟨p', cmd', code', r, hsome', hr, ht⟩ := CacheLog.commitStep_eq_some hs
    obtain ⟨rfl, rfl⟩ : cmd = cmd' ∧ code = code' := by
      rw [hsome, some_inj, Committing.mk.injEq, List.cons.injEq] at hsome'
      exact hsome'.2
    obtain ⟨hproc, hcom⟩ := uses_exec hr
    have hcache : t.sys.cache = r.1 := by rw [ht]
    have hscode : s.code = cmd :: code := by rw [Ledger.code, hsome]; rfl
    have htcode : t.code = code := by
      rw [Ledger.code, hcommit]
      split_ifs with hnil
      · exact hnil.symm
      · rfl
    refine ⟨hbook, hlogged, fun q hq ↦ ?_, ?_, ?_⟩
    · rw [hcache, hproc] at hq
      rw [hops]
      exact h.users q hq
    · have hbal := h.balance
      rw [hscode, gets_cons, drops_cons] at hbal
      rw [hcache, htcode]
      omega
    · rw [htcode]
      exact (hscode ▸ h.fits).tail
  | endOp p doCommit hlog hp hops hcommit =>
    obtain ⟨hcom, hproc⟩ := CacheLog.uses_step hs (by simp)
    have hnone : s.sys.commit = none := h.book.commit_eq_none hp
    have hscode : s.code = [] := by rw [Ledger.code, hnone]; rfl
    have hbal : s.sys.cache.uses .commit + 0 = 0 := by
      have hbal := h.balance
      rwa [hscode] at hbal
    have htcode : FitsAll t.code := by
      rw [Ledger.code, hcommit]
      cases doCommit with
      | true => exact fitsAll_commitCmds start _
      | false =>
        rw [if_neg (by decide), hnone]
        exact ⟨trivial, rfl⟩
    refine ⟨hbook, hlogged, fun q hq ↦ ?_, ?_, htcode.1⟩
    · have hsq := (hproc q hq).resolve_right (by simp)
      have hqp : q ≠ p := by
        rintro rfl
        exact hsq hrule
      rw [hops, mem_erase_of_ne hqp]
      exact h.users q hsq
    · have hall := htcode.2
      rw [hcom]
      omega
  | beginOp p hlog hp hops hcommit =>
    refine keep hcommit (by simp) fun q hq ↦ ?_
    rw [hops]
    have hproc := (CacheLog.uses_step hs (by simp)).2 q hq
    exact mem_cons_of_mem p (h.users q (hproc.resolve_right (by simp)))
  | logWrite p b i pin hlog hp hops hcommit =>
    refine keep hcommit (by simp) fun q hq ↦ ?_
    rw [hops]
    exact h.users q (((CacheLog.uses_step hs (by simp)).2 q hq).resolve_right (by simp))
  | cache _ hlog hops hcommit hbegin hwrite hne =>
    refine keep hcommit hne fun q hq ↦ ?_
    rw [hops]
    rcases (CacheLog.uses_step hs hne).2 q hq with hsq | ⟨b, i, rfl⟩
    · exact h.users q hsq
    · exact hrule

/-- When nobody uses the cache, a buffer that is referenced has a pinned block, so there are no more
such buffers than blocks in the log. -/
theorem ContractInv.exists_unreferenced (h : ContractInv n s)
    (hlen : s.sys.log.lh.length < nbuf) (huses : ∀ a, s.sys.cache.uses a = 0) :
    ∃ j, (s.sys.cache.buf j).refcnt = 0 := by
  by_contra hall
  rw [not_exists] at hall
  obtain ⟨B, hB⟩ := h.book.coherent
  have hpin : ∀ j, (s.sys.cache.buf j).dev = rootDev ∧
      (s.sys.cache.buf j).blockno ∈ s.sys.log.lh := by
    intro j
    have hj := hall j
    rw [h.book.refcnt_eq j, refs_eq_zero huses j, zero_add] at hj
    split_ifs at hj with hdev
    · have hmem : (s.sys.cache.buf j).blockno ∈ s.sys.pins :=
        count_pos_iff.1 (Nat.pos_of_ne_zero hj)
      exact ⟨hdev, (((h.book.count_pins _).2).1 hmem).1⟩
    · exact absurd rfl hj
  have hinj : Function.Injective fun j ↦ (s.sys.cache.buf j).blockno := fun i j hij ↦
    hB.cache.unique ⟨(hpin i).1, hij⟩ ⟨(hpin j).1, rfl⟩
  have hsub : Finset.univ.image (fun j ↦ (s.sys.cache.buf j).blockno) ⊆ s.sys.log.lh.toFinset :=
    fun b hb ↦ by
      obtain ⟨j, -, rfl⟩ := Finset.mem_image.1 hb
      exact mem_toFinset.2 (hpin j).2
  have hcard := Finset.card_le_card hsub
  rw [Finset.card_image_of_injective _ hinj, Finset.card_univ, Fintype.card_fin] at hcard
  have hle := toFinset_card_le s.sys.log.lh
  omega

/-- **One block less per operation is enough.** In every run in which each operation logs at most
`MAXOPBLOCKS - 1` distinct blocks and only operations use the buffer cache, no `log_write` finds the
log full and no `bget` of a commit finds the cache full. -/
theorem not_tooBig_not_noBuffers {d : Disk} {es : List CacheEvent}
    (hrun : runSteps (restrictSteps (Ledger.step start) (InContract (maxOpBlocks - 1))) (init d)
      es = some s) : ¬s.sys.TooBig ∧ ¬s.sys.NoBuffers := by
  have h : ContractInv (maxOpBlocks - 1) s :=
    runSteps_invariant (contractInv_init d) (fun _ _ _ hr hs ↦
      hr.step (by decide) (restrictSteps_eq_some hs).1 (restrictSteps_eq_some hs).2) hrun
  have hlen : s.sys.log.lh.length + 2 ≤ 30 := by
    have hbudget := h.book.budget
    change _ + _ + 2 * (10 - (10 - 1)) ≤ 30 at hbudget
    omega
  constructor
  · rintro ⟨p, b, i, -, -, hpanic⟩
    rw [Log.logWrite] at hpanic
    split_ifs at hpanic with hfull
    · change _ ≥ 30 at hfull
      omega
    · cases hpanic
  · rintro ⟨c, hc, b, hhead, hcached, hrefs⟩
    obtain ⟨rest, hcode⟩ : ∃ rest, c.code = .bget b :: rest := by
      cases hcc : c.code with
      | nil => rw [hcc] at hhead; cases hhead
      | cons cmd rest =>
        rw [hcc, List.head?_cons, Option.some_inj] at hhead
        exact ⟨rest, by rw [hhead]⟩
    have hsome : s.sys.commit = some c := hc
    have hscode : s.code = .bget b :: rest := by
      rw [Ledger.code, hsome, Option.map_some, Option.getD_some, hcode]
    have hfits := h.fits
    have hbal := h.balance
    rw [hscode] at hfits hbal
    rcases hfits.1 with hpin | hfree
    · -- a pinned block is cached
      obtain ⟨B, hB⟩ := h.book.coherent
      obtain ⟨j, hj⟩ := hB.cache.pinned b (by
        rw [CacheLog.pins, hsome]
        show b ∈ unpins c.code
        rw [hcode]
        exact (unpins_sublist_cons _ rest).subset hpin)
      exact hcached j hj
    · have hcommit : s.sys.cache.uses .commit = 0 := by
        have hg : gets [Cmd.bget b] = 1 := rfl
        have hd : drops [Cmd.bget b] = 0 := rfl
        rw [gets_cons, drops_cons, hg, hd] at hbal
        omega
      have huses : ∀ a, s.sys.cache.uses a = 0 := by
        intro a
        cases a with
        | commit => exact hcommit
        | proc p =>
          by_contra hp
          have hmem := h.users p hp
          rw [h.book.inOp_eq_nil (by rw [hsome]; rfl)] at hmem
          exact List.not_mem_nil hmem
      obtain ⟨j, hj⟩ := h.exists_unreferenced (by show _ < 30; omega) huses
      exact hrefs j hj

/-- Process `p` logs ten blocks of its own, one after the other, in ten buffers of its own. -/
def logsTen (buf : ℕ → Fin nbuf) (p : ℕ) : List CacheEvent :=
  (List.range 10).flatMap fun k ↦ logsBlock p (40 + 10 * p + k) (buf (10 * p + k))

/-- Three operations fill the log; the last one still holds its last buffer. -/
def fillsLog (buf : ℕ → Fin nbuf) : List CacheEvent :=
  [.beginOp 0, .beginOp 1, .beginOp 2] ++ logsTen buf 0 ++ logsTen buf 1 ++
    (logsTen buf 2).dropLast.dropLast

/-- The same, and then all of them end. -/
def fillsCache (buf : ℕ → Fin nbuf) : List CacheEvent :=
  fillsLog buf ++ [.releasesleep 2 69 (buf 29), .brelse 2 69 (buf 29), .endOp 0, .endOp 1, .endOp 2]

/-- With `MAXOPBLOCKS` blocks per operation both panics happen: `log_write` of a block that is
already in the log, and the first `bget` of `write_log`. -/
theorem tooBig_and_noBuffers :
    (∃ s, runSteps (restrictSteps (Ledger.step 2) (InContract maxOpBlocks)) (init fun _ ↦ 0)
        (fillsLog (Fin.ofNat nbuf)) = some s ∧ s.sys.TooBig) ∧
      ∃ s, runSteps (restrictSteps (Ledger.step 2) (InContract maxOpBlocks)) (init fun _ ↦ 0)
        (fillsCache (Fin.ofNat nbuf)) = some s ∧ s.sys.NoBuffers := by
  have hlog : ∃ s ∈ runSteps (restrictSteps (Ledger.step 2) (InContract maxOpBlocks))
      (init fun _ ↦ 0) (fillsLog (Fin.ofNat nbuf)), 2 ∈ s.sys.inOp ∧
        s.sys.cache.Holds ⟨.proc 2, 69⟩ (Fin.ofNat nbuf 29) ∧
        s.sys.log.logWrite 69 = .error .tooBig := by decide +kernel
  have hcache : ∃ s ∈ runSteps (restrictSteps (Ledger.step 2) (InContract maxOpBlocks))
      (init fun _ ↦ 0) (fillsCache (Fin.ofNat nbuf)),
        (s.sys.commit.bind fun c ↦ c.code.head?) = some (.bget 3) ∧
        (∀ j, ¬s.sys.cache.Caches j 3) ∧ ∀ j, (s.sys.cache.buf j).refcnt ≠ 0 := by decide +kernel
  obtain ⟨s, hs, hp, hheld, hpanic⟩ := hlog
  obtain ⟨t, ht, hhead, hcached, hrefs⟩ := hcache
  obtain ⟨c, hc, hhead⟩ := Option.bind_eq_some_iff.1 hhead
  exact ⟨⟨s, hs, 2, 69, _, hp, hheld, hpanic⟩, t, ht, c, hc, 3, hhead, hcached, hrefs⟩

theorem not_tooBig_not_noBuffers_committing :
    ∃ s, runSteps (restrictSteps (Ledger.step 2) (InContract (maxOpBlocks - 1))) (init fun _ ↦ 0)
        ([.beginOp 1] ++ logsBlock 1 40 (Fin.ofNat nbuf 0) ++ [.endOp 1]) = some s ∧
      s.sys.commit.isSome ∧ ¬s.sys.TooBig ∧ ¬s.sys.NoBuffers := by
  have hsome : ∃ s ∈ runSteps (restrictSteps (Ledger.step 2) (InContract (maxOpBlocks - 1)))
      (init fun _ ↦ 0) ([.beginOp 1] ++ logsBlock 1 40 (Fin.ofNat nbuf 0) ++ [.endOp 1]),
      s.sys.commit.isSome := by decide +kernel
  obtain ⟨s, hs, hc⟩ := hsome
  exact ⟨s, hs, hc, not_tooBig_not_noBuffers hs⟩

end Ledger

end Xv6

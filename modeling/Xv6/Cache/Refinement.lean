import Xv6.Cache.Transparent

/-!
# Cache and log refine an array of blocks

The result over whole runs. Whatever the processes do and whichever buffers are recycled, a `bread`
that returns has the data that the last holder of its block left. A commit counts as a holder here,
and if the processes keep to `Disciplined`, it makes no difference to a home block whether it does:
the blocks are an array that only the processes' own releases write to.
-/

namespace Xv6

namespace CacheLog

theorem processLeaves_commit (s : CacheLog) (i j : Fin nbuf) :
    s.processLeaves (.commit i j) = none := by
  rw [processLeaves, leaves?]
  split <;> rfl

theorem transparent_step {start : ℕ} {B C : Disk} {s t : CacheLog} {e : CacheEvent}
    (h : Transparent start B C s) (hco : Coherent B s) (hd : Disciplined start s e)
    (hs : step start s e = some t) :
    Transparent start (applyWrites (s.leaves e).toList B)
      (applyWrites (s.processLeaves e).toList C) t := by
  cases e with
  | commit i j =>
    rw [processLeaves_commit]
    exact h.commitStep hco hs
  | _ => exact h.processStep hco (by simp) hd hs

theorem transparent_run {start : ℕ} {d : Disk} {es : List CacheEvent} {s : CacheLog}
    (h : runSteps (restrictSteps (step start) (Disciplined start)) (init d) es = some s) :
    Transparent start (lastLeft start d es) (lastLeftByProcess start d es) s :=
  runSteps_traceInvariant
    (I := fun es s ↦ Transparent start (lastLeft start d es) (lastLeftByProcess start d es) s)
    (Transparent.init start d)
    (fun es r e t hr ht hs ↦ by
      obtain ⟨hd, hs⟩ := restrictSteps_eq_some hs
      have hr := runSteps_of_restrictSteps hr
      rw [lastLeft, lastLeftByProcess, observations_concat hr, observations_concat hr,
        applyWrites_append, applyWrites_append]
      exact transparent_step ht (coherent_run hr) hd hs) h

/-- **The cache and the log refine a plain array of blocks.** In every run, of any processes and
with any choice of buffers to recycle, a `bread` that returns has exactly the data that the most
recent holder of the block's buffer left, or the initial contents of the disk. If the processes are
`Disciplined`, commits are invisible to them: the data is what the most recent *process* left. -/
theorem bread_eq_lastLeft {start : ℕ} {d : Disk} {es : List CacheEvent} {s t : CacheLog}
    {e : CacheEvent} {b : ℕ} {i : Fin nbuf} (hrun : runSteps (step start) (init d) es = some s)
    (hstep : step start s e = some t) (hbread : s.breads e = some (b, i)) :
    (t.cache.buf i).data = lastLeft start d es b ∧
      (runSteps (restrictSteps (step start) (Disciplined start)) (init d) es = some s →
        OutsideLog start b → (t.cache.buf i).data = lastLeftByProcess start d es b) := by
  have hdata := (coherent_run hrun).breads hstep hbread
  exact ⟨hdata, fun hd ho ↦ hdata.trans ((transparent_run hd).agree b ho)⟩

/-! ### A block outlives its buffer -/

/-- A whole `bread` of block `b` by process `p` into buffer `i`, without its last step. -/
def startBread (p b : ℕ) (i : Fin nbuf) : List CacheEvent :=
  [.bget p b i, .acquiresleep p b i]

/-- The steps of the running commit that use buffers `is`. -/
def commitSteps (is : List (Fin nbuf × Fin nbuf)) : List CacheEvent :=
  is.map fun r ↦ .commit r.1 r.2

/-- Process 1 changes block 40 in an operation, which commits; then its buffer `i` is recycled for
block 41, and process 2 is about to read block 40 again. -/
def recycledRun (i j k l : Fin nbuf) : List CacheEvent :=
  [.beginOp 1] ++ startBread 1 40 i ++
    [.bread 1 40 i, .modify 1 40 i 7, .logWrite 1 40 i, .releasesleep 1 40 i, .brelse 1 40 i,
      .endOp 1] ++
    commitSteps
      ([(j, j), (j, j), (j, j), (i, i), (i, i), (i, i), (j, i), (j, j), (i, i), (i, i), (j, j),
          (j, j)] ++
        List.replicate 7 (k, k) ++
        [(j, j), (j, j), (j, j), (i, i), (i, i), (i, i), (i, j), (i, i), (i, i), (j, j), (j, j),
          (i, i), (i, i)] ++
        [(i, i)] ++ List.replicate 7 (k, k) ++ [(i, i)]) ++
    startBread 2 41 i ++ [.bread 2 41 i] ++ startBread 2 40 l

theorem bread_eq_lastLeft_recycledRun :
    ∃ s t, runSteps (restrictSteps (step 2) (Disciplined 2)) (init fun _ ↦ 0)
        (recycledRun 0 1 2 3) = some s ∧
      step 2 s (.bread 2 40 3) = some t ∧
      (t.cache.buf 3).data = lastLeft 2 (fun _ ↦ 0) (recycledRun 0 1 2 3) 40 ∧
      (t.cache.buf 3).data = 7 := by
  have hsome : (runSteps (restrictSteps (step 2) (Disciplined 2)) (init fun _ ↦ 0)
      (recycledRun 0 1 2 3 ++ [.bread 2 40 3])).isSome := by decide +kernel
  obtain ⟨t, ht⟩ := Option.isSome_iff_exists.1 hsome
  obtain ⟨s, hs, hst⟩ := runSteps_concat_eq_some ht
  have hst := (restrictSteps_eq_some hst).2
  have hleft : lastLeftByProcess 2 (fun _ ↦ 0) (recycledRun 0 1 2 3) 40 = 7 := by decide +kernel
  obtain ⟨hall, hproc⟩ := bread_eq_lastLeft (runSteps_of_restrictSteps hs) hst rfl
  exact ⟨s, t, hs, hst, hall, (hproc hs (by decide)).trans hleft⟩

end CacheLog

end Xv6

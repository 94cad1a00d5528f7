import Xv6.Cache.Bio
import Xv6.Library.Run
import Xv6.Library.WriteSeq
import Xv6.Log.Commit
import Xv6.Log.State

/-!
# Processes over the cache and the log

Any number of processes call `bread`, change buffers in place, pass them to `log_write` between
`begin_op` and `end_op` or to `bwrite`, and call `brelse`. The last process to leave its operation
runs `commit` inside `end_op`, through the same cache: `commitCmds` is the code of `commit`,
`write_log`, `write_head` and `install_trans(0)` as the sequence of steps it makes. A panic is a
step that is not there, and a process asleep in `acquiresleep` or `begin_op` has no step.

A run shows which data each holder leaves in its buffer when it releases the sleep lock
(`CacheLog.leaves`), and in which buffer each `bread` returns its data (`CacheLog.breads`).
-/

namespace Xv6

/-! ### The code of `commit` -/

/-- A step of `commit`. The blocks name the buffers the code has in its variables. -/
inductive Cmd
  | bget (b : ℕ)
  | acquiresleep (b : ℕ)
  | bread (b : ℕ)
  /-- `memmove(dst->data, src->data, BSIZE)` -/
  | memmove (dst src : ℕ)
  /-- The loop of `write_head` that fills the header block from `log.lh`. -/
  | fillHead (b : ℕ)
  | bwrite (b : ℕ)
  | bunpin (b : ℕ)
  | releasesleep (b : ℕ)
  | brelse (b : ℕ)
  /-- `log.lh.n = 0` -/
  | clear
  /-- The second critical section of `end_op`. -/
  | finish
  deriving DecidableEq, Repr

/-- A whole call of `bread`. -/
def breadCmds (b : ℕ) : List Cmd :=
  [.bget b, .acquiresleep b, .bread b]

/-- A whole call of `brelse`. -/
def brelseCmds (b : ℕ) : List Cmd :=
  [.releasesleep b, .brelse b]

/-- `write_log` from `tail` on. -/
def writeLogCmds (start : ℕ) : ℕ → List ℕ → List Cmd
  | _, [] => []
  | tail, b :: bs =>
    breadCmds (start + tail + 1) ++ breadCmds b ++
      [.memmove (start + tail + 1) b, .bwrite (start + tail + 1)] ++
      brelseCmds b ++ brelseCmds (start + tail + 1) ++ writeLogCmds start (tail + 1) bs

/-- `install_trans(0)` from `tail` on. -/
def installTransCmds (start : ℕ) : ℕ → List ℕ → List Cmd
  | _, [] => []
  | tail, b :: bs =>
    breadCmds (start + tail + 1) ++ breadCmds b ++
      [.memmove b (start + tail + 1), .bwrite b, .bunpin b] ++
      brelseCmds (start + tail + 1) ++ brelseCmds b ++ installTransCmds start (tail + 1) bs

/-- `write_head`. -/
def writeHeadCmds (start : ℕ) : List Cmd :=
  breadCmds start ++ [.fillHead start, .bwrite start] ++ brelseCmds start

/-- `commit`, and what `end_op` does after it. -/
def commitCmds (start : ℕ) (lh : List ℕ) : List Cmd :=
  (if 0 < lh.length then
    writeLogCmds start 0 lh ++ writeHeadCmds start ++ installTransCmds start 0 lh ++
      [.clear] ++ writeHeadCmds start
  else []) ++ [.finish]

/-! ### The machine -/

/-- A `commit` in progress: the process that runs it, and what it has still to do. -/
structure Committing where
  pid : ℕ
  code : List Cmd
  deriving DecidableEq, Repr

/-- The cache, the log, the processes inside an operation, and the running commit. -/
structure CacheLog where
  cache : Cache
  log : Log
  inOp : List ℕ
  commit : Option Committing

/-- What can happen next; `i` is the buffer concerned. -/
inductive CacheEvent
  | bget (p b : ℕ) (i : Fin nbuf)
  | acquiresleep (p b : ℕ) (i : Fin nbuf)
  | bread (p b : ℕ) (i : Fin nbuf)
  | modify (p b : ℕ) (i : Fin nbuf) (v : Block)
  | bwrite (p b : ℕ) (i : Fin nbuf)
  | logWrite (p b : ℕ) (i : Fin nbuf)
  | releasesleep (p b : ℕ) (i : Fin nbuf)
  | brelse (p b : ℕ) (i : Fin nbuf)
  | beginOp (p : ℕ)
  | endOp (p : ℕ)
  /-- The running commit makes its next step; `j` is the second buffer of `memmove`. -/
  | commit (i j : Fin nbuf)
  deriving DecidableEq, Repr

/-- One step of the code of `commit`. -/
def Cmd.exec (c : Cache) (l : Log) (i j : Fin nbuf) : Cmd → Option (Cache × Log)
  | bget b => (c.bget ⟨.commit, b⟩ i).map (·, l)
  | acquiresleep b => (c.acquiresleep ⟨.commit, b⟩ i).map (·, l)
  | bread b => (c.bread ⟨.commit, b⟩ i).map (·, l)
  | memmove dst src =>
    if c.Holds ⟨.commit, src⟩ j then
      (c.modify ⟨.commit, dst⟩ i (c.buf j).data).map (·, l)
    else none
  | fillHead b => (c.modify ⟨.commit, b⟩ i (fillHeader (c.buf i).data l.lh)).map (·, l)
  | bwrite b => (c.bwrite ⟨.commit, b⟩ i).map (·, l)
  | bunpin b => (c.bunpin ⟨.commit, b⟩ i).map (·, l)
  | releasesleep b => (c.releasesleep ⟨.commit, b⟩ i).map (·, l)
  | brelse b => (c.brelse ⟨.commit, b⟩ i).map (·, l)
  | clear => some (c, l.clear)
  | finish => some (c, l.endCommit)

namespace CacheLog

/-- The machine after `binit` and `initlock` on disk `d`. -/
def init (d : Disk) : CacheLog where
  cache := Cache.binit d
  log := Log.init
  inOp := []
  commit := none

/-- Process `p` is not inside `commit`. -/
def Free (s : CacheLog) (p : ℕ) : Prop :=
  ∀ c ∈ s.commit, c.pid ≠ p

instance (s : CacheLog) (p : ℕ) : Decidable (s.Free p) :=
  inferInstanceAs (Decidable (∀ c ∈ s.commit, _))

/-- A step of process `p` on the cache. -/
def onCache (s : CacheLog) (p : ℕ) (c : Option Cache) : Option CacheLog :=
  if s.Free p then c.map fun c ↦ { s with cache := c } else none

/-- The running commit makes its next step. -/
def commitStep (s : CacheLog) (i j : Fin nbuf) : Option CacheLog :=
  match s.commit with
  | some ⟨p, cmd :: code⟩ => (cmd.exec s.cache s.log i j).map fun r ↦
      { s with
        cache := r.1
        log := r.2
        commit := if code = [] then none else some ⟨p, code⟩ }
  | _ => none

/-- One step. -/
def step (start : ℕ) (s : CacheLog) : CacheEvent → Option CacheLog
  | .bget p b i => s.onCache p (s.cache.bget ⟨.proc p, b⟩ i)
  | .acquiresleep p b i => s.onCache p (s.cache.acquiresleep ⟨.proc p, b⟩ i)
  | .bread p b i => s.onCache p (s.cache.bread ⟨.proc p, b⟩ i)
  | .modify p b i v => s.onCache p (s.cache.modify ⟨.proc p, b⟩ i v)
  | .bwrite p b i => s.onCache p (s.cache.bwrite ⟨.proc p, b⟩ i)
  | .logWrite p b i =>
    match s.log.logWrite b with
    | .ok (l, pin) =>
      if p ∈ s.inOp then
        (s.onCache p (s.cache.logWrite ⟨.proc p, b⟩ i pin)).map fun s ↦ { s with log := l }
      else none
    | .error _ => none
  | .releasesleep p b i => s.onCache p (s.cache.releasesleep ⟨.proc p, b⟩ i)
  | .brelse p b i => s.onCache p (s.cache.brelse ⟨.proc p, b⟩ i)
  | .beginOp p =>
    if s.Free p ∧ p ∉ s.inOp then
      s.log.beginOp.map fun l ↦ { s with
        log := l
        inOp := p :: s.inOp }
    else none
  | .endOp p =>
    if p ∈ s.inOp then
      match s.log.endOp with
      | .ok (l, doCommit) => some { s with
          log := l
          inOp := s.inOp.erase p
          commit := if doCommit then some ⟨p, commitCmds start l.lh⟩ else s.commit }
      | .error _ => none
    else none
  | .commit i j => s.commitStep i j

/-! ### What a run shows -/

/-- The use of a buffer that an event ends, with the buffer. -/
def leaves? (s : CacheLog) : CacheEvent → Option (Use × Fin nbuf)
  | .releasesleep p b i => some (⟨.proc p, b⟩, i)
  | .commit i _ =>
    match s.commit with
    | some ⟨_, .releasesleep b :: _⟩ => some (⟨.commit, b⟩, i)
    | _ => none
  | _ => none

/-- The block and the data that a holder leaves in an event. -/
def leaves (s : CacheLog) (e : CacheEvent) : Option (ℕ × Block) :=
  (s.leaves? e).map fun r ↦ (r.1.blockno, (s.cache.buf r.2).data)

/-- The same for the processes alone, without the buffers `commit` holds. -/
def processLeaves (s : CacheLog) (e : CacheEvent) : Option (ℕ × Block) :=
  ((s.leaves? e).filter fun r ↦ r.1.agent ≠ .commit).map fun r ↦
    (r.1.blockno, (s.cache.buf r.2).data)

/-- A `bread` that returns in an event: its block and its buffer. -/
def breads (s : CacheLog) : CacheEvent → Option (ℕ × Fin nbuf)
  | .bread _ b i => some (b, i)
  | .commit i _ =>
    match s.commit with
    | some ⟨_, .bread b :: _⟩ => some (b, i)
    | _ => none
  | _ => none

/-- The array of blocks after a run from disk `d`: the last data that a holder of each block left,
or what the disk held. -/
def lastLeft (start : ℕ) (d : Disk) (es : List CacheEvent) : Disk :=
  applyWrites (observations (step start) leaves (init d) es) d

/-- The same, counting only processes as holders and not `commit`. -/
def lastLeftByProcess (start : ℕ) (d : Disk) (es : List CacheEvent) : Disk :=
  applyWrites (observations (step start) processLeaves (init d) es) d

end CacheLog

end Xv6

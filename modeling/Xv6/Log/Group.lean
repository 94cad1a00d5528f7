import Mathlib.Data.Finset.Basic
import Xv6.Library.Run
import Xv6.Log.CrashAtomic
import Xv6.Log.State

/-!
# Group commit

Any number of operations run `begin_op`, modify buffers, pass each to `log_write`, and run `end_op`;
the last one to end runs `commit`. The steps are those the code makes atomic: the `log.lock`
critical sections, taking, updating and releasing a locked buffer, and single disk writes.
`buf` is what `bread` would return for each block. A panic stops the machine, so it is a step that
is not there, and a crash may come in any state.

The events of a run are kept as a list. `modifications` reads the buffer updates off it, and the
theorem says that recovery produces the initial disk with the modifications of a set of finished
operations, in the order they were made.
-/

namespace Xv6

/-- How far a running `commit` has come. Each of its steps is one disk write, apart from the last,
the second critical section of `end_op`. -/
inductive CommitPc
  /-- In `write_log`: the slots below `tail` are written; at the end of the list the header is
  next. -/
  | writeLog (tail : ℕ)
  /-- In `install_trans(0)`: the homes below `tail` are written; at the end of the list the cleared
  header is next. -/
  | installTrans (tail : ℕ)
  /-- Back in `end_op`. -/
  | finish
  deriving DecidableEq, Repr

/-- A locked buffer: its block, the operation that holds it, and whether it was modified since it
was last passed to `log_write`. -/
structure Held where
  blockno : ℕ
  op : ℕ
  dirty : Bool
  deriving DecidableEq, Repr

/-- The state of the log, the buffers and the operations. -/
structure GroupState where
  /-- The durable blocks. -/
  disk : Disk
  /-- The contents of the buffers, as `bread` returns them. -/
  buf : Disk
  log : Log
  /-- The running commit, if any. -/
  pc : Option CommitPc
  /-- The operations that have executed `begin_op`. -/
  begun : List ℕ
  /-- Those that have not executed `end_op` yet. -/
  active : List ℕ
  /-- The locked buffers. -/
  locks : List Held

/-- What can happen next. -/
inductive GroupEvent
  | beginOp (op : ℕ)
  | bread (op b : ℕ)
  | modify (op b : ℕ) (v : Block)
  | logWrite (op b : ℕ)
  | brelse (op b : ℕ)
  | endOp (op : ℕ)
  /-- The running commit makes its next step. -/
  | commit

namespace GroupState

/-- The machine after `initlog` on disk `d`. -/
def init (d : Disk) : GroupState where
  disk := d
  buf := d
  log := Log.init
  pc := none
  begun := []
  active := []
  locks := []

/-- Mark the buffer of block `b` as modified, or as passed to `log_write`. -/
def setDirty (b : ℕ) (dirty : Bool) (locks : List Held) : List Held :=
  locks.map fun h ↦ if h.blockno = b then { h with dirty := dirty } else h

/-- `commit` starts with `write_log`, unless there is nothing to write. -/
def commitStart (l : Log) : CommitPc :=
  if 0 < l.lh.length then .writeLog 0 else .finish

/-- The next step of the running commit. -/
def commitStep (start : ℕ) (s : GroupState) : Option GroupState :=
  match s.pc with
  | none => none
  | some (.writeLog tail) =>
    match s.log.lh[tail]? with
    | some b => some { s with
        disk := Function.update s.disk (start + tail + 1) (s.buf b)
        pc := some (.writeLog (tail + 1)) }
    | none => some { s with
        disk := Function.update s.disk start (fillHeader (s.disk start) s.log.lh)
        pc := some (.installTrans 0) }
  | some (.installTrans tail) =>
    match s.log.lh[tail]? with
    | some b => some { s with
        disk := Function.update s.disk b (s.disk (start + tail + 1))
        buf := Function.update s.buf b (s.disk (start + tail + 1))
        pc := some (.installTrans (tail + 1)) }
    | none => some { s with
        disk := Function.update s.disk start (fillHeader (s.disk start) [])
        log := s.log.clear
        pc := some .finish }
  | some .finish => some { s with
      log := s.log.endCommit
      pc := none }

/-- One step. Operation numbers are used once, block numbers are C `uint`s, and operations touch
home blocks only. -/
def step (start : ℕ) (s : GroupState) : GroupEvent → Option GroupState
  | .beginOp i =>
    if i ∈ s.begun then none
    else s.log.beginOp.map fun l ↦ { s with
      log := l
      begun := i :: s.begun
      active := i :: s.active }
  | .bread i b =>
    if i ∈ s.active ∧ OutsideLog start b ∧ b < 2 ^ 32 ∧ (∀ h ∈ s.locks, h.blockno ≠ b) then
      some { s with locks := ⟨b, i, false⟩ :: s.locks }
    else none
  | .modify i b v =>
    if ∃ h ∈ s.locks, h.blockno = b ∧ h.op = i then
      some { s with
        buf := Function.update s.buf b v
        locks := setDirty b true s.locks }
    else none
  | .logWrite i b =>
    if ∃ h ∈ s.locks, h.blockno = b ∧ h.op = i then
      match s.log.logWrite b with
      | .ok (l, _) => some { s with
          log := l
          locks := setDirty b false s.locks }
      | .error _ => none
    else none
  | .brelse i b =>
    if ∃ h ∈ s.locks, h.blockno = b ∧ h.op = i ∧ h.dirty = false then
      some { s with locks := s.locks.filter fun h ↦ h.blockno ≠ b }
    else none
  | .endOp i =>
    if i ∈ s.active ∧ ∀ h ∈ s.locks, h.op ≠ i then
      match s.log.endOp with
      | .ok (l, doCommit) => some { s with
          log := l
          active := s.active.erase i
          pc := if doCommit then some (commitStart l) else s.pc }
      | .error _ => none
    else none
  | .commit => s.commitStep start

end GroupState

/-! ### Reading a run -/

namespace GroupEvent

/-- The buffer update an event makes, if any. -/
def update? : GroupEvent → Option (ℕ × Block)
  | modify _ b v => some (b, v)
  | _ => none

/-- The buffer update an event makes on behalf of one of the operations `S`. -/
def updateOf? (S : Finset ℕ) : GroupEvent → Option (ℕ × Block)
  | modify i b v => if i ∈ S then some (b, v) else none
  | _ => none

end GroupEvent

/-- All buffer updates of a run, in the order they were made. -/
def allModifications (tr : List GroupEvent) : List (ℕ × Block) :=
  tr.filterMap GroupEvent.update?

/-- The buffer updates of the operations in `S`, in the order they were made. -/
def modifications (S : Finset ℕ) (tr : List GroupEvent) : List (ℕ × Block) :=
  tr.filterMap (GroupEvent.updateOf? S)

/-- In the run, `A` executed `end_op` before `B` executed `begin_op`. -/
def EndsBefore (tr : List GroupEvent) (A B : ℕ) : Prop :=
  ∃ l₁ l₂ l₃, tr = l₁ ++ .endOp A :: (l₂ ++ .beginOp B :: l₃)

theorem allModifications_append (tr tr' : List GroupEvent) :
    allModifications (tr ++ tr') = allModifications tr ++ allModifications tr' :=
  List.filterMap_append

/-- With every updating operation in `S`, nothing is filtered out. -/
theorem modifications_eq_all {S : Finset ℕ} {tr : List GroupEvent}
    (h : ∀ i b v, .modify i b v ∈ tr → i ∈ S) : modifications S tr = allModifications tr := by
  refine List.filterMap_congr fun a ha ↦ ?_
  cases a with
  | modify i b v => exact if_pos (h i b v ha)
  | _ => rfl

/-- With no updating operation in `S`, everything is. -/
theorem modifications_eq_nil {S : Finset ℕ} {tr : List GroupEvent}
    (h : ∀ i b v, .modify i b v ∈ tr → i ∉ S) : modifications S tr = [] := by
  refine List.filterMap_eq_nil_iff.2 fun a ha ↦ ?_
  cases a with
  | modify i b v => exact if_neg (h i b v ha)
  | _ => rfl

end Xv6

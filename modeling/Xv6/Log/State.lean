import Xv6.Param

/-!
# The in-memory log and its critical sections

`struct log` without its lock and its constants, and the bodies of the `log.lock` critical sections
of `begin_op`, `end_op` and `log_write`. They are pure functions on the log, so that every model of
the log, whatever it adds around it, runs the same code.
-/

namespace Xv6

/-- The panics of `log.c` that the critical sections can reach. -/
inductive LogPanic
  /-- `"too big a transaction"` -/
  | tooBig
  /-- `"log_write outside of trans"` -/
  | outsideTrans
  /-- `"log.committing"` -/
  | committing
  deriving DecidableEq, Repr

/-- `struct log`: the number of operations in progress, whether a commit is running, and the
in-memory header `lh.block[0 .. lh.n)`. -/
structure Log where
  outstanding : ℕ
  committing : Bool
  lh : List ℕ
  deriving DecidableEq, Repr

namespace Log

/-- The log after `initlog`. -/
def init : Log where
  outstanding := 0
  committing := false
  lh := []

/-- One round of the loop of `begin_op`: `none` when the operation has to sleep, because a commit is
running or because it might exhaust the log. -/
def beginOp (l : Log) : Option Log :=
  if l.committing then none
  else if l.lh.length + (l.outstanding + 1) * maxOpBlocks > logBlocks then none
  else some { l with outstanding := l.outstanding + 1 }

/-- The first critical section of `end_op`, with the flag `do_commit`. -/
def endOp (l : Log) : Except LogPanic (Log × Bool) :=
  let l := { l with outstanding := l.outstanding - 1 }
  if l.committing then .error .committing
  else if l.outstanding = 0 then .ok ({ l with committing := true }, true)
  else .ok (l, false)

/-- The critical section of `log_write` for block `b`, with whether the block was new to the
transaction and its buffer is to be pinned. A block already listed is absorbed. -/
def logWrite (l : Log) (b : ℕ) : Except LogPanic (Log × Bool) :=
  if l.lh.length ≥ logBlocks then .error .tooBig
  else if l.outstanding < 1 then .error .outsideTrans
  else if b ∈ l.lh then .ok (l, false)
  else .ok ({ l with lh := l.lh ++ [b] }, true)

/-- `log.lh.n = 0` at the end of `commit`. -/
def clear (l : Log) : Log :=
  { l with lh := [] }

/-- The second critical section of `end_op`. -/
def endCommit (l : Log) : Log :=
  { l with committing := false }

/-! ### What each section can do -/

theorem beginOp_eq_some {l l' : Log} (h : l.beginOp = some l') :
    l.committing = false ∧ l.lh.length + (l.outstanding + 1) * maxOpBlocks ≤ logBlocks ∧
      l' = { l with outstanding := l.outstanding + 1 } := by
  rw [beginOp] at h
  split_ifs at h with hc hn
  exact ⟨by simpa using hc, by omega, (Option.some_inj.1 h).symm⟩

theorem endOp_eq_ok {l l' : Log} {c : Bool} (h : l.endOp = .ok (l', c)) :
    l.committing = false ∧
      ((c = true ∧ l.outstanding - 1 = 0 ∧
          l' = { l with outstanding := l.outstanding - 1, committing := true }) ∨
        (c = false ∧ l.outstanding - 1 ≠ 0 ∧
          l' = { l with outstanding := l.outstanding - 1 })) := by
  rw [endOp] at h
  simp only at h
  split_ifs at h with hc ho
  · obtain ⟨rfl, rfl⟩ := Prod.mk.inj (Except.ok.inj h)
    exact ⟨by simpa using hc, Or.inl ⟨rfl, ho, rfl⟩⟩
  · obtain ⟨rfl, rfl⟩ := Prod.mk.inj (Except.ok.inj h)
    exact ⟨by simpa using hc, Or.inr ⟨rfl, ho, rfl⟩⟩

theorem logWrite_eq_ok {l l' : Log} {b : ℕ} {p : Bool} (h : l.logWrite b = .ok (l', p)) :
    l.lh.length < logBlocks ∧ 1 ≤ l.outstanding ∧
      ((p = false ∧ b ∈ l.lh ∧ l' = l) ∨
        (p = true ∧ b ∉ l.lh ∧ l' = { l with lh := l.lh ++ [b] })) := by
  rw [logWrite] at h
  split_ifs at h with hn ho hb
  · obtain ⟨rfl, rfl⟩ := Prod.mk.inj (Except.ok.inj h)
    exact ⟨by omega, by omega, Or.inl ⟨rfl, hb, rfl⟩⟩
  · obtain ⟨rfl, rfl⟩ := Prod.mk.inj (Except.ok.inj h)
    exact ⟨by omega, by omega, Or.inr ⟨rfl, hb, rfl⟩⟩

end Log

end Xv6

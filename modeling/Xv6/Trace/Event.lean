import Mathlib.Data.Int.Notation
import Mathlib.Data.List.Basic
import Mathlib.Tactic.Common
import Xv6.Library.Run

/-!
# Events of the persistence lab

`docs/xv6-tutorial/resources/persistence/run-lab.py` runs a kernel that reports what its block
cache, its log and its disk do, one event at a time, and checks the list of events against the code.
The events are input: nothing is known of their fields but that they are integers. Fields that the
reducers do not read are left out, and of a point that is not in the table only its number is kept.
-/

namespace Xv6

namespace Trace

/-- `POINT` -/
inductive Point
  | cacheLookup | cacheGuard | cacheHit | cachePublish | cacheSleep | cacheRelease | cachePin
  | cacheUnpin
  | logWaitCommit | logWaitSpace | logAdmit | logEnd | logAppend | logAbsorb | logPayload
  | logHeader | logHome | logClear | logCommitDone
  | ioSubmit | ioComplete
  | other (point : ℤ)
  deriving DecidableEq

/-- `point in CACHE_POINTS` -/
def Point.isCache : Point → Bool
  | cacheLookup | cacheGuard | cacheHit | cachePublish | cacheSleep | cacheRelease | cachePin
  | cacheUnpin => true
  | _ => false

/-- `point in IO_POINTS` -/
def Point.isIo : Point → Bool
  | ioSubmit | ioComplete => true
  | _ => false

/-- An `EVENT` marker. -/
structure Event where
  seq : ℤ
  point : Point
  pid : ℤ
  domain : ℤ
  slot : ℤ
  ref : ℤ
  dev : ℤ
  block : ℤ
  bufferGeneration : ℤ
  logN : ℤ
  outstanding : ℤ
  committing : ℤ
  aux : ℤ
  deriving DecidableEq

/-- `require(condition, message)` -/
def require (condition : Prop) [Decidable condition] (message : String) : Except String Unit :=
  if condition then .ok () else .error message

theorem require_bind_eq_ok {condition : Prop} [Decidable condition] {message : String} {α : Type}
    {x : Unit → Except String α} {a : α} :
    (require condition message >>= x) = .ok a ↔ condition ∧ x () = .ok a := by
  rw [require]
  by_cases h : condition
  · rw [if_pos h]
    exact ⟨fun hx ↦ ⟨h, hx⟩, And.right⟩
  · rw [if_neg h]
    exact ⟨nofun, fun hx ↦ absurd hx.1 h⟩

end Trace

end Xv6

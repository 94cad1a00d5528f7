import Xv6.Console.Model

/-!
# The line discipline

What the console is for, without indices, locks and sleeping: a queue of committed bytes, and the
line that is being edited. Together they have at most 128 bytes. Readers take bytes from the front
of the queue, one in a step, and wait while there is none.
-/

namespace Xv6

/-- A call of `consoleread`: how many bytes it still wants, and how many it has got. -/
structure Reading where
  left : ℤ
  got : ℤ
  deriving DecidableEq, Repr

/-- A process that reads. -/
structure Reader where
  killed : Bool
  reading : Option Reading
  received : List (BitVec 8)
  returned : List ℤ
  deriving DecidableEq, Repr

/-- The committed bytes, the line being edited, and the readers. -/
structure LineDiscipline (N : ℕ) where
  queue : List (BitVec 8)
  pending : List (BitVec 8)
  proc : Fin N → Reader

namespace LineDiscipline

variable {N : ℕ}

def init (N : ℕ) : LineDiscipline N where
  queue := []
  pending := []
  proc _ := ⟨false, none, [], []⟩

/-- The line is complete at a line feed, at control-D, and when there is no more room. -/
def append (d : LineDiscipline N) (ch : BitVec 8) : LineDiscipline N :=
  let line := d.pending ++ [ch]
  if ch = lf ∨ ch = ctrlD ∨ d.queue.length + line.length = inputBufSize then
    { d with queue := d.queue ++ line, pending := [] }
  else { d with pending := line }

/-- A byte arrives. -/
def input (d : LineDiscipline N) (ch : BitVec 8) : LineDiscipline N :=
  if ch = ctrlP ∨ ch = 0 then d
  else if ch = ctrlU then { d with pending := [] }
  else if ch = ctrlH ∨ ch = del then { d with pending := d.pending.dropLast }
  else if d.queue.length + d.pending.length < inputBufSize then
    d.append (if ch = cr then lf else ch)
  else d

def setProc (d : LineDiscipline N) (p : Fin N) (x : Reader) : LineDiscipline N :=
  { d with proc := Function.update d.proc p x }

/-- The call of `p` returns `k`. -/
def ret (d : LineDiscipline N) (p : Fin N) (k : ℤ) : LineDiscipline N :=
  d.setProc p { d.proc p with reading := none, returned := (d.proc p).returned ++ [k] }

/-- The next byte for `p`, which wants some; `ok` if it can be delivered. -/
def take (d : LineDiscipline N) (p : Fin N) (x : Reading) (ok : Bool) : LineDiscipline N :=
  match d.queue with
  | [] => if (d.proc p).killed then d.ret p (-1) else d
  | ch :: rest =>
    if ch = ctrlD then
      if x.got = 0 then { d with queue := rest }.ret p 0 else d.ret p x.got
    else if ok then
      let d := { d with queue := rest }.setProc p { d.proc p with
        reading := some ⟨x.left - 1, x.got + 1⟩
        received := (d.proc p).received ++ [ch] }
      if ch = lf then d.ret p (x.got + 1) else d
    else { d with queue := rest }.ret p x.got

/-- What an event does. Locks and sleeping are not there. -/
def step (d : LineDiscipline N) : ConsEvent N → Option (LineDiscipline N)
  | .intr ch => some (d.input ch)
  | .read p n =>
    if (d.proc p).reading = none then some (d.setProc p { d.proc p with reading := some ⟨n, 0⟩ })
    else none
  | .turn p ok =>
    (d.proc p).reading.map fun x ↦ if 0 < x.left then d.take p x ok else d.ret p x.got
  | .kill p => some (d.setProc p { d.proc p with killed := true })
  | .acquire _ => some d
  | .sleep _ => some d

end LineDiscipline

end Xv6

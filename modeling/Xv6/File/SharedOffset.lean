import Xv6.File.Model
import Xv6.Library.SumElsewhere

/-!
# Shared offsets lose no data

The bytes of a file are a function from positions, and what the processes have written is one
`overwrite` of it at the offset at the beginning: in whatever order they take the lock, each chunk
is written behind the one before it. The process that has the lock is somewhere in `writei`; `Phase`
says how much of its chunk is in the file, and whether `f->off` and `ip->size` know of it.

This rests on what the processes ask for: that it fits in a file, and that the offset at the
beginning is not past the end of the file. Otherwise `writei` refuses a chunk, and the rest of that
call is lost.
-/

namespace Xv6

open Function List Option

namespace Filewrite

theorem maxChunk_eq : maxChunk = 3072 := rfl

namespace WriteCall

variable (c : WriteCall) (i : ℕ)

/-- The buffer. -/
def buf : List (BitVec 8) := slice c.src 0 c.n.toNat

/-- The next chunk. -/
def chunk : List (BitVec 8) := slice c.src i (c.n1 i)

/-- The chunks from byte `i` on. -/
def rest : List (List (BitVec 8)) := cut maxChunk (slice c.src i (c.n - i).toNat)

variable {c i}

theorem n1_le : c.n1 i ≤ 3072 := by
  rw [n1, maxChunk_eq]
  split <;> omega

theorem n1_pos (h : i < c.n) : 0 < c.n1 i := by
  rw [n1, maxChunk_eq]
  split <;> omega

@[simp] theorem length_chunk : (c.chunk i).length = c.n1 i := length_slice ..

theorem rest_eq_nil (h : ¬i < c.n) : c.rest i = [] := by
  have hzero : (c.n - i).toNat = 0 := by omega
  rw [rest, hzero, slice_zero, cut_nil]

theorem rest_eq_cons (h : i < c.n) : c.rest i = c.chunk i :: c.rest (i + c.n1 i) := by
  by_cases hlong : c.n - i > maxChunk
  · have hn1 : c.n1 i = maxChunk := if_pos hlong
    have hsplit : (c.n - i).toNat = maxChunk + (c.n - (i + maxChunk : ℕ)).toNat := by
      rw [maxChunk_eq] at hlong ⊢
      omega
    rw [rest, hsplit, cut_slice_add (by decide), rest, chunk, hn1]
  · have hn1 : c.n1 i = (c.n - i).toNat := if_neg hlong
    rw [rest, chunk, hn1, rest_eq_nil (by omega), cut_of_length_le]
    · rw [← length_pos_iff, length_slice]
      omega
    · rw [length_slice]
      omega

end WriteCall

namespace WritePc

/-- The process has the lock of the inode. -/
def Inside : WritePc → Prop
  | out _ => False
  | next _ _ => False
  | _ => True

/-- The chunks for which the process has not taken the lock. -/
def todo : WritePc → List (List (BitVec 8))
  | out _ => []
  | next c i => c.rest i
  | locked c i => c.rest (i + c.n1 i)
  | writing c i _ _ _ => c.rest (i + c.n1 i)
  | advance c i _ => c.rest (i + c.n1 i)
  | unlock c i _ => c.rest (i + c.n1 i)

end WritePc

/-- What can be seen of the processes: their calls, and the chunks for which they take the lock. -/
inductive WriteObs (N : ℕ)
  | call (p : Fin N) (c : WriteCall)
  | chunk (p : Fin N) (l : List (BitVec 8))

namespace WriteObs

variable {N : ℕ}

def proc : WriteObs N → Fin N
  | call p _ => p
  | chunk p _ => p

/-- The bytes of a chunk. -/
def bytes : WriteObs N → List (BitVec 8)
  | call _ _ => []
  | chunk _ l => l

/-- How much a call asks for. -/
def asked : WriteObs N → ℕ
  | call _ c => c.n.toNat
  | chunk _ _ => 0

/-- What is to be seen of a call: its buffer in chunks. -/
def round (p : Fin N) (c : WriteCall) : List (WriteObs N) :=
  call p c :: (cut maxChunk c.buf).map (chunk p)

end WriteObs

section Trace

variable {N : ℕ} (tr : List (WriteObs N))

/-- The chunks, in the order in which their writers took the lock. -/
def written : List (BitVec 8) := tr.flatMap WriteObs.bytes

/-- How much was asked for. -/
def total : ℕ := (tr.map WriteObs.asked).sum

/-- What is to be seen of process `p`. -/
def shown (p : Fin N) : List (WriteObs N) := tr.filter fun o ↦ o.proc = p

end Trace

namespace SharedFile

variable {N : ℕ}

/-- What event `e` shows in state `s`. -/
def obs (s : SharedFile N) : WriteEvent N → Option (WriteObs N)
  | .call p c => some (.call p c)
  | .step p _ =>
    match s.proc p with
    | .next c i => if i < c.n then some (.chunk p (c.chunk i)) else none
    | _ => none

/-- The byte at position `k` of the file. -/
def byte (s : SharedFile N) (k : ℕ) : BitVec 8 := s.data (k / bsize) (k % bsize)

/-- Copying into a block writes to the file. -/
theorem byte_store (s : SharedFile N) {bn j : ℕ} {l : List (BitVec 8)} (h : j + l.length ≤ bsize) :
    (s.store bn j l).byte = overwrite s.byte (bn * bsize + j) l := by
  have h : j + l.length ≤ 1024 := h
  funext k
  show update s.data bn (overwrite (s.data bn) j l) (k / 1024) (k % 1024) =
    overwrite s.byte (bn * 1024 + j) l k
  by_cases hbn : k / 1024 = bn
  · subst hbn
    rw [update_self, overwrite, overwrite]
    by_cases hj : j ≤ k % 1024
    · rw [if_pos hj, if_pos (by omega), show k % 1024 - j = k - (k / 1024 * 1024 + j) by omega]
      rfl
    · rw [if_neg hj, if_neg (by omega)]
      rfl
  · rw [update_of_ne hbn, overwrite]
    by_cases hlt : bn * 1024 + j ≤ k
    · have hnone : l[k - (bn * 1024 + j)]? = none := by
        refine List.getElem?_eq_none ?_
        have : bn < k / 1024 ∨ k / 1024 < bn := by omega
        omega
      rw [if_pos hlt, hnone]
      rfl
    · rw [if_neg hlt]
      rfl

theorem toNat_turnLen {off n tot : BitVec 32} (h : tot.toNat ≤ n.toNat) :
    (turnLen off n tot).toNat = min (n.toNat - tot.toNat) (1024 - off.toNat % 1024) := by
  have hn : (n - tot).toNat = n.toNat - tot.toNat := BitVec.toNat_sub_of_le h
  have hoff : (off % BitVec.ofNat 32 bsize).toNat = off.toNat % 1024 := BitVec.toNat_umod
  have hroom : (BitVec.ofNat 32 bsize - off % BitVec.ofNat 32 bsize).toNat =
      1024 - off.toNat % 1024 := by
    rw [BitVec.toNat_sub_of_le, hoff]
    · rfl
    · rw [BitVec.le_def, hoff]
      show _ ≤ 1024
      omega
  rw [turnLen]
  split
  case isTrue hlt =>
    rw [BitVec.lt_def, hn, hroom] at hlt
    rw [hn, min_eq_left hlt.le]
  case isFalse hge =>
    rw [BitVec.lt_def, hn, hroom] at hge
    rw [hroom, min_eq_right (by omega)]

/-! ### The lock -/

/-- Since `s₀`, the data of the file has got `l`, its offset `w`, and its size `z`. -/
def At (s₀ s : SharedFile N) (l w z : List (BitVec 8)) : Prop :=
  s.byte = overwrite s₀.byte s₀.off.toNat l ∧ s.off.toNat = s₀.off.toNat + w.length ∧
    s.size.toNat = max s₀.size.toNat (s₀.off.toNat + z.length)

/-- Where the process that has the lock is: `done` has been written before. -/
def Phase (s₀ : SharedFile N) (tr : List (WriteObs N)) (s : SharedFile N) : WritePc → Prop
  | .out _ => False
  | .next _ _ => False
  | .locked c i => i < c.n ∧ ∃ done, written tr = done ++ c.chunk i ∧ At s₀ s done done done
  | .writing c i off n tot => i < c.n ∧ n.toNat = c.n1 i ∧ tot.toNat ≤ n.toNat ∧
    off.toNat = s.off.toNat + tot.toNat ∧ ∃ done, written tr = done ++ c.chunk i ∧
      At s₀ s (done ++ slice c.src i tot.toNat) done done
  | .advance c i r => i < c.n ∧ r = c.n1 i ∧ ∃ done, written tr = done ++ c.chunk i ∧
    At s₀ s (written tr) done (written tr)
  | .unlock c i r => i < c.n ∧ r = c.n1 i ∧ At s₀ s (written tr) (written tr) (written tr)

/-- One process at a time is in `writei`, and `f->off` is where the next chunk goes. -/
structure Held (s₀ : SharedFile N) (tr : List (WriteObs N)) (s : SharedFile N) : Prop where
  inside : ∀ p, (s.proc p).Inside → s.lock = some p
  held : ∀ p, s.lock = some p → Phase s₀ tr s (s.proc p)
  free : s.lock = none → At s₀ s (written tr) (written tr) (written tr)

variable {s₀ s : SharedFile N} {tr : List (WriteObs N)} {p : Fin N} {c : WriteCall} {i : ℕ}

theorem Phase.inside {pc : WritePc} (h : Phase s₀ tr s pc) : pc.Inside := by
  cases pc <;> first | exact h.elim | trivial

theorem Phase.congr {s' : SharedFile N} {tr' : List (WriteObs N)} {pc : WritePc}
    (h : Phase s₀ tr s pc) (htr : written tr' = written tr)
    (hdata : s'.data = s.data ∧ s'.off = s.off ∧ s'.size = s.size) : Phase s₀ tr' s' pc := by
  have hAt : ∀ {l w z}, At s₀ s l w z → At s₀ s' l w z := by
    intro l w z h
    rw [At] at h ⊢
    rw [hdata.2.1, hdata.2.2]
    refine ⟨?_, h.2⟩
    rw [← h.1]
    funext k
    rw [SharedFile.byte, hdata.1]
    rfl
  cases pc with
  | out => exact h
  | next => exact h
  | locked c i =>
    obtain ⟨hi, done, hdone, h⟩ := h
    exact ⟨hi, done, htr.trans hdone, hAt h⟩
  | writing c i off n tot =>
    obtain ⟨hi, hn, htot, hoff, done, hdone, h⟩ := h
    exact ⟨hi, hn, htot, by rw [hdata.2.1]; exact hoff, done, htr.trans hdone, hAt h⟩
  | advance c i r =>
    obtain ⟨hi, hr, done, hdone, h⟩ := h
    exact ⟨hi, hr, done, htr.trans hdone, by rw [htr]; exact hAt h⟩
  | unlock c i r =>
    obtain ⟨hi, hr, h⟩ := h
    exact ⟨hi, hr, by rw [htr]; exact hAt h⟩

/-- A step outside of `writei`. -/
theorem Held.of_outside (h : Held s₀ tr s) {tr' : List (WriteObs N)} {pc : WritePc}
    (htr : written tr' = written tr) (hp : ¬(s.proc p).Inside) (hpc : ¬pc.Inside) :
    Held s₀ tr' (s.setPc p pc) := by
  refine ⟨fun q hq ↦ ?_, fun q hq ↦ ?_, fun hfree ↦ ?_⟩
  · rcases eq_or_ne q p with rfl | hqp
    · rw [proc_setPc_self] at hq
      exact absurd hq hpc
    · rw [proc_setPc_of_ne hqp] at hq
      exact h.inside q hq
  · have hphase := h.held q hq
    have hqp : q ≠ p := by
      rintro rfl
      exact hp hphase.inside
    rw [proc_setPc_of_ne hqp]
    exact hphase.congr htr ⟨rfl, rfl, rfl⟩
  · rw [htr]
    exact h.free hfree

/-- A process takes the lock. -/
theorem Held.lock (h : Held s₀ tr s) (hlock : s.lock = none) (hi : i < c.n) :
    Held s₀ (tr ++ [.chunk p (c.chunk i)]) { s.setPc p (.locked c i) with lock := some p } := by
  have hself : ({ s.setPc p (.locked c i) with lock := some p } : SharedFile N).proc p =
    .locked c i := update_self ..
  have hwritten : written (tr ++ [.chunk p (c.chunk i)]) = written tr ++ c.chunk i := by
    rw [written, flatMap_append, flatMap_singleton]
    rfl
  refine ⟨fun q hq ↦ ?_, fun q hq ↦ ?_, fun hfree ↦ absurd hfree (by simp)⟩
  · rcases eq_or_ne q p with rfl | hqp
    · rfl
    · have hq : (update s.proc p _ q).Inside := hq
      rw [update_of_ne hqp] at hq
      have hlock' := h.inside q hq
      rw [hlock] at hlock'
      cases hlock'
  · cases hq
    rw [hself]
    exact ⟨hi, written tr, hwritten, h.free hlock⟩

/-- A step of the process that has the lock. -/
theorem Held.of_held (h : Held s₀ tr s) (hp : (s.proc p).Inside) {s' : SharedFile N} {pc : WritePc}
    (hproc : s'.proc = update s.proc p pc)
    (hs' : s'.lock = some p ∧ Phase s₀ tr s' pc ∨
      s'.lock = none ∧ ¬pc.Inside ∧ At s₀ s' (written tr) (written tr) (written tr)) :
    Held s₀ tr s' := by
  have hself : s'.proc p = pc := by
    rw [hproc, update_self]
  have hother : ∀ q, q ≠ p → ¬(s'.proc q).Inside := by
    intro q hqp hq
    rw [hproc, update_of_ne hqp] at hq
    have hlock := (h.inside p hp).symm.trans (h.inside q hq)
    cases hlock
    exact hqp rfl
  refine ⟨fun q hq ↦ ?_, fun q hq ↦ ?_, fun hfree ↦ ?_⟩
  · rcases eq_or_ne q p with rfl | hqp
    · rcases hs' with ⟨hlock, -⟩ | ⟨-, hpc, -⟩
      · exact hlock
      · rw [hself] at hq
        exact absurd hq hpc
    · exact absurd hq (hother q hqp)
  · rcases hs' with ⟨hlock, hphase⟩ | ⟨hlock, -⟩
    · rw [hlock] at hq
      cases hq
      rw [hself]
      exact hphase
    · rw [hlock] at hq
      cases hq
  · rcases hs' with ⟨hlock, -⟩ | ⟨-, -, hAt⟩
    · rw [hlock] at hfree
      cases hfree
    · exact hAt

/-! ### `writei` -/

/-- There is room for the chunk. -/
theorem phase_writei (hi : i < c.n) {done : List (BitVec 8)}
    (hdone : written tr = done ++ c.chunk i) (hAt : At s₀ s done done done)
    (hroom : s₀.off.toNat + (written tr).length ≤ maxFile * bsize) :
    s.writei p c i (BitVec.ofNat 32 (c.n1 i)) =
      s.setPc p (.writing c i s.off (BitVec.ofNat 32 (c.n1 i)) 0) ∧
    Phase s₀ tr (s.setPc p (.writing c i s.off (BitVec.ofNat 32 (c.n1 i)) 0))
      (.writing c i s.off (BitVec.ofNat 32 (c.n1 i)) 0) := by
  have hn1 := c.n1_le (i := i)
  have hn : (BitVec.ofNat 32 (c.n1 i)).toNat = c.n1 i := by
    rw [BitVec.toNat_ofNat]
    omega
  have hroom : s₀.off.toNat + (written tr).length ≤ 274432 := hroom
  rw [hdone, length_append, WriteCall.length_chunk] at hroom
  obtain ⟨hbyte, hoff, hsize⟩ := hAt
  have hsum : (s.off + BitVec.ofNat 32 (c.n1 i)).toNat = s.off.toNat + c.n1 i := by
    rw [BitVec.toNat_add, hn]
    omega
  constructor
  · rw [writei, if_neg, if_neg]
    · show ¬BitVec.ofNat 32 274432 < _
      rw [BitVec.lt_def, hsum]
      show ¬274432 < _
      omega
    · rw [not_or]
      constructor
      · show ¬s.size < s.off
        rw [BitVec.lt_def]
        omega
      · rw [BitVec.lt_def, hsum]
        omega
  · refine ⟨hi, hn, Nat.zero_le _, rfl, done, hdone, ?_, hoff, hsize⟩
    show s.byte = overwrite s₀.byte s₀.off.toNat (done ++ [])
    rw [append_nil]
    exact hbyte

/-- A turn of the loop writes the next part of the chunk, or the chunk is complete. -/
theorem phase_turn {off n tot : BitVec 32} (h : Phase s₀ tr s (.writing c i off n tot))
    (hroom : s₀.off.toNat + (written tr).length ≤ maxFile * bsize) :
    ∃ pc, (s.turn p c i off n tot .ok).proc = update s.proc p pc ∧
      (s.turn p c i off n tot .ok).lock = s.lock ∧ pc.todo = c.rest (i + c.n1 i) ∧
      Phase s₀ tr (s.turn p c i off n tot .ok) pc := by
  obtain ⟨hi, hn, htot, hoff, done, hdone, hbyte, hsoff, hsize⟩ := h
  have hn1 := c.n1_le (i := i)
  have hroom : s₀.off.toNat + (written tr).length ≤ 274432 := hroom
  rw [hdone, length_append, WriteCall.length_chunk] at hroom
  rw [turn]
  by_cases hlt : tot < n
  · rw [if_pos hlt]
    rw [BitVec.lt_def] at hlt
    have hm : (turnLen off n tot).toNat = min (n.toNat - tot.toNat) (1024 - off.toNat % 1024) :=
      toNat_turnLen htot
    generalize turnLen off n tot = m at hm
    have hoff' : (off + m).toNat = off.toNat + m.toNat := by
      rw [BitVec.toNat_add]
      omega
    have htot' : (tot + m).toNat = tot.toNat + m.toNat := by
      rw [BitVec.toNat_add]
      omega
    refine ⟨_, rfl, rfl, rfl, hi, hn, by omega, ?_, done, hdone, ?_, hsoff, hsize⟩
    · rw [hoff', htot', hoff, add_assoc]
      rfl
    · -- the bytes go behind those that are written
      have hfits : off.toNat % bsize + (slice c.src (i + tot.toNat) m.toNat).length ≤ bsize := by
        rw [length_slice]
        show off.toNat % 1024 + _ ≤ 1024
        omega
      have hpos : off.toNat / bsize * bsize + off.toNat % bsize =
          s₀.off.toNat + (done ++ slice c.src i tot.toNat).length := by
        rw [Nat.div_add_mod', hoff, hsoff, length_append, length_slice, add_assoc]
      refine (s.byte_store hfits).trans ?_
      rw [hpos, hbyte, ← overwrite_append, append_assoc, ← slice_add, htot']
  · rw [if_neg hlt]
    rw [BitVec.lt_def] at hlt
    have hend : tot.toNat = c.n1 i := by omega
    refine ⟨_, rfl, rfl, rfl, hi, ?_, done, hdone, ?_, hsoff, ?_⟩
    · rw [BitVec.toInt_eq_toNat_of_lt (by omega), hend]
    · rw [hdone, WriteCall.chunk, ← hend]
      exact hbyte
    · rw [hdone, length_append, WriteCall.length_chunk]
      show (if s.size < off then off else s.size).toNat = _
      split
      case isTrue hgt =>
        rw [BitVec.lt_def] at hgt
        omega
      case isFalse hle =>
        rw [BitVec.lt_def] at hle
        omega

/-- `f->off` is advanced. -/
theorem phase_advance {r : ℤ} (h : Phase s₀ tr s (.advance c i r))
    (hroom : s₀.off.toNat + (written tr).length ≤ maxFile * bsize) :
    Phase s₀ tr { s.setPc p (.unlock c i r) with
      off := if 0 < r then s.off + BitVec.ofInt 32 r else s.off } (.unlock c i r) := by
  obtain ⟨hi, rfl, done, hdone, hbyte, hoff, hsize⟩ := h
  have hpos := WriteCall.n1_pos hi
  have hn1 := c.n1_le (i := i)
  have hroom : s₀.off.toNat + (written tr).length ≤ 274432 := hroom
  refine ⟨hi, rfl, hbyte, ?_, hsize⟩
  dsimp only
  rw [hdone, length_append, WriteCall.length_chunk] at hroom ⊢
  rw [if_pos (by omega), BitVec.ofInt_natCast, BitVec.toNat_add, BitVec.toNat_ofNat]
  omega

/-! ### All steps -/

/-- The calls of the processes, the chunks they have written and the chunks they have still to
write. -/
structure Todo (tr : List (WriteObs N)) (s : SharedFile N) : Prop where
  rounds : ∀ p, ∃ cs : List WriteCall,
    shown tr p ++ (s.proc p).todo.map (.chunk p) = cs.flatMap (WriteObs.round p)
  total : (written tr).length + ∑ p, (s.proc p).todo.flatten.length = total tr

theorem Todo.congr (h : Todo tr s) {s' : SharedFile N}
    (hs : ∀ q, (s'.proc q).todo = (s.proc q).todo) : Todo tr s' := by
  refine ⟨fun p ↦ ?_, ?_⟩
  · rw [hs p]
    exact h.rounds p
  · simp only [hs]
    exact h.total

/-- A step of `p` that shows `o`. -/
theorem Todo.concat (h : Todo tr s) {s' : SharedFile N} {o : WriteObs N} {pc : WritePc}
    (hproc : s'.proc = update s.proc p pc) (ho : o.proc = p)
    (hrounds : ∃ cs : List WriteCall,
      (s.proc p).todo.map (.chunk p) ++ cs.flatMap (WriteObs.round p) =
      [o] ++ pc.todo.map (.chunk p))
    (htotal : o.bytes.length + pc.todo.flatten.length = (s.proc p).todo.flatten.length + o.asked) :
    Todo (tr ++ [o]) s' := by
  refine ⟨fun q ↦ ?_, ?_⟩
  · obtain ⟨cs, hcs⟩ := h.rounds q
    rw [hproc, shown, filter_append, filter_singleton]
    rcases eq_or_ne q p with rfl | hqp
    · obtain ⟨cs', hcs'⟩ := hrounds
      refine ⟨cs ++ cs', ?_⟩
      rw [update_self, decide_eq_true ho, flatMap_append, ← hcs, append_assoc,
        append_assoc, hcs']
      rfl
    · refine ⟨cs, ?_⟩
      rw [update_of_ne hqp, decide_eq_false (by rw [ho]; exact hqp.symm), ← hcs]
      exact congrArg (· ++ _) (append_nil _)
  · have hsum := sum_update_add s.proc p pc fun pc ↦ pc.todo.flatten.length
    have hold := h.total
    rw [hproc, written, Filewrite.total, flatMap_append, map_append, sum_append,
      length_append, flatMap_singleton, map_singleton, sum_singleton]
    rw [written, Filewrite.total] at hold
    omega

theorem Todo.length_written_le (h : Todo tr s) : (written tr).length ≤ Filewrite.total tr :=
  Nat.le.intro h.total

/-- The next step of a process, when nothing fails. -/
theorem op_sound (hheld : Held s₀ tr s) (htodo : Todo tr s) {s' : SharedFile N}
    (hs : s.op p .ok = some s') (hroom : s₀.off.toNat + Filewrite.total tr ≤ maxFile * bsize) :
    Held s₀ (tr ++ (s.obs (.step p .ok)).toList) s' ∧
      Todo (tr ++ (s.obs (.step p .ok)).toList) s' := by
  have hroom : s₀.off.toNat + (written tr).length ≤ maxFile * bsize :=
    (Nat.add_le_add_left htodo.length_written_le _).trans hroom
  have hphase : (s.proc p).Inside → Phase s₀ tr s (s.proc p) := fun hp ↦
    hheld.held p (hheld.inside p hp)
  -- what a process that keeps its chunks leaves to do
  have hkeep : ∀ {s' : SharedFile N} {pc : WritePc}, s'.proc = update s.proc p pc →
      pc.todo = (s.proc p).todo → Todo tr s' := by
    intro s' pc hproc hpc
    refine htodo.congr fun q ↦ ?_
    rw [hproc]
    rcases eq_or_ne q p with rfl | hqp
    · rw [update_self, hpc]
    · rw [update_of_ne hqp]
  rw [op] at hs
  rw [obs]
  cases hpc : s.proc p <;> rw [hpc] at hs hphase hkeep
  case out => cases hs
  case next c i =>
    dsimp only at hs ⊢
    by_cases hi : i < c.n
    · rw [if_pos hi] at hs ⊢
      obtain ⟨hlock, hs⟩ := ite_none_right_eq_some.1 hs
      rw [some_inj] at hs
      subst hs
      refine ⟨hheld.lock hlock hi, htodo.concat rfl rfl ⟨[], ?_⟩ ?_⟩
      · rw [hpc, WritePc.todo, WriteCall.rest_eq_cons hi, flatMap_nil, append_nil]
        rfl
      · rw [hpc, WritePc.todo, WriteCall.rest_eq_cons hi, flatten_cons, length_append]
        rfl
    · rw [if_neg hi] at hs ⊢
      rw [some_inj] at hs
      subst hs
      rw [toList_none, append_nil]
      refine ⟨hheld.of_outside rfl (by rw [hpc]; exact id) id, hkeep rfl ?_⟩
      rw [WritePc.todo, WritePc.todo, WriteCall.rest_eq_nil hi]
  case locked c i =>
    rw [some_inj] at hs
    subst hs
    obtain ⟨hi, done, hdone, hAt⟩ := hphase trivial
    obtain ⟨heq, hwriting⟩ := phase_writei (p := p) hi hdone hAt hroom
    rw [heq, toList_none, append_nil]
    have hp : (s.proc p).Inside := by
      rw [hpc]
      trivial
    exact ⟨hheld.of_held hp rfl (.inl ⟨hheld.inside p hp, hwriting⟩), hkeep rfl rfl⟩
  case writing c i off n tot =>
    rw [some_inj] at hs
    subst hs
    rw [toList_none, append_nil]
    have hp : (s.proc p).Inside := by
      rw [hpc]
      trivial
    obtain ⟨pc, hproc, hlock, hpctodo, hturn⟩ := phase_turn (p := p) (hphase trivial) hroom
    exact ⟨hheld.of_held hp hproc (.inl ⟨hlock.trans (hheld.inside p hp), hturn⟩),
      hkeep hproc hpctodo⟩
  case advance c i r =>
    rw [some_inj] at hs
    subst hs
    rw [toList_none, append_nil]
    have hp : (s.proc p).Inside := by
      rw [hpc]
      trivial
    have hadvance := phase_advance (p := p) (hphase trivial) hroom
    exact ⟨hheld.of_held hp rfl (.inl ⟨hheld.inside p hp, hadvance⟩), hkeep rfl rfl⟩
  case unlock c i r =>
    rw [some_inj] at hs
    subst hs
    rw [toList_none, append_nil]
    have hp : (s.proc p).Inside := by
      rw [hpc]
      trivial
    obtain ⟨hi, rfl, hAt⟩ := hphase trivial
    rw [if_pos rfl, Int.toNat_natCast]
    exact ⟨hheld.of_held hp rfl (.inr ⟨rfl, id, hAt⟩), hkeep rfl rfl⟩

end SharedFile

/-- Nothing fails in `bmap` or `either_copyin`. -/
def WriteEvent.Ok {N : ℕ} : WriteEvent N → Prop
  | .call _ _ => True
  | .step _ o => o = .ok

namespace SharedFile

variable {N : ℕ} {s₀ s s' : SharedFile N} {tr : List (WriteObs N)}

theorem step_sound (hheld : Held s₀ tr s) (htodo : Todo tr s) {e : WriteEvent N} (hok : e.Ok)
    (hs : s.step e = some s') (hroom : s₀.off.toNat + Filewrite.total tr ≤ maxFile * bsize) :
    Held s₀ (tr ++ (s.obs e).toList) s' ∧ Todo (tr ++ (s.obs e).toList) s' := by
  cases e with
  | call p c =>
    rw [step] at hs
    split at hs
    case h_1 ret hp =>
      rw [some_inj] at hs
      subst hs
      refine ⟨hheld.of_outside ?_ (by rw [hp]; exact id) id, htodo.concat rfl rfl ⟨[c], ?_⟩ ?_⟩
      · rw [written, written, flatMap_append]
        exact append_nil _
      · rw [hp, flatMap_singleton]
        show [] ++ WriteObs.round p c = [.call p c] ++ (c.rest 0).map (.chunk p)
        rw [WriteCall.rest, Nat.cast_zero, sub_zero]
        rfl
      · rw [hp]
        show 0 + (c.rest 0).flatten.length = 0 + c.n.toNat
        rw [WriteCall.rest, flatten_cut, length_slice, Nat.cast_zero, sub_zero]
    case h_2 => cases hs
  | step p o =>
    obtain rfl : o = .ok := hok
    exact op_sound hheld htodo hs hroom

/-- No process is in `filewrite`. -/
def Quiet (s : SharedFile N) : Prop := s.lock = none ∧ ∀ p, ∃ ret, s.proc p = .out ret

theorem run_sound (hquiet : s₀.Quiet) (hoff : s₀.off ≤ s₀.size) {es : List (WriteEvent N)}
    (hrun : runSteps step s₀ es = some s) (hok : ∀ e ∈ es, e.Ok)
    (hroom : s₀.off.toNat + Filewrite.total (observations step obs s₀ es) ≤ maxFile * bsize) :
    Held s₀ (observations step obs s₀ es) s ∧ Todo (observations step obs s₀ es) s := by
  revert hok hroom
  refine runSteps_traceInvariant (I := fun es s ↦ (∀ e ∈ es, e.Ok) →
    s₀.off.toNat + Filewrite.total (observations step obs s₀ es) ≤ maxFile * bsize →
    Held s₀ (observations step obs s₀ es) s ∧ Todo (observations step obs s₀ es) s)
    (fun _ _ ↦ ⟨⟨fun p hp ↦ ?_, fun p hp ↦ ?_, fun _ ↦ ?_⟩, ⟨fun p ↦ ⟨[], ?_⟩, ?_⟩⟩)
    (fun es r e t hr ih hs hok hroom ↦ ?_) hrun
  · obtain ⟨ret, hret⟩ := hquiet.2 p
    rw [hret] at hp
    exact hp.elim
  · rw [hquiet.1] at hp
    cases hp
  · rw [BitVec.le_def] at hoff
    refine ⟨(overwrite_nil _ _).symm, rfl, ?_⟩
    show s₀.size.toNat = max s₀.size.toNat s₀.off.toNat
    omega
  · obtain ⟨ret, hret⟩ := hquiet.2 p
    rw [hret]
    rfl
  · refine (zero_add _).trans (Finset.sum_eq_zero fun p _ ↦ ?_)
    obtain ⟨ret, hret⟩ := hquiet.2 p
    rw [hret]
    rfl
  · rw [observations_concat hr] at hroom ⊢
    have hroom' : s₀.off.toNat + Filewrite.total (observations step obs s₀ es) ≤
        maxFile * bsize := by
      rw [Filewrite.total, map_append, sum_append] at hroom
      rw [Filewrite.total]
      omega
    obtain ⟨hheld, htodo⟩ := ih (fun e he ↦ hok e (mem_append_left _ he)) hroom'
    exact step_sound hheld htodo (hok e (by simp)) hs hroom'

/-- **Shared offsets lose no data.** Processes write through one file, whose offset is not past its
end at the beginning; what they ask for fits in a file, and neither `bmap` nor `either_copyin`
fails. When the lock is free, the chunks are in the file one behind the other in the order in which
their writers took the lock, from the offset at the beginning on, and nothing else has changed;
`f->off` is behind them. Each process writes the buffers of its calls in order, cut into chunks of
at most 3072 bytes, so that a buffer of at most 3072 bytes is one chunk. When no process is in
`filewrite`, all of what was asked for is in the file. -/
theorem shared_offset_sound (hquiet : s₀.Quiet) (hoff : s₀.off ≤ s₀.size) (es : List (WriteEvent N))
    (hrun : runSteps step s₀ es = some s) (hok : ∀ e ∈ es, e.Ok)
    (hroom : s₀.off.toNat + Filewrite.total (observations step obs s₀ es) ≤ maxFile * bsize) :
    (s.lock = none →
      s.byte = overwrite s₀.byte s₀.off.toNat (written (observations step obs s₀ es)) ∧
      s.off.toNat = s₀.off.toNat + (written (observations step obs s₀ es)).length ∧
      s.size.toNat = max s₀.size.toNat s.off.toNat) ∧
    (∀ p, ∃ cs : List WriteCall, shown (observations step obs s₀ es) p ++
      (s.proc p).todo.map (.chunk p) = cs.flatMap (WriteObs.round p)) ∧
    (∀ c : WriteCall, (∀ l ∈ cut maxChunk c.buf, l.length ≤ 3072) ∧
      (0 < c.n → c.n ≤ 3072 → cut maxChunk c.buf = [c.buf])) ∧
    (s.Quiet → s.off.toNat = s₀.off.toNat + Filewrite.total (observations step obs s₀ es)) := by
  obtain ⟨hheld, htodo⟩ := run_sound hquiet hoff hrun hok hroom
  refine ⟨fun hlock ↦ ?_, htodo.rounds, fun c ↦ ⟨fun l hl ↦ ?_, fun hpos hle ↦ ?_⟩, fun hq ↦ ?_⟩
  · obtain ⟨hbyte, hsoff, hsize⟩ := hheld.free hlock
    exact ⟨hbyte, hsoff, by rw [hsize, hsoff]⟩
  · exact length_le_of_mem_cut (by decide) hl
  · refine cut_of_length_le ?_ ?_
    · rw [← List.length_pos_iff, WriteCall.buf, length_slice]
      omega
    · rw [WriteCall.buf, length_slice, maxChunk_eq]
      omega
  · have hnone : ∑ p, (s.proc p).todo.flatten.length = 0 := by
      refine Finset.sum_eq_zero fun p _ ↦ ?_
      obtain ⟨ret, hret⟩ := hq.2 p
      rw [hret]
      rfl
    have htotal := htodo.total
    rw [(hheld.free hq.1).2.1, ← htotal, hnone, add_zero]

/-- An empty file that two processes write through. -/
def fresh : SharedFile 2 where
  data _ _ := 0
  size := 0
  off := 0
  lock := none
  proc _ := .out 0

/-- One process writes two bytes, and the other one behind them. -/
def twoWriters : List (WriteEvent 2) :=
  [.call 0 ⟨fun _ ↦ 7, 2⟩, .call 1 ⟨fun _ ↦ 9, 1⟩, .step 0 .ok, .step 0 .ok, .step 0 .ok,
    .step 0 .ok,
    .step 0 .ok, .step 0 .ok, .step 1 .ok, .step 1 .ok, .step 1 .ok, .step 1 .ok, .step 1 .ok,
    .step 1 .ok]

theorem shared_offset_sound_twoWriters :
    ∃ s, runSteps step fresh twoWriters = some s ∧ s.lock = none ∧
      written (observations step obs fresh twoWriters) = [7, 7, 9] ∧
      s.byte = overwrite fresh.byte 0 [7, 7, 9] ∧ s.off.toNat = 3 := by
  have hrun : (runSteps step fresh twoWriters).isSome ∧
      (∀ s ∈ runSteps step fresh twoWriters, s.lock = none) ∧
      written (observations step obs fresh twoWriters) = [7, 7, 9] ∧
      fresh.off.toNat + Filewrite.total (observations step obs fresh twoWriters) ≤
        maxFile * bsize := by
    decide +kernel
  obtain ⟨hsome, hlock, hwritten, hroom⟩ := hrun
  obtain ⟨s, hs⟩ := Option.isSome_iff_exists.1 hsome
  have hok : ∀ e ∈ twoWriters, e.Ok := by
    simp [twoWriters, WriteEvent.Ok]
  have hquiet : fresh.Quiet := ⟨rfl, fun _ ↦ ⟨0, rfl⟩⟩
  obtain ⟨hfree, -⟩ := shared_offset_sound hquiet (by decide) twoWriters hs hok hroom
  obtain ⟨hbyte, hsoff, -⟩ := hfree (hlock s hs)
  rw [hwritten] at hbyte hsoff
  exact ⟨s, hs, hlock s hs, hwritten, hbyte, hsoff⟩

/-- A file that is as long as files can be, with its offset at its end. -/
def full : SharedFile 1 where
  data _ _ := 0
  size := BitVec.ofNat 32 (maxFile * bsize)
  off := BitVec.ofNat 32 (maxFile * bsize)
  lock := none
  proc _ := .out 0

/-- What a process that is outside `filewrite` has returned. -/
def returned : WritePc → Option ℤ
  | .out ret => some ret
  | _ => none

theorem eq_out_of_returned {pc : WritePc} {ret : ℤ} (h : returned pc = some ret) :
    pc = .out ret := by
  cases pc with
  | out r => rw [Option.some.inj h]
  | _ => cases h

def refused (p : Fin 1) : List (WriteEvent 1) :=
  [.call p ⟨fun _ ↦ 7, 1⟩, .step p .ok, .step p .ok, .step p .ok, .step p .ok]

/-- A byte more does not fit: `writei` refuses it although nothing has failed, and the offset stays.
-/
theorem full_loses_data :
    ∃ s, runSteps step full (refused 0) = some s ∧ (∀ e ∈ refused 0, e.Ok) ∧ full.Quiet ∧ s.Quiet ∧
      Filewrite.total (observations step obs full (refused 0)) = 1 ∧
      written (observations step obs full (refused 0)) = [7] ∧
      s.off.toNat ≠ full.off.toNat + 1 ∧ s.byte (maxFile * bsize) ≠ 7 := by
  have hrun : (runSteps step full (refused 0)).isSome ∧
      (∀ s ∈ runSteps step full (refused 0), s.lock = none ∧ s.off = full.off ∧
        returned (s.proc 0) = some (-1) ∧ s.byte (maxFile * bsize) ≠ 7) ∧
      Filewrite.total (observations step obs full (refused 0)) = 1 ∧
      written (observations step obs full (refused 0)) = [7] := by
    decide +kernel
  obtain ⟨hsome, hall, htotal, hwritten⟩ := hrun
  obtain ⟨s, hs⟩ := Option.isSome_iff_exists.1 hsome
  obtain ⟨hlock, hoff, hout, hbyte⟩ := hall s hs
  refine ⟨s, hs, by simp [refused, WriteEvent.Ok], ⟨rfl, fun _ ↦ ⟨0, rfl⟩⟩,
    ⟨hlock, fun p ↦ ⟨-1, ?_⟩⟩, htotal, hwritten, ?_, hbyte⟩
  · rw [Subsingleton.elim p 0]
    exact eq_out_of_returned hout
  · rw [hoff]
    exact (Nat.succ_ne_self _).symm

end SharedFile

end Filewrite

end Xv6

import Xv6.Pipe.Model

/-!
# Sleepers on a pipe

A reader of a pipe sleeps while the buffer is empty, a writer while it is full, and whoever changes
that wakes them up before it gives `pi->lock` back; with one exception: `pipewrite` returns `-1`
without a `wakeup` when it finds its process killed, also when it has stored bytes since it took the
lock. A reader that sleeps then goes on sleeping beside a buffer that is not empty
(`strands_reader`). Without that exit nobody is stranded (`sleepers_not_stranded`).
-/

namespace Xv6

open Function Option

namespace PipePc

/-- The process holds `pi->lock`. -/
def holdsLock : PipePc → Bool
  | out | writeAcquire _ _ | writeAsleep _ _ | readAcquire _ | readAsleep _ => false
  | write _ _ _ | writeSleep _ _ | writeExit _ | read _ | readSleep _ | readCopy _ _
  | readExit _ => true

/-- The process is `SLEEPING` on `&pi->nread` inside `piperead`. -/
def asleepReading : PipePc → Bool
  | readAsleep _ => true
  | _ => false

/-- The process is `SLEEPING` on `&pi->nwrite` inside `pipewrite`. -/
def asleepWriting : PipePc → Bool
  | writeAsleep _ _ => true
  | _ => false

/-- The process may have stored a byte, and has not called `wakeup(&pi->nread)` since. -/
def owesReader : PipePc → Bool
  | write _ _ stored => stored
  | writeExit _ => true
  | _ => false

/-- The process may have consumed a byte, and has not called `wakeup(&pi->nwrite)` since. -/
def owesWriter : PipePc → Bool
  | readCopy _ _ | readExit _ => true
  | _ => false

/-- The process has bytes to write, after one that it has stored since it took the lock. -/
def midTransfer : PipePc → Bool
  | write i n stored => stored && decide (i < n)
  | _ => false

/-- The process neither holds the lock nor sleeps. -/
def isAway : PipePc → Bool
  | out | writeAcquire _ _ | readAcquire _ => true
  | _ => false

variable {pc : PipePc}

theorem holdsLock_of_owesReader (h : pc.owesReader = true) : pc.holdsLock = true := by
  cases pc <;> first | rfl | cases h

theorem holdsLock_of_owesWriter (h : pc.owesWriter = true) : pc.holdsLock = true := by
  cases pc <;> first | rfl | cases h

theorem wakeReader_eq_or (pc : PipePc) :
    pc.wakeReader = pc ∨ pc.holdsLock = false ∧ pc.wakeReader.isAway = true := by
  cases pc with
  | readAsleep n => exact .inr ⟨rfl, rfl⟩
  | _ => exact .inl rfl

theorem wakeWriter_eq_or (pc : PipePc) :
    pc.wakeWriter = pc ∨ pc.holdsLock = false ∧ pc.wakeWriter.isAway = true := by
  cases pc with
  | writeAsleep i n => exact .inr ⟨rfl, rfl⟩
  | _ => exact .inl rfl

theorem holdsLock_wakeReader : pc.wakeReader.holdsLock = pc.holdsLock := by
  cases pc <;> rfl

theorem not_asleepReading_wakeReader : pc.wakeReader.asleepReading = false := by
  cases pc <;> rfl

theorem holdsLock_wakeWriter : pc.wakeWriter.holdsLock = pc.holdsLock := by
  cases pc <;> rfl

theorem asleepWriting_wakeReader : pc.wakeReader.asleepWriting = pc.asleepWriting := by
  cases pc <;> rfl

theorem asleepReading_wakeWriter : pc.wakeWriter.asleepReading = pc.asleepReading := by
  cases pc <;> rfl

theorem not_asleepWriting_wakeWriter : pc.wakeWriter.asleepWriting = false := by
  cases pc <;> rfl

theorem not_of_isAway (h : pc.isAway = true) :
    pc.holdsLock = false ∧ pc.asleepReading = false ∧ pc.asleepWriting = false := by
  cases pc <;> first | exact ⟨rfl, rfl, rfl⟩ | cases h

end PipePc

namespace PipeSys

variable {N : ℕ} {s t : PipeSys N}

/-- The buffer is empty, and there will be more. -/
def WaitRead (s : PipeSys N) : Prop := s.pipe.nread = s.pipe.nwrite ∧ s.pipe.writeopen = true

/-- The buffer is full, and there will be room. -/
def WaitWrite (s : PipeSys N) : Prop :=
  s.pipe.nwrite = s.pipe.nread + BitVec.ofNat 32 pipesize ∧ s.pipe.readopen = true

/-- `pipewrite` finds its process killed after it has stored a byte, while a reader sleeps. -/
def exitsUnannounced (s : PipeSys N) : PipeEvent N → Bool
  | .writeTurn p _ => (s.proc p).killed && (s.proc p).pc.midTransfer &&
      decide (∃ q, (s.proc q).pc.asleepReading = true)
  | _ => false

/-- What the holder of the lock knows at `pc`: why it is going to sleep, or that it has looked at
`readopen` before it stored. -/
def Knows (s : PipeSys N) : PipePc → Prop
  | .readSleep _ => s.WaitRead
  | .writeSleep _ _ => s.WaitWrite
  | .write _ _ true => s.pipe.readopen = true
  | _ => True

/-- What keeps sleepers from being stranded: they sleep for a reason, or the holder of the lock is
going to wake them up. -/
structure Attended (s : PipeSys N) : Prop where
  lock : ∀ p, (s.proc p).pc.holdsLock = true → s.lock = some p
  reading : ∀ p, (s.proc p).pc.asleepReading = true →
    s.WaitRead ∨ ∃ q, (s.proc q).pc.owesReader = true
  writing : ∀ p, (s.proc p).pc.asleepWriting = true →
    s.WaitWrite ∨ ∃ q, (s.proc q).pc.owesWriter = true
  knows : ∀ p, s.Knows (s.proc p).pc

theorem attended_init (junk : ℕ → BitVec 8) : Attended (init N junk) where
  lock _ h := by cases h
  reading _ h := by cases h
  writing _ h := by cases h
  knows _ := trivial

theorem knows_of_not_holdsLock {pc : PipePc} (h : pc.holdsLock = false) : s.Knows pc := by
  cases pc <;> trivial

theorem knows_congr (h : t.pipe = s.pipe) (pc : PipePc) : t.Knows pc = s.Knows pc := by
  unfold Knows WaitRead WaitWrite
  rw [h]

theorem setPc_pc_self (p : Fin N) (pc : PipePc) : ((s.setPc p pc).proc p).pc = pc := by
  show (update s.proc p _ p).pc = pc
  rw [update_self]

theorem setPc_pc_of_ne {p q : Fin N} (h : q ≠ p) (pc : PipePc) :
    ((s.setPc p pc).proc q).pc = (s.proc q).pc := by
  show (update s.proc p _ q).pc = (s.proc q).pc
  rw [update_of_ne h]

namespace Attended

variable (hs : Attended s) {p : Fin N}

include hs

theorem eq_of_holdsLock {q : Fin N} (hp : (s.proc p).pc.holdsLock = true)
    (hq : (s.proc q).pc.holdsLock = true) : q = p :=
  some_inj.1 ((hs.lock q hq).symm.trans (hs.lock p hp))

/-- Nobody sleeps on `&pi->nread` without a reason while the holder of the lock owes no wakeup. -/
theorem waitRead (hp : (s.proc p).pc.holdsLock = true) (hno : (s.proc p).pc.owesReader = false)
    {q : Fin N} (hq : (s.proc q).pc.asleepReading = true) : s.WaitRead := by
  refine (hs.reading q hq).resolve_right ?_
  rintro ⟨r, hr⟩
  rw [hs.eq_of_holdsLock hp (PipePc.holdsLock_of_owesReader hr), hno] at hr
  cases hr

theorem waitWrite (hp : (s.proc p).pc.holdsLock = true) (hno : (s.proc p).pc.owesWriter = false)
    {q : Fin N} (hq : (s.proc q).pc.asleepWriting = true) : s.WaitWrite := by
  refine (hs.writing q hq).resolve_right ?_
  rintro ⟨r, hr⟩
  rw [hs.eq_of_holdsLock hp (PipePc.holdsLock_of_owesWriter hr), hno] at hr
  cases hr

theorem not_holdsLock (hfree : s.lock = none) (q : Fin N) : (s.proc q).pc.holdsLock = false := by
  by_contra h
  have := hs.lock q (Bool.eq_true_of_not_eq_false h)
  rw [hfree] at this
  cases this

theorem waitRead_of_free (hfree : s.lock = none) {q : Fin N}
    (hq : (s.proc q).pc.asleepReading = true) : s.WaitRead := by
  refine (hs.reading q hq).resolve_right ?_
  rintro ⟨r, hr⟩
  have := PipePc.holdsLock_of_owesReader hr
  rw [hs.not_holdsLock hfree] at this
  cases this

theorem waitWrite_of_free (hfree : s.lock = none) {q : Fin N}
    (hq : (s.proc q).pc.asleepWriting = true) : s.WaitWrite := by
  refine (hs.writing q hq).resolve_right ?_
  rintro ⟨r, hr⟩
  have := PipePc.holdsLock_of_owesWriter hr
  rw [hs.not_holdsLock hfree] at this
  cases this

theorem others_not_holdsLock (hp : (s.proc p).pc.holdsLock = true) {q : Fin N} (hq : q ≠ p) :
    (s.proc q).pc.holdsLock = false := by
  by_contra h
  exact hq (hs.eq_of_holdsLock hp (Bool.eq_true_of_not_eq_false h))

/-- Processes that do not hold the lock come, or are woken up. -/
theorem of_away (hpipe : t.pipe = s.pipe) (hlock : t.lock = s.lock)
    (hpc : ∀ q, (t.proc q).pc = (s.proc q).pc ∨
      (s.proc q).pc.holdsLock = false ∧ (t.proc q).pc.isAway = true) : Attended t := by
  have hread : t.WaitRead = s.WaitRead := by rw [WaitRead, WaitRead, hpipe]
  have hwrite : t.WaitWrite = s.WaitWrite := by rw [WaitWrite, WaitWrite, hpipe]
  have hsame : ∀ q, (s.proc q).pc.holdsLock = true → (t.proc q).pc = (s.proc q).pc := by
    intro q hq
    refine (hpc q).resolve_right fun h ↦ ?_
    rw [h.1] at hq
    cases hq
  refine ⟨?_, ?_, ?_, ?_⟩
  · intro q hq
    rcases hpc q with h | ⟨-, h⟩
    · exact hlock.trans (hs.lock q (h ▸ hq))
    · rw [(PipePc.not_of_isAway h).1] at hq
      cases hq
  · intro q hq
    rcases hpc q with h | ⟨-, h⟩
    · refine (hs.reading q (h ▸ hq)).imp (fun h ↦ hread ▸ h) ?_
      exact fun ⟨r, hr⟩ ↦ ⟨r, hsame r (PipePc.holdsLock_of_owesReader hr) ▸ hr⟩
    · rw [(PipePc.not_of_isAway h).2.1] at hq
      cases hq
  · intro q hq
    rcases hpc q with h | ⟨-, h⟩
    · refine (hs.writing q (h ▸ hq)).imp (fun h ↦ hwrite ▸ h) ?_
      exact fun ⟨r, hr⟩ ↦ ⟨r, hsame r (PipePc.holdsLock_of_owesWriter hr) ▸ hr⟩
    · rw [(PipePc.not_of_isAway h).2.2] at hq
      cases hq
  · intro q
    rcases hpc q with h | ⟨-, h⟩
    · rw [h, knows_congr hpipe]
      exact hs.knows q
    · exact knows_of_not_holdsLock (PipePc.not_of_isAway h).1

theorem wakeReaders : Attended s.wakeReaders :=
  hs.of_away rfl rfl fun q ↦ PipePc.wakeReader_eq_or (s.proc q).pc

theorem wakeWriters : Attended s.wakeWriters :=
  hs.of_away rfl rfl fun q ↦ PipePc.wakeWriter_eq_or (s.proc q).pc

omit hs in
/-- `p`, which holds the lock or finds it free, goes to `pc`, where it knows enough, and the others
have a reason to go on sleeping. -/
theorem of_setPc (hfree : ∀ q ≠ p, (s.proc q).pc.holdsLock = false) {pc : PipePc}
    (hproc : t.proc = (s.setPc p pc).proc) (hlock : pc.holdsLock = true → t.lock = some p)
    (hknows : t.Knows pc)
    (hread : ∀ q, (s.proc q).pc.asleepReading = true → t.WaitRead ∨ pc.owesReader = true)
    (hwrite : ∀ q, (s.proc q).pc.asleepWriting = true → t.WaitWrite ∨ pc.owesWriter = true)
    (hsleep : (pc.asleepReading = true → t.WaitRead) ∧ (pc.asleepWriting = true → t.WaitWrite)) :
    Attended t := by
  have hself : (t.proc p).pc = pc := by rw [hproc, setPc_pc_self]
  have hother : ∀ q ≠ p, (t.proc q).pc = (s.proc q).pc := by
    intro q hq
    rw [hproc, setPc_pc_of_ne hq]
  refine ⟨?_, ?_, ?_, ?_⟩
  · intro q hq
    by_cases hqp : q = p
    · subst hqp
      exact hlock (hself ▸ hq)
    · rw [hother q hqp, hfree q hqp] at hq
      cases hq
  · intro q hq
    by_cases hqp : q = p
    · subst hqp
      exact .inl (hsleep.1 (hself ▸ hq))
    · exact (hread q (hother q hqp ▸ hq)).imp_right fun h ↦ ⟨p, hself ▸ h⟩
  · intro q hq
    by_cases hqp : q = p
    · subst hqp
      exact .inl (hsleep.2 (hself ▸ hq))
    · exact (hwrite q (hother q hqp ▸ hq)).imp_right fun h ↦ ⟨p, hself ▸ h⟩
  · intro q
    by_cases hqp : q = p
    · subst hqp
      exact hself ▸ hknows
    · rw [hother q hqp]
      exact knows_of_not_holdsLock (hfree q hqp)

theorem acquire {pc : PipePc} (hfree : s.lock = none)
    (hpc : t = { s.setPc p pc with lock := some p })
    (hknows : t.Knows pc) (hawake : pc.asleepReading = false ∧ pc.asleepWriting = false) :
    Attended t := by
  subst hpc
  refine of_setPc (fun q _ ↦ hs.not_holdsLock hfree q) rfl (fun _ ↦ rfl) hknows
    (fun q hq ↦ .inl (hs.waitRead_of_free hfree hq))
    (fun q hq ↦ .inl (hs.waitWrite_of_free hfree hq)) ?_
  rw [hawake.1, hawake.2]
  exact ⟨nofun, nofun⟩

theorem writeTurn {i n : ℤ} {stored : Bool} (hpc : (s.proc p).pc = .write i n stored)
    {ch : Option (BitVec 8)} (he : s.exitsUnannounced (.writeTurn p ch) = false) :
    Attended (s.writeTurn p i n ch) := by
  have hp : (s.proc p).pc.holdsLock = true := by rw [hpc]; rfl
  have hlock := hs.lock p hp
  have hfree : ∀ q ≠ p, (s.proc q).pc.holdsLock = false := fun q ↦ hs.others_not_holdsLock hp
  have hwriting : ∀ q, (s.proc q).pc.asleepWriting = true → s.WaitWrite :=
    fun q ↦ hs.waitWrite hp (by rw [hpc]; rfl)
  have hexit : Attended (s.setPc p (.writeExit i)) :=
    of_setPc hfree rfl (fun _ ↦ hlock) trivial (fun _ _ ↦ .inr rfl)
      (fun q hq ↦ .inl (hwriting q hq))
      ⟨nofun, nofun⟩
  unfold PipeSys.writeTurn
  split_ifs with hin hstop hfull
  · refine of_setPc hfree rfl nofun trivial ?_ (fun q hq ↦ .inl (hwriting q hq))
      ⟨nofun, nofun⟩
    -- A byte stored under this lock was stored with `readopen` set, so the process is killed.
    intro q hq
    refine .inl (hs.waitRead hp ?_ hq)
    rw [hpc]
    show stored = false
    by_contra hstored
    rw [Bool.not_eq_false] at hstored
    subst hstored
    have hopen : s.Knows (s.proc p).pc := hs.knows p
    rw [hpc] at hopen
    have hkilled : (s.proc p).killed = true := hstop.resolve_left (by rw [hopen]; decide)
    simp only [exitsUnannounced, hkilled, hpc, PipePc.midTransfer, hin, decide_true, Bool.and_true,
      Bool.true_and, decide_eq_false_iff_not, not_exists] at he
    exact he q hq
  · obtain ⟨hopen, -⟩ := not_or.1 hstop
    refine of_setPc (s := s.wakeReaders) (fun q hq ↦ ?_) rfl (fun _ ↦ hlock)
      ⟨hfull, Bool.eq_true_of_not_eq_false hopen⟩ (fun q hq ↦ ?_) (fun q hq ↦ ?_)
      ⟨nofun, nofun⟩
    · exact PipePc.holdsLock_wakeReader.trans (hfree q hq)
    · cases (PipePc.not_asleepReading_wakeReader).symm.trans hq
    · exact .inl ⟨hfull, Bool.eq_true_of_not_eq_false hopen⟩
  · cases ch with
    | none => exact hexit
    | some ch =>
      obtain ⟨hopen, -⟩ := not_or.1 hstop
      exact of_setPc hfree rfl (fun _ ↦ hlock) (Bool.eq_true_of_not_eq_false hopen)
        (fun _ _ ↦ .inr rfl) (fun q hq ↦ absurd (hwriting q hq).1 hfull)
        ⟨nofun, nofun⟩
  · exact hexit

theorem readTurn {n : ℤ} (hpc : (s.proc p).pc = .read n) : Attended (s.readTurn p n) := by
  have hp : (s.proc p).pc.holdsLock = true := by rw [hpc]; rfl
  have hfree : ∀ q ≠ p, (s.proc q).pc.holdsLock = false := fun q ↦ hs.others_not_holdsLock hp
  have hreading : ∀ q, (s.proc q).pc.asleepReading = true → s.WaitRead :=
    fun q ↦ hs.waitRead hp (by rw [hpc]; rfl)
  have hwriting : ∀ q, (s.proc q).pc.asleepWriting = true → s.WaitWrite :=
    fun q ↦ hs.waitWrite hp (by rw [hpc]; rfl)
  rw [PipeSys.readTurn]
  split_ifs with hempty hkilled
  · exact of_setPc hfree rfl nofun trivial (fun q hq ↦ .inl (hreading q hq))
      (fun q hq ↦ .inl (hwriting q hq)) ⟨nofun, nofun⟩
  · exact of_setPc hfree rfl (fun _ ↦ hs.lock p hp) hempty (fun q hq ↦ .inl (hreading q hq))
      (fun q hq ↦ .inl (hwriting q hq)) ⟨nofun, nofun⟩
  · exact of_setPc hfree rfl (fun _ ↦ hs.lock p hp) trivial (fun q hq ↦ .inl (hreading q hq))
      (fun q hq ↦ .inl (hwriting q hq)) ⟨nofun, nofun⟩

theorem copyTurn {i n : ℤ} (hpc : (s.proc p).pc = .readCopy i n) (ok : Bool) :
    Attended (s.copyTurn p i n ok) := by
  have hp : (s.proc p).pc.holdsLock = true := by rw [hpc]; rfl
  have hfree : ∀ q ≠ p, (s.proc q).pc.holdsLock = false := fun q ↦ hs.others_not_holdsLock hp
  have hreading : ∀ q, (s.proc q).pc.asleepReading = true → s.WaitRead :=
    fun q ↦ hs.waitRead hp (by rw [hpc]; rfl)
  have hexit : ∀ r, Attended (s.setPc p (.readExit r)) := fun r ↦
    of_setPc hfree rfl (fun _ ↦ hs.lock p hp) trivial (fun q hq ↦ .inl (hreading q hq))
      (fun _ _ ↦ .inr rfl) ⟨nofun, nofun⟩
  rw [PipeSys.copyTurn]
  split_ifs with hin hempty hok
  · exact hexit i
  · exact of_setPc hfree rfl (fun _ ↦ hs.lock p hp) trivial
      (fun q hq ↦ absurd (hreading q hq).1 hempty) (fun _ _ ↦ .inr rfl) ⟨nofun, nofun⟩
  · exact hexit _
  · exact hexit _
  · exact hexit i

theorem sleep {pc : PipePc} (hp : (s.proc p).pc.holdsLock = true)
    (howes : (s.proc p).pc.owesReader = false ∧ (s.proc p).pc.owesWriter = false)
    (hpc : pc.holdsLock = false)
    (hsleep : (pc.asleepReading = true → s.WaitRead) ∧ (pc.asleepWriting = true → s.WaitWrite)) :
    Attended (s.setPc p pc).release := by
  refine of_setPc (fun q ↦ hs.others_not_holdsLock hp) rfl ?_ (knows_of_not_holdsLock hpc)
    (fun q hq ↦ .inl (hs.waitRead hp howes.1 hq)) (fun q hq ↦ .inl (hs.waitWrite hp howes.2 hq))
    hsleep
  intro h
  rw [hpc] at h
  cases h

theorem writeExit {i : ℤ} (hpc : (s.proc p).pc = .writeExit i) :
    Attended (s.wakeReaders.setPc p .out).release := by
  have hp : (s.proc p).pc.holdsLock = true := by rw [hpc]; rfl
  refine of_setPc (s := s.wakeReaders) (fun q hq ↦ ?_) rfl nofun trivial (fun q hq ↦ ?_)
    (fun q hq ↦ ?_) ⟨nofun, nofun⟩
  · exact PipePc.holdsLock_wakeReader.trans (hs.others_not_holdsLock hp hq)
  · cases (PipePc.not_asleepReading_wakeReader).symm.trans hq
  · have hsame : (s.wakeReaders.proc p).pc = .writeExit i := by
      show (s.proc p).pc.wakeReader = _
      rw [hpc]
      rfl
    exact .inl (hs.wakeReaders.waitWrite (p := p) (by rw [hsame]; rfl) (by rw [hsame]; rfl) hq)

theorem readExit {i : ℤ} (hpc : (s.proc p).pc = .readExit i) :
    Attended (s.wakeWriters.setPc p .out).release := by
  have hp : (s.proc p).pc.holdsLock = true := by rw [hpc]; rfl
  refine of_setPc (s := s.wakeWriters) (fun q hq ↦ ?_) rfl nofun trivial (fun q hq ↦ ?_)
    (fun q hq ↦ ?_) ⟨nofun, nofun⟩
  · exact PipePc.holdsLock_wakeWriter.trans (hs.others_not_holdsLock hp hq)
  · have hsame : (s.wakeWriters.proc p).pc = .readExit i := by
      show (s.proc p).pc.wakeWriter = _
      rw [hpc]
      rfl
    exact .inl (hs.wakeWriters.waitRead (p := p) (by rw [hsame]; rfl) (by rw [hsame]; rfl) hq)
  · cases (PipePc.not_asleepWriting_wakeWriter).symm.trans hq

theorem close (hfree : s.lock = none) (writable : Bool) : Attended (s.close writable) := by
  have hreading : ∀ q, (s.proc q).pc.asleepReading = true → s.WaitRead :=
    fun q ↦ hs.waitRead_of_free hfree
  have hwriting : ∀ q, (s.proc q).pc.asleepWriting = true → s.WaitWrite :=
    fun q ↦ hs.waitWrite_of_free hfree
  cases writable with
  | true =>
    have hnot : ∀ q, (s.proc q).pc.wakeReader.holdsLock = false :=
      fun q ↦ PipePc.holdsLock_wakeReader.trans (hs.not_holdsLock hfree q)
    refine ⟨fun q hq ↦ ?_, fun q hq ↦ ?_, fun q hq ↦ ?_, fun q ↦ knows_of_not_holdsLock (hnot q)⟩
    · cases (hnot q).symm.trans hq
    · cases PipePc.not_asleepReading_wakeReader.symm.trans hq
    · exact .inl (hwriting q (PipePc.asleepWriting_wakeReader.symm.trans hq))
  | false =>
    have hnot : ∀ q, (s.proc q).pc.wakeWriter.holdsLock = false :=
      fun q ↦ PipePc.holdsLock_wakeWriter.trans (hs.not_holdsLock hfree q)
    refine ⟨fun q hq ↦ ?_, fun q hq ↦ ?_, fun q hq ↦ ?_, fun q ↦ knows_of_not_holdsLock (hnot q)⟩
    · cases (hnot q).symm.trans hq
    · exact .inl (hreading q (PipePc.asleepReading_wakeWriter.symm.trans hq))
    · cases PipePc.not_asleepWriting_wakeWriter.symm.trans hq

theorem kill (p : Fin N) : Attended (s.kill p) := by
  refine hs.of_away rfl rfl fun q ↦ ?_
  by_cases hqp : q = p
  · subst hqp
    show (update s.proc q _ q).pc = _ ∨ _ ∧ (update s.proc q _ q).pc.isAway = true
    rw [update_self]
    cases hpc : (s.proc q).pc <;> first | exact .inl rfl | exact .inr ⟨rfl, rfl⟩
  · show (update s.proc p _ q).pc = _ ∨ _
    rw [update_of_ne hqp]
    exact .inl rfl

theorem call (hpc : (s.proc p).pc = .out) {pc : PipePc} (haway : pc.isAway = true) :
    Attended (s.setPc p pc) := by
  refine hs.of_away rfl rfl fun q ↦ ?_
  by_cases hqp : q = p
  · subst hqp
    rw [setPc_pc_self, hpc]
    exact .inr ⟨rfl, haway⟩
  · rw [setPc_pc_of_ne hqp]
    exact .inl rfl

theorem step {e : PipeEvent N} (he : s.exitsUnannounced e = false)
    (h : PipeSys.step s e = some t) : Attended t := by
  cases e with
  | callWrite p n | callRead p n =>
    rw [PipeSys.step, ite_none_right_eq_some] at h
    obtain ⟨hpc, h⟩ := h
    exact some_inj.1 h ▸ hs.call hpc rfl
  | close p writable =>
    rw [PipeSys.step, ite_none_right_eq_some] at h
    obtain ⟨⟨-, hfree⟩, h⟩ := h
    exact some_inj.1 h ▸ hs.close hfree writable
  | kill p => exact some_inj.1 h ▸ hs.kill p
  | acquire p =>
    rw [PipeSys.step, ite_none_right_eq_some] at h
    obtain ⟨hfree, h⟩ := h
    split at h
    · exact hs.acquire hfree (some_inj.1 h).symm trivial ⟨rfl, rfl⟩
    · exact hs.acquire hfree (some_inj.1 h).symm trivial ⟨rfl, rfl⟩
    · cases h
  | writeTurn p ch =>
    rw [PipeSys.step] at h
    split at h
    · rename_i hpc
      exact some_inj.1 h ▸ hs.writeTurn hpc he
    · cases h
  | readTurn p =>
    rw [PipeSys.step] at h
    split at h
    · rename_i hpc
      exact some_inj.1 h ▸ hs.readTurn hpc
    · cases h
  | copyTurn p ok =>
    rw [PipeSys.step] at h
    split at h
    · rename_i hpc
      exact some_inj.1 h ▸ hs.copyTurn hpc ok
    · cases h
  | sleep p =>
    have hknows := hs.knows p
    rw [PipeSys.step] at h
    split at h
    · rename_i hpc
      rw [hpc] at hknows
      refine some_inj.1 h ▸ hs.sleep ?_ ?_ rfl ⟨nofun, fun _ ↦ hknows⟩
      · rw [hpc]; rfl
      · rw [hpc]; exact ⟨rfl, rfl⟩
    · rename_i hpc
      rw [hpc] at hknows
      refine some_inj.1 h ▸ hs.sleep ?_ ?_ rfl ⟨fun _ ↦ hknows, nofun⟩
      · rw [hpc]; rfl
      · rw [hpc]; exact ⟨rfl, rfl⟩
    · cases h
  | exit p =>
    rw [PipeSys.step] at h
    split at h
    · rename_i hpc
      exact some_inj.1 h ▸ hs.writeExit hpc
    · rename_i hpc
      exact some_inj.1 h ▸ hs.readExit hpc
    · cases h

end Attended

/-- **No sleeper is stranded** in a run in which no `pipewrite` returns because its process is
killed after it has stored a byte, while a reader sleeps: whenever the lock is free, a process that
sleeps on `&pi->nread` finds the buffer empty and the write end open, and one that sleeps on
`&pi->nwrite` finds the buffer full and the read end open. -/
theorem sleepers_not_stranded {junk : ℕ → BitVec 8} {es : List (PipeEvent N)}
    (h : runSteps (restrictSteps step fun s e ↦ s.exitsUnannounced e = false) (init N junk) es =
      some s) (hfree : s.lock = none) (p : Fin N) :
    (∀ n, (s.proc p).pc = .readAsleep n →
      s.pipe.nread = s.pipe.nwrite ∧ s.pipe.writeopen = true) ∧
    ∀ i n, (s.proc p).pc = .writeAsleep i n →
      s.pipe.nwrite = s.pipe.nread + BitVec.ofNat 32 pipesize ∧ s.pipe.readopen = true := by
  have hs : Attended s := runSteps_invariant (attended_init junk) (fun r e t hr hstep ↦
    hr.step (restrictSteps_eq_some hstep).1 (restrictSteps_eq_some hstep).2) h
  constructor
  · intro n hpc
    exact hs.waitRead_of_free (q := p) hfree (by rw [hpc]; rfl)
  · intro i n hpc
    exact hs.waitWrite_of_free (q := p) hfree (by rw [hpc]; rfl)

/-- `p` sleeps in `piperead`. -/
def readerSleeps (p : Fin N) : List (PipeEvent N) :=
  [.callRead p 1, .acquire p, .readTurn p, .sleep p]

/-- `p` writes two bytes, and is killed before it stores the second one. -/
def killedHalfway (p : Fin N) : List (PipeEvent N) :=
  [.callWrite p 2, .acquire p, .writeTurn p (some 104), .kill p, .writeTurn p (some 105)]

theorem sleepers_not_stranded_readerSleeps :
    ∃ s, runSteps (restrictSteps step fun s e ↦ s.exitsUnannounced e = false)
        (init 2 fun _ ↦ 0) (readerSleeps 0) = some s ∧ s.lock = none ∧
      (s.proc 0).pc = .readAsleep 1 ∧ s.pipe.nread = s.pipe.nwrite := by
  have hrun : ∃ s ∈ runSteps (restrictSteps step fun s e ↦ s.exitsUnannounced e = false)
      (init 2 fun _ ↦ 0) (readerSleeps 0), s.lock = none ∧ (s.proc 0).pc = .readAsleep 1 := by
    decide +kernel
  obtain ⟨s, hs, hfree, hpc⟩ := hrun
  exact ⟨s, hs, hfree, hpc, ((sleepers_not_stranded hs hfree 0).1 1 hpc).1⟩

/-- **A stranded reader**: the lock is free and there is a byte in the buffer, which process 0 is
not told about. -/
theorem strands_reader :
    ∃ s, runSteps step (init 2 fun _ ↦ 0) (readerSleeps 0 ++ killedHalfway 1) = some s ∧
      s.lock = none ∧ (s.proc 0).pc = .readAsleep 1 ∧ s.pipe.nread ≠ s.pipe.nwrite ∧
      s.pipe.writeopen = true := by
  have hrun : ∃ s ∈ runSteps step (init 2 fun _ ↦ 0) (readerSleeps 0 ++ killedHalfway 1),
      s.lock = none ∧ (s.proc 0).pc = .readAsleep 1 ∧ s.pipe.nread ≠ s.pipe.nwrite ∧
      s.pipe.writeopen = true := by decide +kernel
  exact hrun

end PipeSys

end Xv6

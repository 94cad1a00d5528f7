import Mathlib.Algebra.Order.Ring.Int
import Mathlib.Data.Finset.Card
import Xv6.Param
import Xv6.Trace.Event

/-!
# The log reducer

`reduce_log` of the persistence lab. It derives `n`, `outstanding` and `committing` from the events
and compares them with what the events carry. At `LOG_ADMIT` it looks at `committing` of the event
only, and at `LOG_END` it takes that of the event over: so it accepts lists in which an operation is
admitted while a commit is running (`accepts_admit_in_commit`).

Which of the accepted lists keep to the protocol of `log.c` can be told from the fields of the
events alone (`Steady`): those in which an operation begins and ends right after an event that
carries `committing` 0, events of waiting processes aside, as these need not carry what has been
derived (`reduceLog_sound`). That the condition is enough is by `Attended`, an invariant of the
reducer. That it cannot be done without rests on the end of the list: an operation that ends in a
commit leaves `outstanding` negative, nothing but an operation that begins in the commit brings it
back to 0, and 0 it has to be when the list ends (`Overdrawn`).

A dictionary of counts is the list of what is counted.
-/

namespace Xv6

open List

namespace Trace

/-- The key of `io_inflight`. -/
structure IoIdentity where
  slot : ℤ
  bufferGeneration : ℤ
  dev : ℤ
  block : ℤ
  aux : ℤ
  deriving DecidableEq

def Event.ioIdentity (e : Event) : IoIdentity :=
  ⟨e.slot, e.bufferGeneration, e.dev, e.block, e.aux⟩

/-- `io_submitted` and `io_completed`: the counts under the keys 0 and 1. -/
structure IoCount where
  reads : ℕ
  writes : ℕ
  deriving DecidableEq

/-- `counts[aux] += 1` -/
def IoCount.bump (k : IoCount) (aux : ℤ) : Except String IoCount :=
  if aux = 0 then .ok { k with reads := k.reads + 1 }
  else if aux = 1 then .ok { k with writes := k.writes + 1 }
  else .error "KeyError"

/-- The variables of `reduce_log`. -/
structure LogState where
  n : ℤ
  outstanding : ℤ
  committing : ℤ
  entries : List ℤ
  completion : List Event
  writeCompletions : List Event
  logEvents : List Event
  inflight : List IoIdentity
  submitted : IoCount
  completed : IoCount
  deriving DecidableEq

namespace LogState

def init : LogState := ⟨0, 0, 0, [], [], [], [], [], ⟨0, 0⟩, ⟨0, 0⟩⟩

/-- `(event["log_n"], event["outstanding"], event["committing"])` is what has been derived. -/
def Carries (s : LogState) (e : Event) : Prop :=
  e.logN = s.n ∧ e.outstanding = s.outstanding ∧ e.committing = s.committing

instance (s : LogState) (e : Event) : Decidable (s.Carries e) :=
  inferInstanceAs (Decidable (_ ∧ _ ∧ _))

/-- The turn of the loop for an event of the disk. -/
def stepIo (case : String) (s : LogState) (e : Event) : Except String LogState := do
  require (s.Carries e) (case ++ " IO event carries stale log state")
  if e.point = .ioSubmit then
    let submitted ← s.submitted.bump e.aux
    return { s with inflight := e.ioIdentity :: s.inflight, submitted := submitted }
  else
    require (e.ioIdentity ∈ s.inflight) (case ++ " IO completion lacks a matching submit")
    let completed ← s.completed.bump e.aux
    return { s with
      inflight := s.inflight.erase e.ioIdentity
      completed := completed
      writeCompletions := if e.aux = 1 then s.writeCompletions ++ [e] else s.writeCompletions }

/-- The turn of the loop for an event of the log. -/
def stepLog (case : String) (s : LogState) (e : Event) : Except String LogState :=
  match e.point with
  | .logWaitCommit => do
    require (e.logN = s.n ∧ e.outstanding = s.outstanding ∧ e.committing = 1)
      (case ++ " invalid commit wait/recheck state")
    return s
  | .logWaitSpace => do
    require ((e.logN = s.n ∧ e.outstanding = s.outstanding ∧ e.committing = 0) ∧
        e.logN + (e.outstanding + 1) * maxOpBlocks > logBlocks)
      (case ++ " space wait did not cross the admission bound")
    return s
  | .logAdmit => do
    -- the derived `committing` is not looked at
    require (e.logN = s.n ∧ e.committing = 0 ∧ e.outstanding = s.outstanding + 1 ∧
      e.logN + e.outstanding * maxOpBlocks ≤ logBlocks)
      (case ++ " successful admission violated capacity")
    return { s with outstanding := e.outstanding }
  | .logEnd => do
    require (e.logN = s.n ∧ e.outstanding = s.outstanding - 1 ∧ (e.aux = 0 ∨ e.aux = 1))
      (case ++ " end_op outstanding transition changed")
    if e.aux ≠ 0 then
      require (e.outstanding = 0 ∧ e.committing = 1)
        (case ++ " group commit did not start at last end_op")
    else
      require (e.committing = 0) (case ++ " non-last end_op started a commit")
    return { s with outstanding := e.outstanding, committing := e.committing }
  | .logAppend => do
    require (e.block ∉ s.entries ∧ e.logN = s.n + 1 ∧ e.outstanding = s.outstanding ∧
      e.committing = s.committing ∧ s.committing = 0)
      (case ++ " log append/absorption state changed")
    return { s with entries := e.block :: s.entries, n := e.logN }
  | .logAbsorb => do
    require (e.block ∈ s.entries ∧ s.Carries e)
      (case ++ " absorption added or changed a log entry")
    return s
  | .logPayload => do
    require (s.Carries e ∧ e.committing = 1 ∧ e.logN > 0)
      (case ++ " completion occurred outside group commit")
    return { s with completion := s.completion ++ [e] }
  | .logHeader => do
    require (s.Carries e ∧ e.committing = 1 ∧ e.logN > 0)
      (case ++ " completion occurred outside group commit")
    require (e.aux = e.logN) (case ++ " nonzero header completion changed")
    return { s with completion := s.completion ++ [e] }
  | .logHome => do
    require (s.Carries e ∧ e.committing = 1 ∧ e.logN > 0)
      (case ++ " completion occurred outside group commit")
    return { s with completion := s.completion ++ [e] }
  | .logClear => do
    require (s.n > 0 ∧ e.logN = 0 ∧ e.outstanding = 0 ∧ e.committing = s.committing ∧
      s.committing = 1 ∧ e.aux = 0) (case ++ " zero-header clear transition changed")
    return { s with n := 0, entries := [], completion := s.completion ++ [e] }
  | .logCommitDone => do
    require ((s.n = 0 ∧ s.outstanding = 0 ∧ s.committing = 1) ∧
      (e.logN = 0 ∧ e.outstanding = 0 ∧ e.committing = 0))
      (case ++ " committing cleared before zero header")
    return { s with committing := 0 }
  | .other point => .error (case ++ " unknown log point " ++ toString point)
  | _ => .error (case ++ " unknown log point")

/-- A turn of the loop of `reduce_log`. -/
def step (case : String) (s : LogState) (e : Event) : Except String LogState :=
  if e.point.isCache then do
    require (s.Carries e) (case ++ " cache event carries stale log state")
    return s
  else if e.point.isIo then s.stepIo case e
  else stepLog case { s with logEvents := s.logEvents ++ [e] } e

end LogState

/-- What `reduce_log` returns. -/
structure LogSummary where
  events : List Event
  completion : List Event
  logicalIoSubmitted : ℕ
  logicalIoCompleted : ℕ
  readIoSubmitted : ℕ
  readIoCompleted : ℕ
  writeCompletions : List Event

/-- `reduce_log` -/
def reduceLog (case : String) (events : List Event) : Except String LogSummary := do
  let s ← events.foldlM (LogState.step case) LogState.init
  require (s.n = 0 ∧ s.outstanding = 0 ∧ s.committing = 0)
    (case ++ " event-derived log ledger did not drain")
  require (s.inflight = [] ∧ s.submitted = s.completed)
    (case ++ " IO submit/completion ledger did not drain")
  return ⟨s.logEvents, s.completion, s.submitted.writes, s.completed.writes, s.submitted.reads,
    s.completed.reads, s.writeCompletions⟩

/-! ### What a turn of the loop does -/

/-- `LOG_PAYLOAD`, `LOG_HEADER`, `LOG_HOME` or `LOG_CLEAR`. -/
def Point.isCompletion : Point → Bool
  | logPayload | logHeader | logHome | logClear => true
  | _ => false

/-- The points at which nothing that the reducer derives changes. -/
def Point.isQuiet : Point → Bool
  | logAdmit | logEnd | logAppend | logClear | logCommitDone | ioSubmit | ioComplete => false
  | _ => true

/-- The points at which a process waits. Their `committing` is not compared with what is derived. -/
def Point.isWait : Point → Bool
  | logWaitCommit | logWaitSpace => true
  | _ => false

/-- What is derived from the events: the variables of the log, and the requests in flight. -/
structure Derived where
  n : ℤ
  outstanding : ℤ
  committing : ℤ
  entries : List ℤ
  inflight : List IoIdentity

def LogState.derived (s : LogState) : Derived :=
  ⟨s.n, s.outstanding, s.committing, s.entries, s.inflight⟩

/-- The changes of the derived state at an event that is accepted, with what is known of the fields
of the event. -/
inductive Derived.Accepts (d : Derived) (e : Event) : Derived → Prop
  | quiet (hp : e.point.isQuiet) (hc : e.point.isCompletion → d.committing = 1)
      (hcarry : e.point.isWait ∨ e.committing = d.committing) : d.Accepts e d
  | admitted (hp : e.point = .logAdmit) (hn : e.logN = d.n) (ho : e.outstanding = d.outstanding + 1)
      (hcap : e.logN + e.outstanding * maxOpBlocks ≤ logBlocks) (hcarry : e.committing = 0) :
      d.Accepts e { d with outstanding := d.outstanding + 1 }
  | finish (hp : e.point = .logEnd) (haux : e.aux = 0) (hcarry : e.committing = 0) :
      d.Accepts e { d with outstanding := d.outstanding - 1, committing := 0 }
  | commit (hp : e.point = .logEnd) (haux : e.aux = 1) (ho : d.outstanding - 1 = 0)
      (hcarry : e.committing = 1) : d.Accepts e { d with outstanding := 0, committing := 1 }
  | append (hp : e.point = .logAppend) (hb : e.block ∉ d.entries) (hc : d.committing = 0)
      (hcarry : e.committing = d.committing) :
      d.Accepts e { d with entries := e.block :: d.entries, n := d.n + 1 }
  | clear (hp : e.point = .logClear) (hc : d.committing = 1)
      (hcarry : e.committing = d.committing) :
      d.Accepts e { d with n := 0, entries := [] }
  | done (hp : e.point = .logCommitDone) (hc : d.committing = 1) (ho : d.outstanding = 0)
      (hcarry : e.committing = 0) : d.Accepts e { d with committing := 0 }
  | submit (hp : e.point = .ioSubmit) (hcarry : e.committing = d.committing) :
      d.Accepts e { d with inflight := e.ioIdentity :: d.inflight }
  | complete (hp : e.point = .ioComplete) (hmem : e.ioIdentity ∈ d.inflight)
      (hcarry : e.committing = d.committing) :
      d.Accepts e { d with inflight := d.inflight.erase e.ioIdentity }

variable {case : String} {s t : LogState} {e : Event}

theorem accepts_of_stepIo (hio : e.point.isIo) (h : s.stepIo case e = .ok t) :
    s.derived.Accepts e t.derived := by
  obtain ⟨⟨-, -, hcarry⟩, h⟩ := require_bind_eq_ok.1 h
  by_cases hp : e.point = .ioSubmit
  · rw [if_pos hp] at h
    obtain ⟨k, -, hk⟩ := except_bind_eq_ok.1 h
    obtain rfl := Except.ok.inj hk
    exact .submit hp hcarry
  · rw [if_neg hp, require_bind_eq_ok] at h
    obtain ⟨hmem, h⟩ := h
    obtain ⟨k, -, hk⟩ := except_bind_eq_ok.1 h
    obtain rfl := Except.ok.inj hk
    refine .complete ?_ hmem hcarry
    cases he : e.point <;> simp_all [Point.isIo]

theorem accepts_of_stepLog (h : LogState.stepLog case s e = .ok t) :
    s.derived.Accepts e t.derived := by
  rw [LogState.stepLog] at h
  -- the points that nothing but their own fields is derived from
  have hquiet {p : Point} (hp : e.point = p) (hq : p.isQuiet) (hc : p.isCompletion = false)
      (hcarry : p.isWait ∨ e.committing = s.committing) : s.derived.Accepts e s.derived := by
    subst hp
    exact .quiet hq (fun h ↦ absurd (hc.symm.trans h) Bool.false_ne_true) hcarry
  have hwrite {p : Point} (hp : e.point = p) (hq : p.isQuiet) (hc : s.Carries e)
      (hone : e.committing = 1) : s.derived.Accepts e s.derived := by
    subst hp
    exact .quiet hq (fun _ ↦ hc.2.2.symm.trans hone) (.inr hc.2.2)
  split at h
  case h_1 hp | h_2 hp =>
    obtain ⟨-, h⟩ := require_bind_eq_ok.1 h
    obtain rfl := Except.ok.inj h
    exact hquiet hp rfl rfl (.inl rfl)
  case h_3 hp =>
    obtain ⟨⟨hn, hcarry, ho, hcap⟩, h⟩ := require_bind_eq_ok.1 h
    obtain rfl := Except.ok.inj h
    have hmove := Derived.Accepts.admitted (d := s.derived) hp hn ho hcap hcarry
    rwa [show s.derived.outstanding + 1 = e.outstanding from ho.symm] at hmove
  case h_4 hp =>
    obtain ⟨⟨-, ho, haux⟩, h⟩ := require_bind_eq_ok.1 h
    rcases haux with haux | haux
    · rw [if_neg (not_not.2 haux)] at h
      obtain ⟨hc, h⟩ := require_bind_eq_ok.1 h
      obtain rfl := Except.ok.inj h
      have hmove := Derived.Accepts.finish (d := s.derived) hp haux hc
      rwa [show s.derived.outstanding - 1 = e.outstanding from ho.symm, ← hc] at hmove
    · rw [if_pos (by omega)] at h
      obtain ⟨⟨hz, hc⟩, h⟩ := require_bind_eq_ok.1 h
      obtain rfl := Except.ok.inj h
      have hmove := Derived.Accepts.commit (d := s.derived) hp haux (ho.symm.trans hz) hc
      rwa [← hz, ← hc] at hmove
  case h_5 hp =>
    obtain ⟨⟨hb, hn, -, hcarry, hc⟩, h⟩ := require_bind_eq_ok.1 h
    obtain rfl := Except.ok.inj h
    have hmove := Derived.Accepts.append (d := s.derived) hp hb hc hcarry
    rwa [show s.derived.n + 1 = e.logN from hn.symm] at hmove
  case h_6 hp =>
    obtain ⟨⟨-, hc⟩, h⟩ := require_bind_eq_ok.1 h
    obtain rfl := Except.ok.inj h
    exact hquiet hp rfl rfl (.inr hc.2.2)
  case h_7 hp | h_9 hp =>
    obtain ⟨⟨hc, hone, -⟩, h⟩ := require_bind_eq_ok.1 h
    obtain rfl := Except.ok.inj h
    exact hwrite hp rfl hc hone
  case h_8 hp =>
    obtain ⟨⟨hc, hone, -⟩, h⟩ := require_bind_eq_ok.1 h
    obtain ⟨-, h⟩ := require_bind_eq_ok.1 h
    obtain rfl := Except.ok.inj h
    exact hwrite hp rfl hc hone
  case h_10 hp =>
    obtain ⟨⟨-, -, -, hcarry, hc, -⟩, h⟩ := require_bind_eq_ok.1 h
    obtain rfl := Except.ok.inj h
    exact .clear hp hc hcarry
  case h_11 hp =>
    obtain ⟨⟨⟨-, ho, hc⟩, -, -, hcarry⟩, h⟩ := require_bind_eq_ok.1 h
    obtain rfl := Except.ok.inj h
    exact .done hp hc ho hcarry
  all_goals cases h

/-- **What an accepted event does to the derived state.** -/
theorem accepts_of_step (h : s.step case e = .ok t) : s.derived.Accepts e t.derived := by
  rw [LogState.step] at h
  by_cases hcache : e.point.isCache
  · rw [if_pos hcache] at h
    obtain ⟨hc, h⟩ := require_bind_eq_ok.1 h
    obtain rfl := Except.ok.inj h
    refine .quiet ?_ ?_ (.inr hc.2.2) <;> cases he : e.point <;>
      simp_all [Point.isCache, Point.isQuiet, Point.isCompletion]
  · rw [if_neg hcache] at h
    by_cases hio : e.point.isIo
    · rw [if_pos hio] at h
      exact accepts_of_stepIo hio h
    · rw [if_neg hio] at h
      have hacc := accepts_of_stepLog h
      exact hacc

/-! ### The derived state and the events so far -/

/-- The blocks appended since the last `LOG_CLEAR`. -/
def appendedSinceClear (events : List Event) : List ℤ :=
  events.foldl (fun blocks e ↦ match e.point with
    | .logAppend => e.block :: blocks
    | .logClear => []
    | _ => blocks) []

/-- How many events are at a point. -/
def countAt (p : Point) (events : List Event) : ℕ := events.countP fun e ↦ e.point = p

/-- How many events are at a point and about the request `i`. -/
def countIo (p : Point) (i : IoIdentity) (events : List Event) : ℕ :=
  events.countP fun e ↦ e.point = p ∧ e.ioIdentity = i

/-- A `LOG_END` with `aux` 1 came, and no `LOG_COMMIT_DONE` after it. -/
def InCommit (events : List Event) : Prop :=
  ∃ pre start mid, events = pre ++ start :: mid ∧ start.point = .logEnd ∧ start.aux = 1 ∧
    ∀ e ∈ mid, e.point ≠ .logCommitDone

theorem appendedSinceClear_concat (events : List Event) (e : Event) :
    appendedSinceClear (events ++ [e]) = match e.point with
      | .logAppend => e.block :: appendedSinceClear events
      | .logClear => []
      | _ => appendedSinceClear events := by
  rw [appendedSinceClear, foldl_append]
  rfl

@[simp] theorem countAt_concat (p : Point) (events : List Event) (e : Event) :
    countAt p (events ++ [e]) = countAt p events + if e.point = p then 1 else 0 := by
  simp [countAt, countP_append, countP_singleton]

@[simp] theorem countIo_concat (p : Point) (i : IoIdentity) (events : List Event) (e : Event) :
    countIo p i (events ++ [e]) =
      countIo p i events + if e.point = p ∧ e.ioIdentity = i then 1 else 0 := by
  simp [countIo, countP_append, countP_singleton]

theorem inCommit_concat {events : List Event} {e : Event} :
    InCommit (events ++ [e]) ↔
      (e.point = .logEnd ∧ e.aux = 1) ∨ (InCommit events ∧ e.point ≠ .logCommitDone) := by
  constructor
  · rintro ⟨pre, start, mid, heq, hp, haux, hmid⟩
    rcases eq_nil_or_concat mid with rfl | ⟨mid, last, rfl⟩
    · obtain ⟨-, hlast⟩ := append_inj' heq rfl
      obtain rfl := singleton_inj.1 hlast
      exact .inl ⟨hp, haux⟩
    · rw [concat_eq_append, ← cons_append, ← append_assoc] at heq
      obtain ⟨rfl, hlast⟩ := append_inj' heq rfl
      obtain rfl := singleton_inj.1 hlast
      refine .inr ⟨⟨pre, start, mid, rfl, hp, haux, fun e he ↦ hmid e ?_⟩, hmid e ?_⟩
      · simp [he]
      · simp
  · rintro (⟨hp, haux⟩ | ⟨⟨pre, start, mid, rfl, hp, haux, hmid⟩, hne⟩)
    · exact ⟨events, e, [], rfl, hp, haux, forall_mem_nil _⟩
    · refine ⟨pre, start, mid ++ [e], by simp, hp, haux, fun f hf ↦ ?_⟩
      rcases mem_append.1 hf with hf | hf
      · exact hmid f hf
      · exact mem_singleton.1 hf ▸ hne

/-- What the derived state says of the events so far. -/
structure Ledger (events : List Event) (d : Derived) : Prop where
  entries_eq : d.entries = appendedSinceClear events
  nodup : d.entries.Nodup
  n_eq : d.n = d.entries.length
  outstanding_eq : d.outstanding = countAt .logAdmit events - countAt .logEnd events
  inflight_eq (i : IoIdentity) :
    countIo .ioComplete i events + d.inflight.count i = countIo .ioSubmit i events

variable {events : List Event} {d d' : Derived}

theorem Derived.Accepts.entries_eq (h : d.Accepts e d')
    (hentries : d.entries = appendedSinceClear events) :
    d'.entries = appendedSinceClear (events ++ [e]) := by
  rw [appendedSinceClear_concat]
  cases h with
  | append hp | clear hp => simp [hp, hentries]
  | quiet hp =>
    split
    · simp_all [Point.isQuiet]
    · simp_all [Point.isQuiet]
    · exact hentries
  | admitted hp | finish hp | commit hp | done hp | submit hp | complete hp =>
    simpa [hp] using hentries

theorem Derived.Accepts.outstanding_eq (h : d.Accepts e d')
    (hout : d.outstanding = countAt .logAdmit events - countAt .logEnd events) :
    d'.outstanding =
      countAt .logAdmit (events ++ [e]) - countAt .logEnd (events ++ [e]) := by
  rw [countAt_concat, countAt_concat]
  cases h with
  | quiet hp =>
    rw [if_neg, if_neg]
    · simpa using hout
    · rintro hend
      simp [hend, Point.isQuiet] at hp
    · rintro hadmitted
      simp [hadmitted, Point.isQuiet] at hp
  | admitted hp | finish hp | commit hp =>
    simp only [hp]
    simp
    omega
  | append hp | clear hp | done hp | submit hp | complete hp => simpa [hp] using hout

theorem Derived.Accepts.inflight_eq (h : d.Accepts e d') {i : IoIdentity}
    (hio : countIo .ioComplete i events + d.inflight.count i = countIo .ioSubmit i events) :
    countIo .ioComplete i (events ++ [e]) + d'.inflight.count i =
      countIo .ioSubmit i (events ++ [e]) := by
  rw [countIo_concat, countIo_concat]
  cases h with
  | quiet hp =>
    rw [if_neg, if_neg]
    · simpa using hio
    · rintro ⟨hsubmit, -⟩
      simp [hsubmit, Point.isQuiet] at hp
    · rintro ⟨hcomplete, -⟩
      simp [hcomplete, Point.isQuiet] at hp
  | submit hp =>
    simp only [hp, count_cons]
    by_cases hi : e.ioIdentity = i
    · simp [hi]
      omega
    · simpa [hi] using hio
  | complete hp hmem =>
    simp only [hp]
    by_cases hi : e.ioIdentity = i
    · subst hi
      have hpos := count_pos_iff.2 hmem
      simp
      omega
    · simpa [hi, count_erase_of_ne (Ne.symm hi)] using hio
  | admitted hp | finish hp | commit hp | append hp | clear hp | done hp => simpa [hp] using hio

theorem Ledger.step (h : Ledger events d) (hacc : d.Accepts e d') :
    Ledger (events ++ [e]) d' := by
  have hentries := hacc.entries_eq h.entries_eq
  have hout := hacc.outstanding_eq h.outstanding_eq
  have hio i := hacc.inflight_eq (h.inflight_eq i)
  cases hacc with
  | append hp hb hc =>
    refine ⟨hentries, nodup_cons.2 ⟨hb, h.nodup⟩, ?_, hout, hio⟩
    simp [h.n_eq]
  | clear hp hc => exact ⟨hentries, nodup_nil, rfl, hout, hio⟩
  | quiet | admitted | finish | commit | done | submit | complete =>
    exact ⟨hentries, h.nodup, h.n_eq, hout, hio⟩

/-! ### Commits -/

/-- The `committing` that the last event carries, those of waiting processes aside. -/
def carried (events : List Event) : ℤ :=
  events.foldl (fun c e ↦ if e.point.isWait then c else e.committing) 0

/-- **Operations begin and end outside of commits**, by what the events carry: a `LOG_ADMIT` or
`LOG_END` is the first event, or comes right after one that carries `committing` 0, those of waiting
processes aside. -/
def Steady (events : List Event) : Prop :=
  ∀ pre e post, events = pre ++ e :: post → e.point = .logAdmit ∨ e.point = .logEnd →
    carried pre = 0

theorem steady_iff : Steady events ↔ ∀ i : Fin events.length,
    (events.get i).point = .logAdmit ∨ (events.get i).point = .logEnd →
      carried (events.take i) = 0 := by
  constructor
  · intro h i hp
    refine h (events.take i) (events.get i) (events.drop (i + 1)) ?_ hp
    rw [get_eq_getElem, getElem_cons_drop, take_append_drop]
  · rintro h pre e post rfl hp
    have hi := h ⟨pre.length, by simp⟩
    simp only [get_eq_getElem, getElem_append_right (le_refl _), Nat.sub_self,
      getElem_cons_zero, take_left] at hi
    exact hi hp

instance (events : List Event) : Decidable (Steady events) := decidable_of_iff _ steady_iff.symm

theorem carried_concat (events : List Event) (e : Event) :
    carried (events ++ [e]) = if e.point.isWait then carried events else e.committing := by
  rw [carried, foldl_append]
  rfl

theorem Steady.concat (h : Steady events)
    (he : e.point = .logAdmit ∨ e.point = .logEnd → carried events = 0) :
    Steady (events ++ [e]) := by
  intro pre f post heq hp
  rcases eq_nil_or_concat post with rfl | ⟨post, last, rfl⟩
  · obtain ⟨rfl, hlast⟩ := append_inj' heq rfl
    obtain rfl := singleton_inj.1 hlast
    exact he hp
  · rw [concat_eq_append, ← cons_append, ← append_assoc] at heq
    exact h pre f post (append_inj' heq rfl).1 hp

/-- What the derived `committing` says of the events so far, if it is 0 whenever an operation
begins or ends. -/
structure Attended (events : List Event) (d : Derived) : Prop where
  flag : d.committing = 0 ∨ d.committing = 1
  inCommit_iff : d.committing = 1 ↔ InCommit events
  idle : d.committing = 1 → d.outstanding = 0
  carried_eq : carried events = d.committing

/-- Only the end of an operation and the end of a commit tell whether a commit is running. -/
theorem inCommit_concat_of_ne (hend : e.point ≠ .logEnd) (hdone : e.point ≠ .logCommitDone) :
    InCommit (events ++ [e]) ↔ InCommit events := by
  rw [inCommit_concat]
  simp [hend, hdone]

/-- An event that is accepted carries the new `committing`, if an operation begins only where it
is 0. -/
theorem Derived.Accepts.carried_eq (hacc : d.Accepts e d') (h : carried events = d.committing)
    (hguard : e.point = .logAdmit → d.committing = 0) :
    carried (events ++ [e]) = d'.committing := by
  rw [carried_concat]
  cases hacc with
  | quiet hp _ hcarry =>
    split_ifs with hw
    · exact h
    · exact hcarry.resolve_left hw
  | admitted hp _ _ _ hcarry =>
    rw [hp, if_neg (by decide), hcarry]
    exact (hguard hp).symm
  | finish hp _ hcarry | commit hp _ _ hcarry | append hp _ _ hcarry | clear hp _ hcarry
  | done hp _ _ hcarry | submit hp hcarry | complete hp _ hcarry =>
    rw [hp, if_neg (by decide)]
    exact hcarry

theorem Attended.step (h : Attended events d) (hacc : d.Accepts e d')
    (hguard : e.point = .logAdmit ∨ e.point = .logEnd → d.committing = 0) :
    Attended (events ++ [e]) d' := by
  have hcarried := hacc.carried_eq h.carried_eq fun hp ↦ hguard (.inl hp)
  obtain ⟨hflag, hiff, hidle, -⟩ := h
  cases hacc with
  | quiet hp =>
    refine ⟨hflag, ?_, hidle, hcarried⟩
    rwa [inCommit_concat_of_ne] <;> intro he <;> simp [he, Point.isQuiet] at hp
  | admitted hp =>
    refine ⟨hflag, ?_, fun hone ↦ ?_, hcarried⟩
    · rwa [inCommit_concat_of_ne] <;> simp [hp]
    · exact absurd (hone.symm.trans (hguard (.inl hp))) (by decide)
  | finish hp haux =>
    have hnot : ¬InCommit events := by
      rw [← hiff, hguard (.inr hp)]
      decide
    refine ⟨.inl rfl, ?_, nofun, hcarried⟩
    simp [inCommit_concat, haux, hnot]
  | commit hp haux ho =>
    refine ⟨.inr rfl, ?_, fun _ ↦ rfl, hcarried⟩
    simp [inCommit_concat, hp, haux]
  | done hp hc =>
    refine ⟨.inl rfl, ?_, nofun, hcarried⟩
    simp [inCommit_concat, hp]
  | append hp | clear hp | submit hp | complete hp =>
    refine ⟨hflag, ?_, hidle, hcarried⟩
    rwa [inCommit_concat_of_ne] <;> simp [hp]

/-- An operation has ended in a commit that goes on. -/
structure Overdrawn (events : List Event) (d : Derived) : Prop where
  inCommit : InCommit events
  outstanding_neg : d.outstanding < 0

/-- Nothing but the beginning of an operation ends this. -/
theorem Overdrawn.step (h : Overdrawn events d) (hacc : d.Accepts e d')
    (hadm : e.point ≠ .logAdmit) : Overdrawn (events ++ [e]) d' := by
  obtain ⟨hin, hneg⟩ := h
  have hkeep (hp : e.point ≠ .logCommitDone) : InCommit (events ++ [e]) :=
    inCommit_concat.2 (.inr ⟨hin, hp⟩)
  cases hacc with
  | quiet hp => exact ⟨hkeep fun he ↦ by simp [he, Point.isQuiet] at hp, hneg⟩
  | admitted hp => exact absurd hp hadm
  | finish hp => exact ⟨hkeep (by simp [hp]), Int.lt_trans (Int.sub_one_lt_of_le le_rfl) hneg⟩
  | commit _ _ ho => omega
  | done _ _ ho => exact absurd ho hneg.ne
  | append hp | clear hp | submit hp | complete hp => exact ⟨hkeep (by simp [hp]), hneg⟩

/-- An operation that ends in a commit overdraws; every other event is as `Steady` has it, if no
operation begins in a commit. -/
theorem Attended.step_or (h : Attended events d) (hst : Steady events) (hacc : d.Accepts e d')
    (hadm : InCommit events → e.point ≠ .logAdmit) :
    (Steady (events ++ [e]) ∧ Attended (events ++ [e]) d') ∨ Overdrawn (events ++ [e]) d' := by
  by_cases hguard : e.point = .logAdmit ∨ e.point = .logEnd → d.committing = 0
  · exact .inl ⟨hst.concat fun hp ↦ h.carried_eq.trans (hguard hp), h.step hacc hguard⟩
  obtain ⟨hp, hne⟩ := Classical.not_imp.1 hguard
  have hone := h.flag.resolve_left hne
  have hin := h.inCommit_iff.1 hone
  have hend := hp.resolve_left (hadm hin)
  have hidle := h.idle hone
  have hin' : InCommit (events ++ [e]) := inCommit_concat.2 (.inr ⟨hin, by simp [hend]⟩)
  cases hacc with
  | finish => exact .inr ⟨hin', by simp [hidle]⟩
  | commit _ _ ho => omega
  | quiet hq => simp [hend, Point.isQuiet] at hq
  | _ => simp_all

/-! ### Accepted lists -/

/-- The protocol of `log.c`, over a list of events. -/
structure LogProtocol (case : String) (events : List Event) : Prop where
  /-- While a commit runs, no operation begins and no block is appended. -/
  commit_alone {pre : List Event} {e : Event} {post : List Event} :
    events = pre ++ e :: post → InCommit pre →
    e.point ≠ .logAdmit ∧ e.point ≠ .logAppend
  /-- An operation that begins fits in the log. -/
  capacity {pre : List Event} {e : Event} {post : List Event} :
    events = pre ++ e :: post → e.point = .logAdmit →
    e.logN = (appendedSinceClear pre).toFinset.card ∧
      e.outstanding = countAt .logAdmit pre + 1 - countAt .logEnd pre ∧
      e.logN + e.outstanding * maxOpBlocks ≤ logBlocks
  /-- Commits write while every operation that began has ended. -/
  completion {pre : List Event} {e : Event} {post : List Event} :
    events = pre ++ e :: post → e.point.isCompletion →
    countAt .logAdmit pre = countAt .logEnd pre
  /-- `n` is the number of distinct blocks appended since the last clear. -/
  n_eq {pre post : List Event} : events = pre ++ post → ∃ s,
    pre.foldlM (LogState.step case) .init = .ok s ∧ s.n = (appendedSinceClear pre).toFinset.card
  /-- A request completes that was submitted and has not completed. -/
  io {pre : List Event} {e : Event} {post : List Event} :
    events = pre ++ e :: post → e.point = .ioComplete →
    countIo .ioComplete e.ioIdentity pre < countIo .ioSubmit e.ioIdentity pre

theorem ledger_of_foldlM {pre : List Event}
    (h : pre.foldlM (LogState.step case) .init = .ok s) : Ledger pre s.derived :=
  foldlM_traceInvariant (I := fun pre s ↦ Ledger pre s.derived)
    ⟨rfl, nodup_nil, rfl, rfl, fun _ ↦ rfl⟩
    (fun _ _ _ _ _ hr hrt ↦ hr.step (accepts_of_step hrt)) h

theorem Ledger.n_eq_card (h : Ledger events s.derived) :
    s.n = (appendedSinceClear events).toFinset.card := by
  rw [← h.entries_eq, toFinset_card_of_nodup h.nodup]
  exact h.n_eq

theorem attended_init : Attended [] LogState.init.derived := by
  refine ⟨.inl rfl, ⟨nofun, ?_⟩, nofun, rfl⟩
  rintro ⟨pre, start, mid, heq, -⟩
  simp at heq

/-- As far as operations begin and end outside of commits, the derived `committing` tells the
commits. -/
theorem attended_of_foldlM {pre post : List Event}
    (h : pre.foldlM (LogState.step case) .init = .ok s) (hst : Steady (pre ++ post)) :
    Attended pre s.derived := by
  refine foldlM_traceInvariant
    (I := fun pre s ↦ ∀ post, Steady (pre ++ post) → Attended pre s.derived)
    (fun _ _ ↦ attended_init) ?_ h post hst
  intro pre r e t hpre hr hrt post hst
  rw [append_assoc, singleton_append] at hst
  have hatt := hr (e :: post) hst
  exact hatt.step (accepts_of_step hrt) fun hp ↦ hatt.carried_eq.symm.trans (hst pre e post rfl hp)

/-- A list that leaves nothing outstanding, in which no operation begins in a commit. -/
theorem steady_of_foldlM (h : events.foldlM (LogState.step case) .init = .ok s)
    (hdrained : s.outstanding = 0)
    (hadm : ∀ pre e post, events = pre ++ e :: post → InCommit pre → e.point ≠ .logAdmit) :
    Steady events := by
  have hall := foldlM_traceInvariant
    (I := fun pre s ↦ ∀ post, events = pre ++ post →
      (Steady pre ∧ Attended pre s.derived) ∨ Overdrawn pre s.derived)
    (fun _ _ ↦ .inl ⟨fun pre e post heq ↦ by simp at heq, attended_init⟩) ?_ h [] (by simp)
  · rcases hall with ⟨hst, -⟩ | hover
    · exact hst
    · exact absurd hdrained hover.outstanding_neg.ne
  intro pre r e t _ hr hrt post heq
  rw [append_assoc, singleton_append] at heq
  have hacc := accepts_of_step hrt
  rcases hr (e :: post) heq with ⟨hst, hatt⟩ | hover
  · exact hatt.step_or hst hacc (hadm pre e post heq)
  · exact .inr (hover.step hacc (hadm pre e post heq hover.inCommit))

theorem Derived.Accepts.of_logAdmit (h : d.Accepts e d') (hp : e.point = .logAdmit) :
    e.logN = d.n ∧ e.outstanding = d.outstanding + 1 ∧
      e.logN + e.outstanding * maxOpBlocks ≤ logBlocks := by
  cases h with
  | admitted _ hn ho hcap => exact ⟨hn, ho, hcap⟩
  | quiet hq => simp [hp, Point.isQuiet] at hq
  | _ => simp_all

theorem Derived.Accepts.of_logAppend (h : d.Accepts e d') (hp : e.point = .logAppend) :
    d.committing = 0 := by
  cases h with
  | append _ _ hc => exact hc
  | quiet hq => simp [hp, Point.isQuiet] at hq
  | _ => simp_all

theorem Derived.Accepts.of_completion (h : d.Accepts e d') (hp : e.point.isCompletion) :
    d.committing = 1 := by
  cases h with
  | clear _ hc => exact hc
  | quiet _ hc => exact hc hp
  | _ => simp_all [Point.isCompletion]

theorem Derived.Accepts.of_ioComplete (h : d.Accepts e d') (hp : e.point = .ioComplete) :
    e.ioIdentity ∈ d.inflight := by
  cases h with
  | complete _ hmem => exact hmem
  | quiet hq => simp [hp, Point.isQuiet] at hq
  | _ => simp_all

/-- **An accepted list keeps to the protocol of `log.c` exactly if operations begin and end outside
of commits in it, by the fields of its events.** -/
theorem reduceLog_sound {summary : LogSummary} (h : reduceLog case events = .ok summary) :
    Steady events ↔ LogProtocol case events := by
  obtain ⟨t, ht, hend⟩ := except_bind_eq_ok.1 h
  obtain ⟨⟨-, hdrained, -⟩, -⟩ := require_bind_eq_ok.1 hend
  refine ⟨fun hst ↦ ?_, fun hp ↦
    steady_of_foldlM ht hdrained fun pre e post heq hin ↦ (hp.commit_alone heq hin).1⟩
  constructor
  case commit_alone =>
    rintro pre e post rfl hcommit
    obtain ⟨r, r', hr, hrr', -⟩ := foldlM_split_eq_ok ht
    have hatt := attended_of_foldlM hr hst
    have hone : r.committing = 1 := hatt.inCommit_iff.2 hcommit
    refine ⟨fun hp ↦ ?_, fun hp ↦ ?_⟩
    · have hzero := hatt.carried_eq.symm.trans (hst pre e post rfl (.inl hp))
      exact absurd (hone.symm.trans hzero) (by decide)
    · exact absurd (hone.symm.trans ((accepts_of_step hrr').of_logAppend hp)) (by decide)
  case capacity =>
    rintro pre e post rfl hp
    obtain ⟨r, r', hr, hrr', -⟩ := foldlM_split_eq_ok ht
    have hled := ledger_of_foldlM hr
    obtain ⟨hn, ho, hcap⟩ := (accepts_of_step hrr').of_logAdmit hp
    refine ⟨hn.trans hled.n_eq_card, ?_, hcap⟩
    rw [ho, hled.outstanding_eq]
    omega
  case completion =>
    rintro pre e post rfl hp
    obtain ⟨r, r', hr, hrr', -⟩ := foldlM_split_eq_ok ht
    have hidle := (attended_of_foldlM hr hst).idle ((accepts_of_step hrr').of_completion hp)
    have hout := (ledger_of_foldlM hr).outstanding_eq
    omega
  case n_eq =>
    rintro pre post rfl
    obtain ⟨r, hr, -⟩ := foldlM_append_eq_ok ht
    exact ⟨r, hr, (ledger_of_foldlM hr).n_eq_card⟩
  case io =>
    rintro pre e post rfl hp
    obtain ⟨r, r', hr, hrr', -⟩ := foldlM_split_eq_ok ht
    have hio := (ledger_of_foldlM hr).inflight_eq e.ioIdentity
    have hpos := List.count_pos_iff.2 ((accepts_of_step hrr').of_ioComplete hp)
    omega

/-! ### Two lists

An operation writes a block, and its commit writes it to the log and clears it. A second operation
begins after the commit in the first list, and in the middle of it in the second. -/

/-- An event of the log that carries `n`, `outstanding` and `committing`. -/
def logEvent (p : Point) (n outstanding committing aux block : ℤ) : Event :=
  ⟨0, p, 1, 0, 0, 0, 1, block, 0, n, outstanding, committing, aux⟩

def admitAfterCommit : List Event :=
  [logEvent .logAdmit 0 1 0 0 0, logEvent .logAppend 1 1 0 0 45, logEvent .logEnd 1 0 1 1 0,
    logEvent .ioSubmit 1 0 1 1 3, logEvent .ioComplete 1 0 1 1 3, logEvent .logPayload 1 0 1 0 45,
    logEvent .logClear 0 0 1 0 0, logEvent .logCommitDone 0 0 0 0 0, logEvent .logAdmit 0 1 0 0 0,
    logEvent .logEnd 0 0 1 1 0, logEvent .logCommitDone 0 0 0 0 0]

theorem reduceLog_sound_admitAfterCommit :
    (∃ summary, reduceLog "lab" admitAfterCommit = .ok summary) ∧
      LogProtocol "lab" admitAfterCommit := by
  obtain ⟨summary, h⟩ : ∃ summary, (reduceLog "lab" admitAfterCommit).toOption = some summary :=
    Option.isSome_iff_exists.1 (by decide +kernel)
  have hok := except_toOption_eq_some.1 h
  exact ⟨⟨summary, hok⟩, (reduceLog_sound hok).1 (by decide +kernel)⟩

def admitInCommit : List Event :=
  [logEvent .logAdmit 0 1 0 0 0, logEvent .logAppend 1 1 0 0 45, logEvent .logEnd 1 0 1 1 0,
    logEvent .logAdmit 1 1 0 0 0, logEvent .logPayload 1 1 1 0 45, logEvent .logEnd 1 0 1 1 0,
    logEvent .logClear 0 0 1 0 0, logEvent .logCommitDone 0 0 0 0 0]

/-- **An operation is admitted, and the log is written, while a commit runs and the operation has
not ended.** -/
theorem accepts_admit_in_commit :
    (reduceLog "lab" admitInCommit).toOption.isSome ∧
      (∃ pre e post, admitInCommit = pre ++ e :: post ∧ InCommit pre ∧ e.point = .logAdmit) ∧
      ∃ pre e post, admitInCommit = pre ++ e :: post ∧ e.point = .logPayload ∧
        countAt .logEnd pre < countAt .logAdmit pre := by
  refine ⟨by decide +kernel, ?_, ?_⟩
  · refine ⟨admitInCommit.take 3, logEvent .logAdmit 1 1 0 0 0, admitInCommit.drop 4, rfl, ?_, rfl⟩
    exact ⟨admitInCommit.take 2, logEvent .logEnd 1 0 1 1 0, [], rfl, rfl, rfl,
      List.forall_mem_nil _⟩
  · exact ⟨admitInCommit.take 4, logEvent .logPayload 1 1 1 0 45, admitInCommit.drop 5, rfl, rfl,
      by decide +kernel⟩

end Trace

end Xv6

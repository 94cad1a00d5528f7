import Xv6.Pipe.Model

/-!
# Pipes are lossless

The buffer of a pipe is a ring with free-running 32-bit counters. Every step of the system leaves
it alone, stores one byte that `pipewrite` accepts, or takes out one byte that `piperead` has
copied out (`PipeSys.Moves`); so the bytes delivered, followed by the bytes in the ring, are the
bytes accepted, however often the counters have wrapped around.
-/

namespace Xv6

open Option

/-- The buffer with its counters. -/
def Pipe.ring (pi : Pipe) : RingQueue (BitVec 8) 32 := ⟨pi.data, pi.nread, pi.nwrite⟩

/-- The bytes between `nread` and `nwrite`. -/
def Pipe.unread (pi : Pipe) : List (BitVec 8) := pi.ring.contents pipesize

namespace PipeSys

variable {N : ℕ} {s t : PipeSys N}

/-- The buffer and what is known about its past. -/
def traffic (s : PipeSys N) : RingQueue (BitVec 8) 32 × List (BitVec 8) × List (BitVec 8) :=
  (s.pipe.ring, s.accepted, s.delivered)

/-- What a step can do to the buffer. -/
inductive Moves (s : PipeSys N) : PipeEvent N → PipeSys N → Prop
  /-- Nothing. -/
  | quiet {e : PipeEvent N} {t : PipeSys N} (h : t.traffic = s.traffic) : Moves s e t
  /-- `pipewrite` stores a byte; the buffer is not full. -/
  | store {p : Fin N} {ch : BitVec 8} {t : PipeSys N}
      (hroom : s.pipe.nwrite ≠ s.pipe.nread + BitVec.ofNat 32 pipesize)
      (h : t.traffic = (s.pipe.ring.push pipesize ch, s.accepted ++ [ch], s.delivered)) :
      Moves s (.writeTurn p (some ch)) t
  /-- `piperead` takes out a byte that it has copied out; the buffer is not empty. -/
  | take {p : Fin N} {t : PipeSys N} (hsome : s.pipe.nread ≠ s.pipe.nwrite)
      (h : t.traffic = (s.pipe.ring.pop, s.accepted,
        s.delivered ++ [s.pipe.data (s.pipe.nread.toNat % pipesize)])) :
      Moves s (.copyTurn p true) t

theorem moves_writeTurn (p : Fin N) (i n : ℤ) (ch : Option (BitVec 8)) :
    Moves s (.writeTurn p ch) (s.writeTurn p i n ch) := by
  unfold writeTurn
  split_ifs with hin hstop hfull
  · exact .quiet rfl
  · exact .quiet rfl
  · cases ch with
    | none => exact .quiet rfl
    | some ch => exact .store hfull rfl
  · exact .quiet rfl

theorem quiet_readTurn (p : Fin N) (n : ℤ) : (s.readTurn p n).traffic = s.traffic := by
  rw [readTurn]
  split_ifs <;> rfl

theorem moves_copyTurn (p : Fin N) (i n : ℤ) (ok : Bool) :
    Moves s (.copyTurn p ok) (s.copyTurn p i n ok) := by
  rw [copyTurn]
  split_ifs with hin hempty hok
  · exact .quiet rfl
  · subst hok
    exact .take hempty rfl
  · exact .quiet rfl
  · exact .quiet rfl
  · exact .quiet rfl

theorem quiet_close (writable : Bool) : (s.close writable).traffic = s.traffic := by
  cases writable <;> rfl

theorem moves_of_step {e : PipeEvent N} (h : step s e = some t) : Moves s e t := by
  cases e with
  | callWrite p n | callRead p n =>
    rw [step, ite_none_right_eq_some] at h
    obtain ⟨-, h⟩ := h
    exact .quiet (some_inj.1 h ▸ rfl)
  | close p writable =>
    rw [step, ite_none_right_eq_some] at h
    exact .quiet (some_inj.1 h.2 ▸ quiet_close writable)
  | kill p => exact .quiet (some_inj.1 h ▸ rfl)
  | acquire p =>
    rw [step, ite_none_right_eq_some] at h
    obtain ⟨-, h⟩ := h
    split at h
    · exact .quiet (some_inj.1 h ▸ rfl)
    · exact .quiet (some_inj.1 h ▸ rfl)
    · cases h
  | writeTurn p ch =>
    rw [step] at h
    split at h
    · exact some_inj.1 h ▸ moves_writeTurn p _ _ ch
    · cases h
  | readTurn p =>
    rw [step] at h
    split at h
    · exact .quiet (some_inj.1 h ▸ quiet_readTurn p _)
    · cases h
  | copyTurn p ok =>
    rw [step] at h
    split at h
    · exact some_inj.1 h ▸ moves_copyTurn p _ _ ok
    · cases h
  | sleep p | exit p =>
    rw [step] at h
    split at h
    · exact .quiet (some_inj.1 h ▸ rfl)
    · exact .quiet (some_inj.1 h ▸ rfl)
    · cases h

/-- Nothing is lost, made up or reordered. -/
structure Lossless (s : PipeSys N) : Prop where
  count_le : s.pipe.ring.count ≤ pipesize
  accepted_eq : s.accepted = s.delivered ++ s.pipe.unread

theorem lossless_init (junk : ℕ → BitVec 8) : Lossless (init N junk) := by
  have hcount : (init N junk).pipe.ring.count = 0 := (RingQueue.count_eq_zero_iff _).2 rfl
  refine ⟨hcount.trans_le (Nat.zero_le _), ?_⟩
  rw [Pipe.unread, RingQueue.contents, hcount]
  rfl

theorem Lossless.of_traffic (hs : Lossless s) (h : t.traffic = s.traffic) : Lossless t := by
  obtain ⟨hring, hacc, hdel⟩ : t.pipe.ring = s.pipe.ring ∧ t.accepted = s.accepted ∧
      t.delivered = s.delivered := by simpa only [traffic, Prod.mk.injEq] using h
  refine ⟨hring ▸ hs.count_le, ?_⟩
  rw [hacc, hdel, Pipe.unread, hring]
  exact hs.accepted_eq

theorem Lossless.step {e : PipeEvent N} (hs : Lossless s) (h : Moves s e t) : Lossless t := by
  have hdvd : pipesize ∣ 2 ^ 32 := by decide
  have hsize : pipesize + 1 < 2 ^ 32 := by decide
  have hle := hs.count_le
  cases h with
  | quiet h => exact hs.of_traffic h
  | @store _ ch _ hroom h =>
    obtain ⟨hring, hacc, hdel⟩ : t.pipe.ring = s.pipe.ring.push pipesize ch ∧
        t.accepted = s.accepted ++ [ch] ∧ t.delivered = s.delivered := by
      simpa only [traffic, Prod.mk.injEq] using h
    have hlt : s.pipe.ring.count < pipesize :=
      lt_of_le_of_ne hle fun heq ↦ hroom ((s.pipe.ring.count_eq_iff (by decide)).1 heq)
    refine ⟨?_, ?_⟩
    · rw [hring, RingQueue.count_push _ (by omega)]
      exact hlt
    · rw [hacc, hdel, Pipe.unread, hring, RingQueue.contents_push _ hdvd hlt (by omega),
        hs.accepted_eq, List.append_assoc]
      rfl
  | take hsome h =>
    obtain ⟨hring, hacc, hdel⟩ : t.pipe.ring = s.pipe.ring.pop ∧ t.accepted = s.accepted ∧
        t.delivered = s.delivered ++ [s.pipe.data (s.pipe.nread.toNat % pipesize)] := by
      simpa only [traffic, Prod.mk.injEq] using h
    have hne : s.pipe.ring.count ≠ 0 := fun heq ↦ hsome (s.pipe.ring.count_eq_zero_iff.1 heq)
    refine ⟨?_, ?_⟩
    · rw [hring, RingQueue.count_pop _ hne]
      omega
    · rw [hacc, hdel, Pipe.unread, hring, hs.accepted_eq, Pipe.unread,
        RingQueue.contents_eq_cons _ hdvd hne, List.append_assoc]
      rfl

theorem lossless_run {junk : ℕ → BitVec 8} {es : List (PipeEvent N)}
    (h : runSteps step (init N junk) es = some s) : Lossless s :=
  runSteps_invariant (lossless_init junk) (fun _ _ _ hr hstep ↦ hr.step (moves_of_step hstep)) h

/-- A turn of `piperead` whose `copyout` fails changes neither the pipe nor what is delivered. -/
theorem copyTurn_failed (p : Fin N) (i n : ℤ) :
    (s.copyTurn p i n false).pipe = s.pipe ∧ (s.copyTurn p i n false).delivered = s.delivered := by
  rw [copyTurn, if_neg Bool.false_ne_true]
  split_ifs <;> exact ⟨rfl, rfl⟩

/-- **Pipes are lossless FIFOs.** In every state of every run the counters are at most `PIPESIZE`
apart, what the calls of `piperead` have delivered is a prefix of what the calls of `pipewrite` have
accepted, the rest is in the ring between `nread` and `nwrite`, and a byte whose `copyout` fails
stays there. -/
theorem lossless_fifo {junk : ℕ → BitVec 8} {es : List (PipeEvent N)}
    (h : runSteps step (init N junk) es = some s) :
    (s.pipe.nwrite - s.pipe.nread).toNat ≤ pipesize ∧
      s.delivered <+: s.accepted ∧
      s.accepted.drop s.delivered.length =
        (List.range (s.pipe.nwrite - s.pipe.nread).toNat).map
          (fun j ↦ s.pipe.data ((s.pipe.nread.toNat + j) % pipesize)) ∧
      ∀ p t, step s (.copyTurn p false) = some t → t.pipe = s.pipe ∧ t.delivered = s.delivered := by
  have hs := lossless_run h
  refine ⟨hs.count_le, ⟨_, hs.accepted_eq.symm⟩, ?_, ?_⟩
  · rw [hs.accepted_eq, List.drop_left]
    rfl
  · intro p t ht
    rw [step] at ht
    split at ht
    · exact Option.some_inj.1 ht ▸ copyTurn_failed p _ _
    · cases ht

/-- `p` writes two bytes, `q` reads one of them and cannot copy out the other. -/
def failsHalfway (p q : Fin N) : List (PipeEvent N) :=
  [.callWrite p 2, .acquire p, .writeTurn p (some 104), .writeTurn p (some 105),
    .writeTurn p none, .exit p, .callRead q 2, .acquire q, .readTurn q, .copyTurn q true]

theorem lossless_fifo_failsHalfway :
    ∃ s, runSteps step (init 2 fun _ ↦ 0) (failsHalfway 0 1) = some s ∧ s.delivered = [104] ∧
      s.accepted.drop s.delivered.length = [105] ∧
      ∃ t, step s (.copyTurn 1 false) = some t ∧ t.delivered = [104] := by
  have hrun : ∃ s ∈ runSteps step (init 2 fun _ ↦ 0) (failsHalfway 0 1), s.delivered = [104] ∧
      s.pipe.unread = [105] ∧ (step s (.copyTurn 1 false)).isSome = true := by decide +kernel
  obtain ⟨s, hs, hdel, hunread, hstep⟩ := hrun
  obtain ⟨t, ht⟩ := Option.isSome_iff_exists.1 hstep
  obtain ⟨-, -, hrest, hfail⟩ := lossless_fifo hs
  exact ⟨s, hs, hdel, hrest.trans hunread, t, ht, (hfail 1 t ht).2.trans hdel⟩

end PipeSys

end Xv6

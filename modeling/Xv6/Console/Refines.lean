import Mathlib.Data.List.Basic
import Xv6.Console.LineDiscipline

/-!
# The console keeps to its line discipline

The ring from `r` to `e` has the committed bytes, up to `w`, and then the line being edited. The
invariant says that the three indices are in this order and at most 128 apart, whatever their values
are modulo `2 ^ 32`; that the line has no line feed, so that control-U stops at `w` and not before;
and that nobody sleeps while there are committed bytes.
-/

namespace Xv6

open Function List Option

namespace Cons

/-- What is in the buffer, as one ring. -/
def ring (c : Cons) : RingQueue (BitVec 8) 32 := ⟨c.buf, c.r, c.e⟩

/-- How many bytes are committed. -/
def committed (c : Cons) : ℕ := (c.w - c.r).toNat

def queue (c : Cons) : List (BitVec 8) := (c.ring.contents inputBufSize).take c.committed

def pending (c : Cons) : List (BitVec 8) := (c.ring.contents inputBufSize).drop c.committed

/-- The indices are in order, and the line being edited has no line feed. -/
structure Ok (c : Cons) : Prop where
  order : c.committed ≤ c.ring.count
  room : c.ring.count ≤ inputBufSize
  noLf : lf ∉ c.pending

variable {c : Cons} {ch : BitVec 8}

theorem ok_init : Ok ⟨fun _ ↦ 0, 0, 0, 0⟩ :=
  ⟨le_rfl, Nat.zero_le _, not_mem_nil⟩

theorem queue_append_pending (c : Cons) : c.queue ++ c.pending = c.ring.contents inputBufSize :=
  take_append_drop ..

/-- The empty line. -/
theorem eq_of_e_eq (h : c.e = c.w) : c = { c with e := c.w } := by
  cases c
  cases h
  rfl

theorem length_add (c : Cons) : c.queue.length + c.pending.length = (c.e - c.r).toNat := by
  rw [← length_append, queue_append_pending, RingQueue.length_contents]
  rfl

theorem dvd_size : inputBufSize ∣ 2 ^ 32 := by decide

namespace Ok

theorem length_queue (h : c.Ok) : c.queue.length = c.committed := by
  rw [queue, length_take, RingQueue.length_contents, min_eq_left h.order]

theorem queue_eq_nil_iff (h : c.Ok) : c.queue = [] ↔ c.r = c.w := by
  rw [← length_eq_zero_iff, h.length_queue, committed]
  bv_omega

theorem pending_eq_nil_iff (h : c.Ok) : c.pending = [] ↔ c.e = c.w := by
  have horder := h.order
  rw [pending, drop_eq_nil_iff, RingQueue.length_contents]
  simp only [committed, RingQueue.count, ring] at horder ⊢
  bv_omega

/-! ### Editing -/

/-- The end of the line is moved back, not beyond the committed bytes. -/
theorem of_retract (h : c.Ok) (e' : BitVec 32) (hle : c.committed ≤ (e' - c.r).toNat)
    (hge : (e' - c.r).toNat ≤ c.ring.count) :
    Ok { c with e := e' } ∧ { c with e := e' }.queue = c.queue ∧
      { c with e := e' }.pending = c.pending.take ((e' - c.r).toNat - c.committed) := by
  have hcontents : { c with e := e' }.ring.contents inputBufSize =
      (c.ring.contents inputBufSize).take (e' - c.r).toNat := c.ring.contents_take hge
  have hpending : { c with e := e' }.pending = c.pending.take ((e' - c.r).toNat - c.committed) := by
    rw [pending, hcontents, pending, drop_take]
    rfl
  refine ⟨⟨hle, hge.trans h.room, fun hmem ↦ h.noLf ?_⟩, ?_, hpending⟩
  · rw [hpending] at hmem
    exact mem_of_mem_take hmem
  · rw [queue, hcontents, take_take, queue]
    exact congrArg (fun k ↦ List.take k _) (min_eq_left hle)

/-- Control-H with something to delete. -/
theorem of_backspace (h : c.Ok) (hne : c.e ≠ c.w) :
    Ok { c with e := c.e - 1 } ∧ { c with e := c.e - 1 }.queue = c.queue ∧
      { c with e := c.e - 1 }.pending = c.pending.dropLast := by
  have horder := h.order
  have hcount : c.ring.count ≠ 0 ∧ c.committed < c.ring.count := by
    simp only [committed, RingQueue.count, ring] at horder ⊢
    bv_omega
  have hretract : (c.e - 1 - c.r).toNat = c.ring.count - 1 := c.ring.count_retract hcount.1
  obtain ⟨hok, hqueue, hpending⟩ := h.of_retract (c.e - 1) (by omega) (by omega)
  refine ⟨hok, hqueue, hpending.trans ?_⟩
  rw [dropLast_eq_take, pending, length_drop, RingQueue.length_contents, hretract]
  congr 1
  omega

/-- The byte before `e` is the last one of the line. -/
theorem last_mem (h : c.Ok) (hne : c.e ≠ c.w) :
    c.buf ((c.e - 1).toNat % inputBufSize) ∈ c.pending := by
  have horder := h.order
  have hcount : c.ring.count ≠ 0 ∧ c.committed < c.ring.count := by
    simp only [committed, RingQueue.count, ring] at horder ⊢
    bv_omega
  have hcontents := c.ring.contents_eq_append dvd_size hcount.1
  have hlength : { c.ring with wr := c.ring.wr - 1 }.count = c.ring.count - 1 :=
    c.ring.count_retract hcount.1
  rw [pending, hcontents, drop_append_of_le_length (by
    rw [RingQueue.length_contents, hlength]
    omega)]
  exact mem_append_right _ mem_cons_self

theorem killLineFrom_eq (h : c.Ok) {fuel : ℕ} (hfuel : (c.e - c.w).toNat ≤ fuel) :
    killLineFrom fuel c = { c with e := c.w } := by
  induction fuel generalizing c with
  | zero =>
    have he : c.e = c.w := by bv_omega
    exact eq_of_e_eq he
  | succ fuel ih =>
    rw [killLineFrom]
    split
    case isTrue hne => exact ih (h.of_backspace hne.1).1 (by dsimp only; bv_omega)
    case isFalse hstop =>
      -- the loop does not stop at a line feed
      refine eq_of_e_eq ?_
      by_contra hne
      have hlf : c.buf ((c.e - 1).toNat % inputBufSize) = lf := by
        by_contra hlf
        exact hstop ⟨hne, hlf⟩
      exact h.noLf (hlf ▸ h.last_mem hne)

/-- Control-U. -/
theorem of_killLine (h : c.Ok) :
    Ok c.killLine ∧ c.killLine.queue = c.queue ∧ c.killLine.pending = [] ∧
      c.killLine.r = c.r ∧ c.killLine.w = c.w := by
  rw [killLine, h.killLineFrom_eq le_rfl]
  obtain ⟨hok, hqueue, hpending⟩ := h.of_retract c.w le_rfl h.order
  refine ⟨hok, hqueue, hpending.trans ?_, rfl, rfl⟩
  rw [show (c.w - c.r).toNat = c.committed from rfl, Nat.sub_self, take_zero]

/-! ### Storing -/

/-- A byte is stored at the end of the line. -/
theorem push (h : c.Ok) (hroom : (c.e - c.r).toNat < inputBufSize) (ch : BitVec 8) :
    (c.push ch).queue = c.queue ∧ (c.push ch).pending = c.pending ++ [ch] ∧
      (c.push ch).ring.count = c.ring.count + 1 := by
  have hlt : c.ring.count < 128 := hroom
  have hsmall : c.ring.count + 1 < 2 ^ 32 := by omega
  have hlength : c.committed ≤ (c.ring.contents inputBufSize).length := by
    rw [RingQueue.length_contents]
    exact h.order
  have hcontents : (c.push ch).ring.contents inputBufSize =
      c.ring.contents inputBufSize ++ [ch] := c.ring.contents_push dvd_size hlt hsmall ch
  refine ⟨?_, ?_, c.ring.count_push hsmall ch⟩
  · rw [queue, hcontents]
    exact take_append_of_le_length hlength
  · rw [pending, hcontents]
    exact drop_append_of_le_length hlength

/-- The line is committed. -/
theorem commit (c : Cons) (hroom : c.ring.count ≤ inputBufSize) :
    Ok { c with w := c.e } ∧ { c with w := c.e }.queue = c.queue ++ c.pending ∧
      { c with w := c.e }.pending = [] := by
  have hpending : { c with w := c.e }.pending = [] :=
    drop_of_length_le (c.ring.length_contents).le
  refine ⟨⟨le_rfl, hroom, ?_⟩, ?_, hpending⟩
  · rw [hpending]
    exact not_mem_nil
  · rw [queue_append_pending]
    exact take_of_length_le (c.ring.length_contents).le

/-- The default case of `consoleintr`. -/
theorem of_store (h : c.Ok) (hroom : (c.e - c.r).toNat < inputBufSize) (ch x : BitVec 8)
    (hx : (if ch = cr then lf else ch) = x) :
    (c.store ch).1.Ok ∧ (c.store ch).1.r = c.r ∧
      -- readers are woken up if and only if the line is committed
      (if x = lf ∨ x = ctrlD ∨ c.queue.length + (c.pending ++ [x]).length = inputBufSize then
        (c.store ch).2 = true ∧ (c.store ch).1.queue = c.queue ++ (c.pending ++ [x]) ∧
          (c.store ch).1.pending = []
      else
        (c.store ch).2 = false ∧ (c.store ch).1.queue = c.queue ∧
          (c.store ch).1.pending = c.pending ++ [x] ∧ (c.store ch).1.w = c.w) := by
  obtain ⟨hqueue, hpending, hcount⟩ := h.push hroom x
  have hlt : c.ring.count < 128 := hroom
  have hroom' : (c.push x).ring.count ≤ inputBufSize := by
    rw [hcount]
    exact hlt
  have hfull : ((c.push x).e - (c.push x).r).toNat =
      c.queue.length + (c.pending ++ [x]).length := by
    rw [← length_add, hqueue, hpending]
  rw [store, hx, hfull]
  split
  case isTrue hcommit =>
    obtain ⟨hok, hqueue', hpending'⟩ := commit (c.push x) hroom'
    rw [hqueue, hpending] at hqueue'
    exact ⟨hok, rfl, rfl, hqueue', hpending'⟩
  case isFalse hopen =>
    refine ⟨⟨?_, hroom', ?_⟩, rfl, rfl, hqueue, hpending, rfl⟩
    · rw [hcount]
      exact h.order.trans (Nat.le_succ _)
    · rw [hpending, mem_append, mem_singleton]
      rintro (hmem | hlf)
      · exact h.noLf hmem
      · exact hopen (.inl hlf.symm)

/-- `c = cons.buf[cons.r++ % INPUT_BUF_SIZE]` takes the first committed byte. -/
theorem of_pop (h : c.Ok) (hne : c.r ≠ c.w) :
    Ok { c with r := c.r + 1 } ∧
      c.queue = c.buf (c.r.toNat % inputBufSize) :: { c with r := c.r + 1 }.queue ∧
      { c with r := c.r + 1 }.pending = c.pending := by
  have horder := h.order
  have hcount : c.ring.count ≠ 0 ∧ c.committed ≠ 0 := by
    simp only [committed, RingQueue.count, ring] at horder ⊢
    bv_omega
  have hcommitted : { c with r := c.r + 1 }.committed = c.committed - 1 := by
    have hpop := RingQueue.count_pop ⟨c.buf, c.r, c.w⟩ hcount.2
    exact hpop
  have hcontents : c.ring.contents inputBufSize = c.buf (c.r.toNat % inputBufSize) ::
      { c with r := c.r + 1 }.ring.contents inputBufSize :=
    c.ring.contents_eq_cons dvd_size hcount.1
  have hpopped : { c with r := c.r + 1 }.ring.count = c.ring.count - 1 :=
    c.ring.count_pop hcount.1
  obtain ⟨k, hk⟩ : ∃ k, c.committed = k + 1 := ⟨c.committed - 1, by omega⟩
  rw [hk, Nat.add_sub_cancel] at hcommitted
  have hpending : { c with r := c.r + 1 }.pending = c.pending := by
    rw [pending, pending, hcontents, hk, hcommitted, drop_succ_cons]
  refine ⟨⟨?_, ?_, ?_⟩, ?_, hpending⟩
  · omega
  · have := h.room
    omega
  · rw [hpending]
    exact h.noLf
  · rw [queue, queue, hcontents, hk, hcommitted, take_succ_cons]

/-- A byte arrives. If nobody is woken up, `w` is where it was. -/
theorem of_consoleintr (h : c.Ok) {N : ℕ} {d : LineDiscipline N} (hqueue : d.queue = c.queue)
    (hpending : d.pending = c.pending) (ch : BitVec 8) :
    (c.consoleintr ch).1.Ok ∧ (c.consoleintr ch).1.r = c.r ∧
      ((c.consoleintr ch).2 = false → (c.consoleintr ch).1.w = c.w) ∧
      d.input ch =
        ⟨(c.consoleintr ch).1.queue, (c.consoleintr ch).1.pending, d.proc⟩ := by
  have hsame : d = ⟨c.queue, c.pending, d.proc⟩ := by rw [← hqueue, ← hpending]
  rw [consoleintr, LineDiscipline.input]
  by_cases hP : ch = ctrlP
  · rw [if_pos hP, if_pos (.inl hP)]
    exact ⟨h, rfl, fun _ ↦ rfl, hsame⟩
  rw [if_neg hP]
  by_cases hU : ch = ctrlU
  · obtain ⟨hok, hq, hp, hr, hw⟩ := h.of_killLine
    have hzero : ¬(ch = ctrlP ∨ ch = 0) := by
      rw [hU]
      decide
    rw [if_pos hU, if_neg hzero, if_pos hU]
    refine ⟨hok, hr, fun _ ↦ hw, ?_⟩
    rw [hq, hp, hqueue]
  rw [if_neg hU]
  by_cases hH : ch = ctrlH ∨ ch = del
  · have hzero : ¬(ch = ctrlP ∨ ch = 0) := by
      rcases hH with hH | hH <;> rw [hH] <;> decide
    rw [if_pos hH, if_neg hzero, if_neg hU, if_pos hH]
    by_cases he : c.e = c.w
    · rw [if_neg (not_not.2 he)]
      refine ⟨h, rfl, fun _ ↦ rfl, ?_⟩
      have hnil := h.pending_eq_nil_iff.2 he
      rw [hpending, hnil, hqueue, dropLast_nil]
    · obtain ⟨hok, hq, hp⟩ := h.of_backspace he
      rw [if_pos he]
      refine ⟨hok, rfl, fun _ ↦ rfl, ?_⟩
      rw [hpending, hqueue, ← hq, ← hp]
  rw [if_neg hH]
  by_cases hzero : ch = 0
  · rw [if_neg fun hcond ↦ hcond.1 hzero, if_pos (.inr hzero)]
    exact ⟨h, rfl, fun _ ↦ rfl, hsame⟩
  rw [if_neg (not_or.2 ⟨hP, hzero⟩), if_neg hU, if_neg hH, hqueue, hpending, length_add]
  by_cases hroom : (c.e - c.r).toNat < inputBufSize
  · obtain ⟨x, hx⟩ : ∃ x, (if ch = cr then lf else ch) = x := ⟨_, rfl⟩
    obtain ⟨hok, hr, hstore⟩ := h.of_store hroom ch x hx
    rw [if_pos ⟨hzero, hroom⟩, if_pos hroom, LineDiscipline.append, hx, hqueue, hpending]
    split at hstore
    case isTrue hcommit =>
      obtain ⟨hwake, hq, hp⟩ := hstore
      rw [if_pos hcommit, hq, hp]
      exact ⟨hok, hr, fun hno ↦ absurd hwake (by rw [hno]; decide), rfl⟩
    case isFalse hopen =>
      obtain ⟨-, hq, hp, hw⟩ := hstore
      rw [if_neg hopen, hq, hp]
      exact ⟨hok, hr, fun _ ↦ hw, rfl⟩
  · rw [if_neg fun hcond ↦ hroom hcond.2, if_neg hroom]
    exact ⟨h, rfl, fun _ ↦ rfl, hsame⟩

end Ok

end Cons

/-! ### Abstraction -/

/-- The call that a process is in. -/
def ConsPc.reading : ConsPc → Option Reading
  | out => none
  | acquire target n => some ⟨n, target - n⟩
  | loop target n => some ⟨n, target - n⟩
  | sleep target n => some ⟨n, target - n⟩
  | asleep target n => some ⟨n, target - n⟩

theorem ConsPc.wakeup_reading (pc : ConsPc) : pc.wakeup.reading = pc.reading := by
  cases pc <;> rfl

theorem ConsPc.wakeup_eq_loop {pc : ConsPc} {target n : ℤ} :
    pc.wakeup = .loop target n ↔ pc = .loop target n := by
  cases pc <;> simp [wakeup]

theorem ConsPc.wakeup_eq_sleep {pc : ConsPc} {target n : ℤ} :
    pc.wakeup = .sleep target n ↔ pc = .sleep target n := by
  cases pc <;> simp [wakeup]

theorem ConsPc.wakeup_ne_asleep (pc : ConsPc) (target n : ℤ) : pc.wakeup ≠ .asleep target n := by
  cases pc <;> simp [wakeup]

def ConsProc.reader (x : ConsProc) : Reader :=
  ⟨x.killed, x.pc.reading, x.received, x.returned⟩

namespace Console

variable {N : ℕ} {s s' : Console N} {p : Fin N}

/-- What a reader of the console can know. -/
def abs (s : Console N) : LineDiscipline N where
  queue := s.cons.queue
  pending := s.cons.pending
  proc := ConsProc.reader ∘ s.proc

theorem setProc_self (s : Console N) (p : Fin N) (x : ConsProc) : (s.setProc p x).proc p = x :=
  update_self ..

theorem setProc_setProc (s : Console N) (p : Fin N) (x y : ConsProc) :
    (s.setProc p x).setProc p y = s.setProc p y := by
  rw [setProc, setProc, setProc]
  dsimp only
  rw [update_idem]

theorem abs_setProc (s : Console N) (p : Fin N) (x : ConsProc) :
    (s.setProc p x).abs = s.abs.setProc p x.reader := by
  rw [abs, setProc, Function.comp_update]
  rfl

theorem abs_ret (s : Console N) (p : Fin N) (k : ℤ) : (s.ret p k).abs = s.abs.ret p k :=
  s.abs_setProc p _

/-- A process moves on within its call. -/
theorem abs_setPc {pc : ConsPc} (h : pc.reading = (s.proc p).pc.reading) :
    (s.setProc p { s.proc p with pc := pc }).abs = s.abs := by
  have hreader : ConsProc.reader { s.proc p with pc := pc } = s.abs.proc p := by
    rw [ConsProc.reader, h]
    rfl
  rw [abs_setProc, LineDiscipline.setProc, hreader, update_eq_self]

/-- The invariant of the console. -/
structure Inv (s : Console N) : Prop where
  ok : s.cons.Ok
  target : ∀ p x, (s.proc p).pc.reading = some x → 0 ≤ x.got
  /-- A process at the top of the loop, or in `sleep`, has the lock. -/
  lock : ∀ p target n, (s.proc p).pc = .loop target n ∨ (s.proc p).pc = .sleep target n →
    s.lock = some p
  /-- A process sleeps, or is about to, only when there is nothing to read. -/
  empty : ∀ p target n, (s.proc p).pc = .sleep target n ∨ (s.proc p).pc = .asleep target n →
    s.cons.r = s.cons.w

theorem abs_init (N : ℕ) : (init N).abs = LineDiscipline.init N := by
  have hcontents : (init N).cons.ring.contents inputBufSize = [] := by
    rw [← length_eq_zero_iff, RingQueue.length_contents, RingQueue.count_eq_zero_iff]
    rfl
  rw [abs, Cons.queue, Cons.pending, hcontents, take_nil, drop_nil]
  rfl

theorem inv_init (N : ℕ) : (init N).Inv := by
  refine ⟨Cons.ok_init, fun p x hx ↦ ?_, fun p _ _ hpc ↦ ?_, fun _ _ _ _ ↦ rfl⟩
  · cases hx
  · rcases hpc with hpc | hpc <;> cases hpc

namespace Inv

/-- A step of process `p`, which has the lock if somebody has it and the lock changes. -/
theorem of_proc (h : s.Inv) {x : ConsProc} {c : Cons} {l : Option (Fin N)} (hok : c.Ok)
    (htarget : ∀ y, x.pc.reading = some y → 0 ≤ y.got)
    (hlock : ∀ target n, x.pc = .loop target n ∨ x.pc = .sleep target n → l = some p)
    (hempty : ∀ target n, x.pc = .sleep target n ∨ x.pc = .asleep target n → c.r = c.w)
    (hl : l = s.lock ∨ ∀ q, q ≠ p → s.lock ≠ some q)
    (hc : s.cons.r = s.cons.w → c.r = c.w) : Inv ⟨c, l, update s.proc p x⟩ := by
  have hcases : ∀ {P : ConsProc → Prop} {q : Fin N}, P (update s.proc p x q) →
      q = p ∧ P x ∨ q ≠ p ∧ P (s.proc q) := by
    intro P q hq
    rcases eq_or_ne q p with rfl | hqp
    · rw [update_self] at hq
      exact .inl ⟨rfl, hq⟩
    · rw [update_of_ne hqp] at hq
      exact .inr ⟨hqp, hq⟩
  refine ⟨hok, fun q y hq ↦ ?_, fun q target n hq ↦ ?_, fun q target n hq ↦ ?_⟩
  · rcases hcases (P := fun x ↦ x.pc.reading = some y) hq with ⟨-, hq⟩ | ⟨-, hq⟩
    · exact htarget y hq
    · exact h.target q y hq
  · rcases hcases (P := fun x ↦ x.pc = .loop target n ∨ x.pc = .sleep target n) hq with
      ⟨rfl, hx⟩ | ⟨hqp, hq⟩
    · exact hlock target n hx
    · have hheld := h.lock q target n hq
      rcases hl with rfl | hl
      · exact hheld
      · exact absurd hheld (hl q hqp)
  · rcases hcases (P := fun x ↦ x.pc = .sleep target n ∨ x.pc = .asleep target n) hq with
      ⟨-, hq⟩ | ⟨-, hq⟩
    · exact hempty target n hq
    · exact hc (h.empty q target n hq)

/-- A call returns. -/
theorem ret (h : s.Inv) (hp : s.lock = some p) {c : Cons} (hok : c.Ok)
    (hc : s.cons.r = s.cons.w → c.r = c.w) (r : List (BitVec 8)) (k : List ℤ) :
    Inv ⟨c, none, update s.proc p ⟨(s.proc p).killed, .out, r, k⟩⟩ := by
  refine h.of_proc hok (fun y hy ↦ ?_) (fun _ _ hpc ↦ ?_) (fun _ _ hpc ↦ ?_)
    (.inr fun q hq hlock ↦ ?_) hc
  · cases hy
  · rcases hpc with hpc | hpc <;> cases hpc
  · rcases hpc with hpc | hpc <;> cases hpc
  · rw [hp, some_inj] at hlock
    exact hq hlock.symm

/-- A turn of the loop takes one byte, or waits, or returns. -/
theorem turn (h : s.Inv) {target n : ℤ} (hpc : (s.proc p).pc = .loop target n) (ok : Bool) :
    (s.turn p target n ok).Inv ∧
      LineDiscipline.step s.abs (.turn p ok) = some (s.turn p target n ok).abs := by
  have hlock := h.lock p target n (.inl hpc)
  have hread : (s.abs.proc p).reading = some ⟨n, target - n⟩ := by
    show (s.proc p).pc.reading = _
    rw [hpc]
    rfl
  have hgot : 0 ≤ target - n := h.target p ⟨n, target - n⟩ hread
  rw [LineDiscipline.step, hread, map_some, some_inj, Console.turn]
  dsimp only
  by_cases hn : 0 < n
  case neg =>
    rw [if_neg hn, if_neg hn, abs_ret]
    exact ⟨h.ret hlock h.ok id _ _, rfl⟩
  rw [if_pos hn, if_pos hn, LineDiscipline.take]
  by_cases hempty : s.cons.r = s.cons.w
  case pos =>
    rw [if_pos hempty, show s.abs.queue = [] from h.ok.queue_eq_nil_iff.2 hempty]
    dsimp only
    rw [show (s.abs.proc p).killed = (s.proc p).killed from rfl]
    by_cases hkilled : (s.proc p).killed
    · rw [if_pos hkilled, if_pos hkilled, abs_ret]
      exact ⟨h.ret hlock h.ok id _ _, rfl⟩
    · rw [if_neg hkilled, if_neg hkilled, abs_setPc (by rw [hpc]; rfl)]
      refine ⟨h.of_proc h.ok (fun y hy ↦ ?_) (fun _ _ _ ↦ hlock) (fun _ _ _ ↦ hempty) (.inl rfl) id,
        rfl⟩
      cases hy
      exact hgot
  obtain ⟨hok, hqueue, hpending⟩ := h.ok.of_pop hempty
  have hpop : (⟨{ s.cons with r := s.cons.r + 1 }, s.lock, s.proc⟩ : Console N).abs =
      ⟨{ s.cons with r := s.cons.r + 1 }.queue, s.abs.pending, s.abs.proc⟩ := by
    rw [abs, hpending]
    rfl
  have hback : s.cons.r = s.cons.w →
      { s.cons with r := s.cons.r + 1 }.r = { s.cons with r := s.cons.r + 1 }.w :=
    fun heq ↦ absurd heq hempty
  rw [if_neg hempty, show s.abs.queue = _ from hqueue]
  dsimp only
  by_cases hD : s.cons.buf (s.cons.r.toNat % inputBufSize) = ctrlD
  · rw [if_pos hD, if_pos hD]
    by_cases hlt : n < target
    · -- the byte is put back
      rw [if_pos hlt, if_neg (by omega : ¬target - n = 0), BitVec.add_sub_cancel, abs_ret]
      exact ⟨h.ret hlock h.ok id _ _, rfl⟩
    · rw [if_neg hlt, if_pos (by omega : target - n = 0), abs_ret, hpop,
        show target - n = 0 by omega]
      exact ⟨h.ret hlock hok hback _ _, rfl⟩
  rw [if_neg hD, if_neg hD]
  cases ok
  case false =>
    rw [if_neg Bool.false_ne_true, if_neg Bool.false_ne_true, abs_ret, hpop]
    exact ⟨h.ret hlock hok hback _ _, rfl⟩
  rw [if_pos rfl, if_pos rfl, show target - n + 1 = target - (n - 1) by omega]
  by_cases hlf : s.cons.buf (s.cons.r.toNat % inputBufSize) = lf
  · rw [if_pos hlf, if_pos hlf, abs_ret, abs_setProc, hpop]
    refine ⟨?_, rfl⟩
    rw [Console.ret, setProc_setProc, setProc_self]
    exact h.ret hlock hok hback _ _
  · rw [if_neg hlf, if_neg hlf, abs_setProc, hpop]
    refine ⟨h.of_proc hok (fun y hy ↦ ?_) (fun _ _ _ ↦ hlock) (fun _ _ hs ↦ ?_) (.inl rfl) hback,
      rfl⟩
    · cases hy
      show 0 ≤ target - (n - 1)
      omega
    · rcases hs with hs | hs <;> cases hs

/-- **Every step keeps the invariant and is a step of the line discipline.** -/
theorem step (h : s.Inv) {e : ConsEvent N} (hs : s.step e = some s') :
    s'.Inv ∧ LineDiscipline.step s.abs e = some s'.abs := by
  cases e <;> rw [Console.step] at hs
  case intr ch =>
    rw [ite_none_right_eq_some] at hs
    obtain ⟨hfree, hs⟩ := hs
    obtain ⟨hok, hr, hw, hinput⟩ := h.ok.of_consoleintr (d := s.abs) rfl rfl ch
    rw [LineDiscipline.step, hinput]
    generalize s.cons.consoleintr ch = r at hs hok hr hw
    rw [some_inj] at hs
    subst hs
    have hpcs : ∀ q, ConsPc.reading (if r.2 then (s.proc q).pc.wakeup else (s.proc q).pc) =
        (s.proc q).pc.reading := by
      intro q
      split
      · exact ConsPc.wakeup_reading _
      · rfl
    refine ⟨⟨hok, fun q x hx ↦ h.target q x ((hpcs q).symm.trans hx), fun q target n hq ↦ ?_,
      fun q target n hq ↦ ?_⟩, ?_⟩
    · cases hwake : r.2 <;> simp only [hwake] at hq
      · exact h.lock q target n hq
      · exact h.lock q target n (hq.imp ConsPc.wakeup_eq_loop.1 ConsPc.wakeup_eq_sleep.1)
    · cases hwake : r.2 <;> simp only [hwake] at hq
      · rw [hr, hw hwake]
        exact h.empty q target n hq
      · -- the lock is free, so nobody is about to sleep, and all sleepers are woken up
        rcases hq with hq | hq
        · have hheld := h.lock q target n (.inr (ConsPc.wakeup_eq_sleep.1 hq))
          rw [hfree] at hheld
          cases hheld
        · exact absurd hq (ConsPc.wakeup_ne_asleep _ _ _)
    · refine congrArg some (congrArg (LineDiscipline.mk _ _) (funext fun q ↦ ?_))
      exact congrArg (fun x ↦ (⟨_, x, _, _⟩ : Reader)) (hpcs q).symm
  case read p n =>
    rw [ite_none_right_eq_some, some_inj] at hs
    obtain ⟨hpc, rfl⟩ := hs
    have hread : (s.abs.proc p).reading = none := by
      show (s.proc p).pc.reading = _
      rw [hpc]
      rfl
    rw [LineDiscipline.step, if_pos hread, abs_setProc]
    refine ⟨h.of_proc h.ok (fun y hy ↦ ?_) (fun _ _ hs ↦ ?_) (fun _ _ hs ↦ ?_) (.inl rfl) id, ?_⟩
    · cases hy
      exact (Int.sub_self n).ge
    · rcases hs with hs | hs <;> cases hs
    · rcases hs with hs | hs <;> cases hs
    · rw [ConsProc.reader, ConsPc.reading, Int.sub_self]
      rfl
  case acquire p =>
    split at hs
    case h_1 target n hpc =>
      rw [ite_none_right_eq_some, some_inj] at hs
      obtain ⟨hfree, rfl⟩ := hs
      refine ⟨h.of_proc h.ok (fun y hy ↦ ?_) (fun _ _ _ ↦ rfl) (fun _ _ hs ↦ ?_)
        (.inr fun q _ ↦ by rw [hfree]; exact (some_ne_none q).symm) id, ?_⟩
      · refine h.target p y ?_
        rw [hpc]
        exact hy
      · rcases hs with hs | hs <;> cases hs
      · exact congrArg some (abs_setPc (by rw [hpc]; rfl)).symm
    case h_2 => cases hs
  case turn p ok =>
    split at hs
    case h_1 target n hpc =>
      cases hs
      exact h.turn hpc ok
    case h_2 => cases hs
  case sleep p =>
    split at hs
    case h_1 target n hpc =>
      have hlock := h.lock p target n (.inr hpc)
      have hempty := h.empty p target n (.inl hpc)
      cases hs
      refine ⟨h.of_proc h.ok (fun y hy ↦ ?_) (fun _ _ hs ↦ ?_) (fun _ _ _ ↦ hempty)
        (.inr fun q hq hq' ↦ ?_) id, ?_⟩
      · refine h.target p y ?_
        rw [hpc]
        exact hy
      · rcases hs with hs | hs <;> cases hs
      · rw [hlock, some_inj] at hq'
        exact hq hq'.symm
      · exact congrArg some (abs_setPc (by rw [hpc]; rfl)).symm
    case h_2 => cases hs
  case kill p =>
    cases hs
    refine ⟨h.of_proc h.ok (fun y hy ↦ h.target p y ((ConsPc.wakeup_reading _).symm.trans hy))
      (fun target n hpc ↦ ?_) (fun target n hpc ↦ ?_) (.inl rfl) id, ?_⟩
    · exact h.lock p target n (hpc.imp ConsPc.wakeup_eq_loop.1 ConsPc.wakeup_eq_sleep.1)
    · rcases hpc with hpc | hpc
      · exact h.empty p target n (.inl (ConsPc.wakeup_eq_sleep.1 hpc))
      · exact absurd hpc (ConsPc.wakeup_ne_asleep _ _ _)
    · rw [LineDiscipline.step, abs_setProc, ConsProc.reader, ConsPc.wakeup_reading]
      rfl

end Inv

/-- **The console keeps to its line discipline.** Whatever the interleaving, and however often the
indices wrap around, what the console has delivered and returned is what the line discipline
delivers and returns; and when the lock is free, nobody sleeps while there are committed bytes. -/
theorem line_discipline (es : List (ConsEvent N)) (s : Console N)
    (hs : runSteps step (init N) es = some s) :
    runSteps LineDiscipline.step (LineDiscipline.init N) es = some s.abs ∧
      s.abs.queue.length + s.abs.pending.length ≤ inputBufSize ∧
      (s.lock = none → ∀ p target n, (s.proc p).pc = .asleep target n → s.abs.queue = []) := by
  have h : s.Inv := runSteps_invariant (inv_init N) (fun _ _ _ h hs ↦ (h.step hs).1) hs
  refine ⟨?_, ?_, fun _ p target n hpc ↦ ?_⟩
  · rw [← abs_init]
    exact runSteps_simulate (inv_init N) (fun _ _ _ h hs ↦ (h.step hs).1)
      (fun _ _ _ h hs ↦ (h.step hs).2) hs
  · exact (Cons.length_add s.cons).trans_le h.ok.room
  · exact h.ok.queue_eq_nil_iff.2 (h.empty p target n (.inr hpc))

/-- A reader waits for a line that is corrected while it is typed, and gets all of it but what is
behind control-D, which it leaves for its next call. -/
def typedLine : List (ConsEvent 1) :=
  [.read 0 10, .acquire 0, .turn 0 true, .sleep 0, .intr 0x61, .intr 0x62, .intr ctrlH, .intr 0x63,
    .intr ctrlD, .acquire 0, .turn 0 true, .turn 0 true, .turn 0 true, .read 0 10, .acquire 0,
    .turn 0 true]

theorem line_discipline_typedLine :
    ∃ s, runSteps step (init 1) typedLine = some s ∧ (s.proc 0).received = [0x61, 0x63] ∧
      (s.proc 0).returned = [2, 0] ∧
      runSteps LineDiscipline.step (LineDiscipline.init 1) typedLine = some s.abs := by
  have hrun : (runSteps step (init 1) typedLine).isSome ∧
      ∀ s ∈ runSteps step (init 1) typedLine, (s.proc 0).received = [0x61, 0x63] ∧
        (s.proc 0).returned = [2, 0] := by
    decide +kernel
  obtain ⟨s, hs⟩ := Option.isSome_iff_exists.1 hrun.1
  obtain ⟨hreceived, hreturned⟩ := hrun.2 s hs
  exact ⟨s, hs, hreceived, hreturned, (line_discipline typedLine s hs).1⟩

end Console

end Xv6

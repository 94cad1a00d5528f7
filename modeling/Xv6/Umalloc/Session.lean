import Xv6.Library.Run
import Xv6.Umalloc.Malloc

/-!
# Whole runs of the allocator

A program calls `malloc` and `free`, and writes to the blocks it has. `sbrk` is what the allocator
knows of it: it fails, or returns memory above all it has returned before and above the program's
own data. What it answers is part of the event, and what it was asked for and has returned is
recorded by `Arena.sbrk`.

`heap_correct` is the result: after every run the list is as it should be, the blocks are apart, no
unit is lost, and the next call ends and does what it should.
-/

namespace Xv6.Umalloc

open Block List Option

/-- `sbrk`, for one call of `malloc`: what it will answer, and the pieces of memory it has returned,
with their lengths in bytes. -/
structure Arena where
  reply : Option ℕ
  obtained : List (ℕ × ℕ)
  failures : ℕ

/-- `sbrk(n)`. -/
def Arena.sbrk (n : BitVec 32) (r : Arena) : Option ℕ × Arena :=
  match r.reply with
  | some a => (some a, { r with reply := none, obtained := (a, n.toInt.toNat) :: r.obtained })
  | none => (none, { r with failures := r.failures + 1 })

/-- The allocator, the blocks that the program has, and the memory that `sbrk` has returned. -/
structure Session where
  heap : Heap
  live : List Block
  obtained : List (ℕ × ℕ)

/-- A call of the program, or a write to memory; `reply` is what `sbrk` answers if it is asked. -/
inductive Event
  | malloc (nbytes : BitVec 32) (reply : Option ℕ)
  | free (ap : ℕ)
  | write (a : ℕ) (v : Header)

namespace Session

/-- The program has started: `freep` is null, and memory holds anything. -/
def init (base : ℕ) (mem : ℕ → Header) : Session := ⟨⟨base, 0, mem⟩, [], []⟩

/-- Above everything that `sbrk` has returned, and above `base`. -/
def top (s : Session) : ℕ := s.obtained.foldr (fun c t ↦ max (c.1 + c.2) t)
    (s.heap.base + headerSize)

/-- The number of bytes that `sbrk` has returned. -/
def bytes (s : Session) : ℕ := (s.obtained.map (·.2)).sum

/-- A request whose units, times 16, fit in a positive `int`, and an answer of `sbrk` that is a
failure, or fresh memory, which makes less than `2 ^ 32` units in all. -/
def Admits (s : Session) (nbytes : BitVec 32) (reply : Option ℕ) : Prop :=
  headerSize * (Heap.nunits nbytes).toNat < 2 ^ 31 ∧
    ∀ a ∈ reply, s.top ≤ a ∧
      s.bytes + headerSize * (Heap.morecoreUnits (Heap.nunits nbytes)).toNat < headerSize * 2 ^ 32

instance (s : Session) (nbytes : BitVec 32) (reply : Option ℕ) :
    Decidable (s.Admits nbytes reply) :=
  inferInstanceAs (Decidable (_ ∧ ∀ a ∈ reply, _))

/-- A call of `malloc`: what it returns, how often `sbrk` failed, and the state after it. -/
def malloc (s : Session) (nbytes : BitVec 32) (reply : Option ℕ) : Option (ℕ × ℕ × Session) :=
  (s.heap.malloc Arena.sbrk ⟨reply, s.obtained, 0⟩ nbytes).map fun (ap, h, r) ↦
    (ap, r.failures, { heap := h, obtained := r.obtained, live :=
      if ap = 0 then s.live else ⟨ap - headerSize, (Heap.nunits nbytes).toNat⟩ :: s.live })

/-- What an event does. Only blocks in use are freed, and the program writes only to them. -/
def step (s : Session) : Event → Option Session
  | .malloc nbytes reply =>
    if s.Admits nbytes reply then (s.malloc nbytes reply).map (·.2.2) else none
  | .free ap =>
    if ∃ b ∈ s.live, b.addr + headerSize = ap then
      (s.heap.free ap).map fun h ↦
        { s with heap := h, live := s.live.eraseP fun b ↦ b.addr + headerSize = ap }
    else none
  | .write a v =>
    -- a write to the bytes of a block may change the headers that one would read there
    if ∃ b ∈ s.live, b.addr < a ∧ a < b.stop then
      some { s with heap := { s.heap with mem := Function.update s.heap.mem a v } }
    else none

/-- The state of the allocator is correct, `F` being the free blocks. -/
structure Correct (s : Session) (F : List Block) : Prop where
  /-- Before the first `malloc` there is no list; then it goes from `base` through the free blocks,
  in the order of their addresses, and back. -/
  list : s.heap.freep = 0 ∧ F = [] ∧ s.live = [] ∨
    Circular s.heap.ptr (s.heap.base :: F.map addr) ∧ s.heap.freep ∈ s.heap.base :: F.map addr
  size : ∀ b ∈ F ++ s.live, (s.heap.size b.addr).toNat = b.size
  /-- No free block overlaps the next one, or touches it. -/
  sorted : F.Pairwise fun a b ↦ a.stop < b.addr
  apart : (F ++ s.live).Pairwise Apart
  inside : ∀ b ∈ F ++ s.live, s.heap.base + headerSize ≤ b.addr ∧ b.stop ≤ s.top
  total : headerSize * units (F ++ s.live) = s.bytes

/-! ### The invariant of a run -/

/-- The invariant of the allocator, for the memory that `sbrk` has returned. -/
structure Reached (s : Session) (G : List Block) (total : ℕ) : Prop where
  inv : s.heap.start.Inv G s.live s.top total
  bytes : headerSize * total = s.bytes
  fresh : s.heap.freep = 0 → s.live = [] ∧ G = [⟨s.heap.base, 0⟩]

theorem reached_init {base : ℕ} (hbase : 0 < base) (mem : ℕ → Header) :
    Reached (init base mem) [⟨base, 0⟩] 0 :=
  ⟨Heap.inv_start hbase mem, rfl, fun _ ↦ ⟨rfl, rfl⟩⟩

variable {s t : Session} {G : List Block} {total : ℕ}

theorem base_le_top (s : Session) : s.heap.base + headerSize ≤ s.top := by
  rw [top]
  induction s.obtained with
  | nil => exact le_rfl
  | cons c l ih => exact ih.trans (le_max_right _ _)

theorem top_congr (hbase : t.heap.base = s.heap.base) (hobtained : t.obtained = s.obtained) :
    t.top = s.top := by
  rw [top, top, hbase, hobtained]

/-- A list that is made does not have to be started. -/
theorem Reached.of_inv (hinv : s.heap.Inv G s.live s.top total)
    (hbytes : headerSize * total = s.bytes) : Reached s G total :=
  ⟨hinv.start_eq.symm ▸ hinv, hbytes, fun hzero ↦ absurd hzero hinv.freep_pos.ne'⟩

/-- `malloc`, from a state that is reached. -/
theorem Reached.malloc (h : Reached s G total) {nbytes : BitVec 32} {reply : Option ℕ}
    (ha : s.Admits nbytes reply) :
    ∃ ap failures t, s.malloc nbytes reply = some (ap, failures, t) ∧
      (∃ G' total', Reached t G' total') ∧
      (ap = 0 ∧ 0 < failures ∧ t.live = s.live ∨
        ∃ b : Block, t.live = b :: s.live ∧ b.addr + headerSize = ap ∧
          nbytes.toNat + headerSize ≤ headerSize * b.size) := by
  have hint : 16 * (Heap.nunits nbytes).toNat < 2 ^ 31 := ha.1
  have hreply : ∀ a ∈ reply, s.top ≤ a ∧
      s.bytes + 16 * (Heap.morecoreUnits (Heap.nunits nbytes)).toNat < 16 * 2 ^ 32 := ha.2
  have hbytes : 16 * total = s.bytes := h.bytes
  have hbase_le : s.heap.base + 16 ≤ s.top := s.base_le_top
  have hunits := Heap.Inv.nunits_toNat nbytes
  have hout : ∃ ap h' r, s.heap.malloc Arena.sbrk ⟨reply, s.obtained, 0⟩ nbytes = some (ap, h', r) ∧
      Heap.Malloced Arena.sbrk s.heap.start ⟨reply, s.obtained, 0⟩ (Heap.nunits nbytes) G s.live
        s.top total ap h' r := by
    refine h.inv.malloc nbytes fun a r hask ↦ ?_
    cases reply with
    | none => exact nomatch hask
    | some a' =>
      obtain rfl : a' = a := Option.some.inj (Prod.mk.inj hask).1
      obtain ⟨htop, hroom⟩ := hreply a' rfl
      rw [Heap.base_start]
      omega
  obtain ⟨ap, h', r, hrun, hout⟩ := hout
  have hbase : h'.base = s.heap.base := Heap.base_malloc hrun
  have htop : ∀ l, Session.top ⟨h', l, s.obtained⟩ = s.top := fun l ↦ top_congr hbase rfl
  have husable : nbytes.toNat + 16 ≤ 16 * (Heap.nunits nbytes).toNat := by omega
  have hne : ∀ a, a + headerSize ≠ 0 := fun a ↦ Nat.succ_ne_zero (a + 15)
  rw [Session.malloc, hrun]
  refine ⟨_, _, _, rfl, ?_⟩
  cases hout with
  | @fits a _ G' _ inv =>
    dsimp only
    rw [if_neg (hne a), Nat.add_sub_cancel]
    refine ⟨⟨G', total, .of_inv ?_ hbytes⟩, .inr ⟨_, rfl, rfl, husable⟩⟩
    rw [htop]
    exact inv
  | failed _ asked =>
    cases reply with
    | some a => exact nomatch (Prod.mk.inj asked).1
    | none =>
      obtain rfl := (Prod.mk.inj asked).2
      refine ⟨⟨G, total, .of_inv ?_ hbytes⟩, .inl ⟨rfl, Nat.one_pos, rfl⟩⟩
      dsimp only
      rw [htop]
      exact h.inv
  | @grown a b _ _ G' _ asked _ inv =>
    cases reply with
    | none => exact nomatch (Prod.mk.inj asked).1
    | some b' =>
      obtain ⟨hb, rfl⟩ := Prod.mk.inj asked
      obtain rfl : b' = b := Option.some.inj hb
      have hfresh := (hreply b' rfl).1
      have hasked : (Heap.morecoreBytes (Heap.nunits nbytes)).toInt.toNat =
          16 * (Heap.morecoreUnits (Heap.nunits nbytes)).toNat := by
        rw [Heap.Inv.morecoreBytes_toInt hint]
        rfl
      dsimp only
      rw [if_neg (hne a), Nat.add_sub_cancel]
      refine ⟨⟨G', total + (Heap.morecoreUnits (Heap.nunits nbytes)).toNat, .of_inv ?_ ?_⟩,
        .inr ⟨_, rfl, rfl, husable⟩⟩
      · have htop' : ∀ (l : List Block), Session.top ⟨h', l, (b', (Heap.morecoreBytes
            (Heap.nunits nbytes)).toInt.toNat) :: s.obtained⟩ =
            b' + 16 * (Heap.morecoreUnits (Heap.nunits nbytes)).toNat := by
          intro l
          rw [top, foldr_cons, hbase, hasked]
          exact max_eq_left (hfresh.trans (Nat.le_add_right _ _))
        rw [htop']
        exact inv
      · rw [Session.bytes, map_cons, sum_cons, hasked]
        rw [Session.bytes] at hbytes
        show 16 * _ = _
        omega

/-- The list has been made if there is a block in use. -/
theorem Reached.inv_of_mem (h : Reached s G total) {b : Block} (hb : b ∈ s.live) :
    s.heap.Inv G s.live s.top total := by
  have hne : s.heap.freep ≠ 0 := fun hzero ↦ by
    rw [(h.fresh hzero).1] at hb
    exact not_mem_nil hb
  have hstart : s.heap.start = s.heap := if_neg hne
  exact hstart ▸ h.inv

/-- `free`, for a block in use. -/
theorem Reached.free (h : Reached s G total) {l₁ l₂ : List Block} {b : Block}
    (hlive : s.live = l₁ ++ b :: l₂) :
    ∃ h', s.heap.free (b.addr + headerSize) = some h' ∧
      ∃ G', Reached { s with heap := h', live := l₁ ++ l₂ } G' total := by
  have hb : b ∈ s.live := hlive ▸ mem_append_right l₁ mem_cons_self
  have hperm : s.live.Perm (b :: (l₁ ++ l₂)) := hlive ▸ perm_middle
  obtain ⟨h', G', hfree, hinv', -⟩ := ((h.inv_of_mem hb).perm hperm).free
  have htop : Session.top { s with heap := h', live := l₁ ++ l₂ } = s.top :=
    top_congr (Heap.base_free hfree) rfl
  exact ⟨h', hfree, G', .of_inv (htop.symm ▸ hinv') h.bytes⟩

/-- A write to a block in use. -/
theorem Reached.write (h : Reached s G total) {a : ℕ} {b : Block} (hb : b ∈ s.live)
    (hlt : b.addr < a) (hstop : a < b.stop) (v : Header) :
    Reached { s with heap := { s.heap with mem := Function.update s.heap.mem a v } } G total :=
  .of_inv ((h.inv_of_mem hb).write hb hlt hstop v) h.bytes

/-- **Every event keeps the invariant.** -/
theorem Reached.step (h : Reached s G total) {e : Event} (he : s.step e = some t) :
    ∃ G' total', Reached t G' total' := by
  cases e with
  | malloc nbytes reply =>
    rw [Session.step, ite_none_right_eq_some] at he
    obtain ⟨ap, failures, t', hrun, hreached, -⟩ := h.malloc he.1
    rw [hrun] at he
    obtain rfl : t' = t := Option.some.inj he.2
    exact hreached
  | free ap =>
    rw [Session.step, ite_none_right_eq_some] at he
    obtain ⟨⟨b, hb, hap⟩, he⟩ := he
    obtain ⟨b', l₁, l₂, -, hb', hlive, herase⟩ :=
      exists_of_eraseP (p := fun b ↦ b.addr + headerSize = ap) hb (decide_eq_true hap)
    obtain ⟨h', hfree, G', hreached⟩ := h.free hlive
    rw [of_decide_eq_true hb'] at hfree
    rw [hfree, map_some, herase] at he
    obtain rfl := Option.some.inj he
    exact ⟨G', total, hreached⟩
  | write a v =>
    rw [Session.step, ite_none_right_eq_some] at he
    obtain ⟨⟨b, hb, hlt, hstop⟩, he⟩ := he
    obtain rfl := Option.some.inj he
    exact ⟨G, total, h.write hb hlt hstop v⟩

/-! ### The result -/

theorem Reached.correct (h : Reached s G total) : ∃ F, s.Correct F := by
  obtain ⟨F, rfl⟩ := h.inv.exists_cons
  have hbase : s.heap.start.base = s.heap.base := Heap.base_start
  have htotal := h.inv.total_eq
  have hsorted := (pairwise_cons.1 h.inv.sorted)
  have hfree : ∀ b ∈ F, s.heap.base + headerSize ≤ b.addr ∧ b.stop ≤ s.top := by
    intro b hb
    rcases h.inv.free_inside b (mem_cons_of_mem _ hb) with rfl | hb'
    · exact absurd (hsorted.1 _ hb) (lt_irrefl _)
    · exact ⟨hbase ▸ hb'.1, hb'.2.2⟩
  have hlive : ∀ b ∈ s.live, s.heap.base + headerSize ≤ b.addr ∧ b.stop ≤ s.top := fun b hb ↦
    ⟨hbase ▸ (h.inv.live_inside b hb).1, (h.inv.live_inside b hb).2.2⟩
  refine ⟨F, ?_, ?_, hsorted.2, pairwise_append.2 ⟨hsorted.2.imp fun hab ↦ .inl hab.le,
    h.inv.live_apart, fun a ha ↦ h.inv.apart a (mem_cons_of_mem _ ha)⟩,
    fun b hb ↦ (mem_append.1 hb).elim (hfree b) (hlive b), ?_⟩
  · by_cases hzero : s.heap.freep = 0
    · obtain ⟨hnone, hG⟩ := h.fresh hzero
      exact .inl ⟨hzero, (List.cons.inj hG).2, hnone⟩
    · have hstart : s.heap.start = s.heap := if_neg hzero
      have hinv := h.inv
      rw [hstart] at hinv
      exact .inr ⟨hinv.circular, hinv.freep⟩
  · intro b hb
    by_cases hzero : s.heap.freep = 0
    · obtain ⟨hnone, hG⟩ := h.fresh hzero
      rw [(List.cons.inj hG).2, hnone] at hb
      exact nomatch hb
    · have hstart : s.heap.start = s.heap := if_neg hzero
      have hinv := h.inv
      rw [hstart] at hinv
      exact (mem_append.1 hb).elim (fun hb ↦ hinv.free_size b (mem_cons_of_mem _ hb))
        (hinv.live_size b)
  · rw [← h.bytes, ← htotal, units_append, units_cons, zero_add]

/-- **The allocator is correct after every run**: the free blocks are listed in order, and are
merged where they touch; blocks do not overlap, and with the free ones are all the memory that was
obtained. A call of `malloc` then ends, and returns a new block with enough room, or `0` if `sbrk`
failed; a call of `free` on a block in use ends. -/
theorem heap_correct (base : ℕ) (mem : ℕ → Header) (hbase : 0 < base) (es : List Event)
    (s : Session)
    (hs : runSteps step (init base mem) es = some s) :
    (∃ F, s.Correct F) ∧
    (∀ nbytes reply, s.Admits nbytes reply → ∃ ap failures t,
      s.malloc nbytes reply = some (ap, failures, t) ∧
      (ap = 0 ∧ 0 < failures ∧ t.live = s.live ∨
        ∃ b : Block, t.live = b :: s.live ∧ b.addr + headerSize = ap ∧
          nbytes.toNat + headerSize ≤ headerSize * b.size)) ∧
    ∀ b ∈ s.live, (s.heap.free (b.addr + headerSize)).isSome := by
  obtain ⟨G, total, h⟩ : ∃ G total, Reached s G total :=
    runSteps_invariant (I := fun s ↦ ∃ G total, Reached s G total) ⟨_, _, reached_init hbase mem⟩
      (fun r e t ⟨_, _, hr⟩ he ↦ hr.step he) hs
  refine ⟨h.correct, fun nbytes reply ha ↦ ?_, fun b hb ↦ ?_⟩
  · obtain ⟨ap, failures, t, hrun, -, hout⟩ := h.malloc ha
    exact ⟨ap, failures, t, hrun, hout⟩
  · obtain ⟨l₁, l₂, hlive⟩ := List.append_of_mem hb
    obtain ⟨h', hfree, -⟩ := h.free hlive
    rw [hfree, Option.isSome_some]

/-- Three blocks are taken from one piece of memory; the first and the last of them are freed, and
then the one between them, after a write to it. -/
def threeFreed : List Event :=
  [.malloc 100 (some 4096), .malloc 16 none, .malloc 40 none, .free 69520, .free 69424,
    .write 69480 ⟨7, 7⟩, .free 69488]

theorem heap_correct_threeFreed :
    ∃ s, runSteps step (init 1024 fun _ ↦ ⟨0, 0⟩) threeFreed = some s ∧ s.live = [] ∧
      s.heap.ptr 1024 = 4096 ∧ s.heap.size 4096 = 4096 ∧ s.heap.ptr 4096 = 1024 ∧
      (∃ F, s.Correct F) := by
  have hrun : (runSteps step (init 1024 fun _ ↦ ⟨0, 0⟩) threeFreed).isSome ∧
      ∀ s ∈ runSteps step (init 1024 fun _ ↦ ⟨0, 0⟩) threeFreed, s.live = [] ∧
        s.heap.ptr 1024 = 4096 ∧ s.heap.size 4096 = 4096 ∧ s.heap.ptr 4096 = 1024 := by
    decide +kernel
  obtain ⟨s, hs⟩ := Option.isSome_iff_exists.1 hrun.1
  obtain ⟨hlive, hbase, hsize, hptr⟩ := hrun.2 s hs
  exact ⟨s, hs, hlive, hbase, hsize, hptr, (heap_correct 1024 _ (by decide) threeFreed s hs).1⟩

end Session

end Xv6.Umalloc

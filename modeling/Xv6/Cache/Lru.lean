import Mathlib.Data.Fintype.Card
import Mathlib.Data.List.FinRange
import Xv6.Library.LinkedRing
import Xv6.Library.Run
import Xv6.Library.SumElsewhere
import Xv6.Param

/-!
# The list of buffers

`kernel/bio.c` with its doubly linked list: which buffer `bget` returns, and the order the list is
kept in. The pointers are those of the source, assigned in its order; the loops of `bget` follow
them, with a bound on the number of nodes they look at. Any number of processes use the cache, for
any devices; contents are left out, as nothing here depends on them.

The events are the sections under `bcache.lock` of `bget`, `brelse`, `bpin` and `bunpin`, and taking
and releasing the sleep lock in between. `waiting`, `releasing` and `pins` are the callers' side of
the reference counts: the calls of `bget` that have not got the sleep lock yet, the calls of
`brelse` that have only released it, and the pins of the log.

`Bcache.Sound` is the representation invariant, and `bcache_sound` says that it holds in every state
and that a referenced buffer keeps its identity. The counts are natural numbers: with `NPROC`
processes and `LOGBLOCKS` pins a `uint` does not overflow.
-/

namespace Xv6

open Function List Option

/-- `struct buf`, without its data and its pointers; `lock` is who has the sleep lock. -/
structure BufHeader (P : Type) where
  dev : ℕ
  blockno : ℕ
  valid : Bool
  refcnt : ℕ
  lock : Option P

/-- `bcache`, and what the callers have of it. -/
structure Bcache (P : Type) where
  buf : Fin nbuf → BufHeader P
  links : Links (Fin nbuf)
  waiting : List (P × Fin nbuf)
  releasing : List (P × Fin nbuf)
  pins : List (Fin nbuf)

/-- A section under `bcache.lock`, or an operation on a sleep lock. -/
inductive BioEvent (P : Type)
  | bget (p : P) (dev blockno : ℕ)
  | acquiresleep (p : P) (i : Fin nbuf)
  | releasesleep (p : P) (i : Fin nbuf)
  | brelse (p : P) (i : Fin nbuf)
  | bpin (i : Fin nbuf)
  | bunpin (i : Fin nbuf)

namespace Bcache

variable {P : Type}

/-- `binit`. -/
def binit : Bcache P where
  buf _ := { dev := 0, blockno := 0, valid := false, refcnt := 0, lock := none }
  links := (List.finRange nbuf).foldl Links.pushFront Links.empty
  waiting := []
  releasing := []
  pins := []

/-- The first loop of `bget`: is the block already cached? -/
def lookup (c : Bcache P) (dev blockno : ℕ) : Option (Option (Fin nbuf)) :=
  Links.findFrom c.links.next (fun i ↦ (c.buf i).dev = dev ∧ (c.buf i).blockno = blockno) (nbuf + 1)
    (c.links.next none)

/-- The second loop of `bget`: the least recently used unused buffer. -/
def lru (c : Bcache P) : Option (Option (Fin nbuf)) :=
  Links.findFrom c.links.prev (fun i ↦ (c.buf i).refcnt = 0) (nbuf + 1) (c.links.prev none)

/-- Replace the header of buffer `i`. -/
def setBuf (c : Bcache P) (i : Fin nbuf) (x : BufHeader P) : Bcache P :=
  { c with buf := update c.buf i x }

/-- The section of `bget` under `bcache.lock`; `panic("bget: no buffers")` is no state. -/
def bget (c : Bcache P) (p : P) (dev blockno : ℕ) : Option (Bcache P) :=
  match c.lookup dev blockno with
  | some (some i) =>
    some { c.setBuf i { c.buf i with refcnt := (c.buf i).refcnt + 1 } with
      waiting := (p, i) :: c.waiting }
  | some none =>
    match c.lru with
    | some (some i) =>
      some { c.setBuf i { c.buf i with dev := dev, blockno := blockno, valid := false, refcnt := 1 }
        with waiting := (p, i) :: c.waiting }
    | _ => none
  | none => none

/-- The section of `brelse` under `bcache.lock`. -/
def brelse (c : Bcache P) (i : Fin nbuf) : Bcache P :=
  let c := c.setBuf i { c.buf i with refcnt := (c.buf i).refcnt - 1 }
  if (c.buf i).refcnt = 0 then
    -- no one is waiting for it
    { c with links := (c.links.unlink i).pushFront i }
  else c

/-- What an event does. Callers ask for non-zero devices, and pair `bget` with `brelse` and `bpin`
with `bunpin`. -/
def step [DecidableEq P] (c : Bcache P) : BioEvent P → Option (Bcache P)
  | .bget p dev blockno => if dev ≠ 0 then c.bget p dev blockno else none
  | .acquiresleep p i =>
    if (p, i) ∈ c.waiting ∧ (c.buf i).lock = none then
      some { c.setBuf i { c.buf i with lock := some p } with waiting := c.waiting.erase (p, i) }
    else none
  | .releasesleep p i =>
    if (c.buf i).lock = some p then
      some { c.setBuf i { c.buf i with lock := none } with releasing := (p, i) :: c.releasing }
    else none
  | .brelse p i =>
    if (p, i) ∈ c.releasing then
      some { c.brelse i with releasing := c.releasing.erase (p, i) }
    else none
  | .bpin i =>
    some { c.setBuf i { c.buf i with refcnt := (c.buf i).refcnt + 1 } with pins := i :: c.pins }
  | .bunpin i =>
    if i ∈ c.pins then
      some { c.setBuf i { c.buf i with refcnt := (c.buf i).refcnt - 1 } with
        pins := c.pins.erase i }
    else none

/-- How many calls are between `bget` and `brelse` on buffer `i`. -/
def users (c : Bcache P) (i : Fin nbuf) : ℕ :=
  c.waiting.countP (·.2 = i) + (if (c.buf i).lock.isSome then 1 else 0) +
    c.releasing.countP (·.2 = i)

/-- The representation invariant. A buffer that was never assigned has device 0. -/
structure Sound (c : Bcache P) : Prop where
  /-- Following `next` from `head` visits each buffer once and comes back; `prev` is the reverse. -/
  ring : ∃ l, c.links.Ring l ∧ ∀ i, i ∈ l
  unique : ∀ i j, (c.buf i).dev ≠ 0 → (c.buf i).dev = (c.buf j).dev →
    (c.buf i).blockno = (c.buf j).blockno → i = j
  refcnt : ∀ i, (c.buf i).refcnt = c.users i + c.pins.count i

/-! ### The list -/

theorem ring_foldl {L : Links (Fin nbuf)} {l new : List (Fin nbuf)} (h : L.Ring l)
    (hnodup : new.Nodup) (hnew : ∀ i ∈ new, i ∉ l) :
    (new.foldl Links.pushFront L).Ring (new.reverse ++ l) := by
  induction new generalizing L l with
  | nil => exact h
  | cons i new ih =>
    obtain ⟨hi, hnodup⟩ := nodup_cons.1 hnodup
    rw [foldl_cons, reverse_cons, append_assoc, singleton_append]
    refine ih (h.pushFront (hnew i mem_cons_self)) hnodup fun j hj hmem ↦ ?_
    rcases mem_cons.1 hmem with rfl | hmem
    · exact hi hj
    · exact hnew j (mem_cons_of_mem i hj) hmem

theorem sound_binit : Sound (binit : Bcache P) where
  ring := by
    refine ⟨(List.finRange nbuf).reverse ++ [],
      ring_foldl Links.ring_empty (nodup_finRange nbuf) fun _ _ ↦ not_mem_nil, fun i ↦ ?_⟩
    rw [append_nil, mem_reverse]
    exact mem_finRange i
  unique _ _ h := absurd rfl h
  refcnt _ := rfl

namespace Sound

variable {c c' : Bcache P} {i : Fin nbuf}

/-- The first loop of `bget` ends, and finds the buffer of the block if there is one. -/
theorem lookup (h : Sound c) (dev blockno : ℕ) : ∃ r, c.lookup dev blockno = some r ∧
    (∀ i, r = some i → (c.buf i).dev = dev ∧ (c.buf i).blockno = blockno) ∧
    (r = none → ∀ i, ¬((c.buf i).dev = dev ∧ (c.buf i).blockno = blockno)) := by
  obtain ⟨l, hl, hall⟩ := h.ring
  have hlen : l.length < nbuf + 1 :=
    Nat.lt_succ_of_le (hl.nodup.length_le_card.trans (Fintype.card_fin nbuf).le)
  refine ⟨_, hl.findFrom_next _ hlen, fun i hi ↦ ?_, fun hnone i hi ↦ ?_⟩
  · simpa using List.find?_some hi
  · exact List.find?_eq_none.1 hnone i (hall i) (by simpa using hi)

/-- The second loop ends, and finds an unused buffer if there is one. -/
theorem lru (h : Sound c) : ∃ r, c.lru = some r ∧ (∀ i, r = some i → (c.buf i).refcnt = 0) ∧
    (r = none → ∀ i, (c.buf i).refcnt ≠ 0) := by
  obtain ⟨l, hl, hall⟩ := h.ring
  have hlen : l.length < nbuf + 1 :=
    Nat.lt_succ_of_le (hl.nodup.length_le_card.trans (Fintype.card_fin nbuf).le)
  refine ⟨_, hl.findFrom_prev _ hlen, fun i hi ↦ ?_, fun hnone i hi ↦ ?_⟩
  · simpa using List.find?_some hi
  · exact List.find?_eq_none.1 hnone i (mem_reverse.2 (hall i)) (by simpa using hi)

/-- A released buffer is moved to the front. -/
theorem relink (h : Sound c) (i : Fin nbuf) :
    ∃ l, ((c.links.unlink i).pushFront i).Ring l ∧ ∀ j, j ∈ l := by
  obtain ⟨l, hl, hall⟩ := h.ring
  obtain ⟨l₁, l₂, rfl⟩ := append_of_mem (hall i)
  refine ⟨i :: (l₁ ++ l₂), hl.unlink.pushFront fun hi ↦ ?_, fun j ↦ ?_⟩
  · exact (nodup_cons.1 (nodup_middle.1 hl.nodup)).1 hi
  · have hj := hall j
    rw [mem_append, mem_cons] at hj
    rw [mem_cons, mem_append]
    tauto

/-! ### Steps -/

/-- Only buffer `i` changes, and the calls that use it. -/
theorem of_setBuf (h : Sound c) {x : BufHeader P} (hbuf : c'.buf = update c.buf i x)
    (hring : ∃ l, c'.links.Ring l ∧ ∀ i, i ∈ l)
    (hid : x.dev = (c.buf i).dev ∧ x.blockno = (c.buf i).blockno ∨
      ∀ j, ¬((c.buf j).dev = x.dev ∧ (c.buf j).blockno = x.blockno))
    (hcount : ∀ j, j ≠ i → c'.waiting.countP (·.2 = j) = c.waiting.countP (·.2 = j) ∧
      c'.releasing.countP (·.2 = j) = c.releasing.countP (·.2 = j) ∧
      c'.pins.count j = c.pins.count j)
    (hrefs : x.refcnt = c'.users i + c'.pins.count i) : Sound c' := by
  have hself : c'.buf i = x := by rw [hbuf, update_self]
  have hother : ∀ j, j ≠ i → c'.buf j = c.buf j := fun j hj ↦ by
    rw [hbuf, update_of_ne hj]
  refine ⟨hring, fun j k hdev hd hb ↦ ?_, fun j ↦ ?_⟩
  · -- a new identity is one no buffer had
    by_contra hjk
    rcases eq_or_ne j i with rfl | hj
    · have hk : k ≠ j := Ne.symm hjk
      rw [hself] at hdev hd hb
      rw [hother k hk] at hd hb
      rcases hid with hid | hid
      · exact hjk (h.unique j k (hid.1 ▸ hdev) (hid.1 ▸ hd) (hid.2 ▸ hb))
      · exact hid k ⟨hd.symm, hb.symm⟩
    · rw [hother j hj] at hdev hd hb
      rcases eq_or_ne k i with rfl | hk
      · rw [hself] at hd hb
        rcases hid with hid | hid
        · exact hjk (h.unique j k hdev (hd.trans hid.1) (hb.trans hid.2))
        · exact hid j ⟨hd, hb⟩
      · rw [hother k hk] at hd hb
        exact hjk (h.unique j k hdev hd hb)
  · rcases eq_or_ne j i with rfl | hj
    · rw [hself]
      exact hrefs
    · obtain ⟨hw, hr, hp⟩ := hcount j hj
      rw [hother j hj, h.refcnt j, users, users, hother j hj, hw, hr, hp]

/-- `bget` takes a reference to the buffer of the block, which has it already or was unused. -/
theorem bget (h : Sound c) {p : P} {dev blockno : ℕ} (hs : c.bget p dev blockno = some c') :
    Sound c' ∧ ∀ i, (c.buf i).refcnt ≠ 0 →
      (c'.buf i).dev = (c.buf i).dev ∧ (c'.buf i).blockno = (c.buf i).blockno := by
  obtain ⟨r, hr, hfound, hmissing⟩ := h.lookup dev blockno
  rw [Bcache.bget, hr] at hs
  cases r with
  | some i =>
    rw [some_inj] at hs
    subst hs
    refine ⟨h.of_setBuf rfl h.ring (.inl ⟨rfl, rfl⟩) (fun j hj ↦ ⟨?_, rfl, rfl⟩) ?_, fun j _ ↦ ?_⟩
    · rw [countP_cons_key Prod.snd, if_neg hj.symm, add_zero]
    · have hrefs := h.refcnt i
      rw [users] at hrefs ⊢
      simp only [setBuf, update_self, countP_cons_key Prod.snd, if_true]
      omega
    · rcases eq_or_ne j i with rfl | hj
      · simp only [setBuf, update_self, and_self]
      · simp only [setBuf, update_of_ne hj, and_self]
  | none =>
    obtain ⟨q, hq, hunused, -⟩ := h.lru
    rw [hq] at hs
    cases q with
    | none => exact absurd hs (by simp)
    | some i =>
      have hzero := hunused i rfl
      have hrefs := h.refcnt i
      rw [users, hzero] at hrefs
      simp only [some_inj] at hs
      subst hs
      refine ⟨h.of_setBuf rfl h.ring (.inr (hmissing rfl)) (fun j hj ↦ ⟨?_, rfl, rfl⟩) ?_,
        fun j hj ↦ ?_⟩
      · rw [countP_cons_key Prod.snd, if_neg hj.symm, add_zero]
      · rw [users]
        simp only [setBuf, update_self, countP_cons_key Prod.snd, if_true]
        omega
      · have hji : j ≠ i := fun heq ↦ hj (heq ▸ hzero)
        simp only [setBuf, update_of_ne hji, and_self]

/-- **A step keeps the invariant**, and the identity of a referenced buffer. -/
theorem step [DecidableEq P] (h : Sound c) {e : BioEvent P} (hs : c.step e = some c') :
    Sound c' ∧ ∀ i, (c.buf i).refcnt ≠ 0 →
      (c'.buf i).dev = (c.buf i).dev ∧ (c'.buf i).blockno = (c.buf i).blockno := by
  -- all events but `bget` leave every identity alone
  have hsame : ∀ {i : Fin nbuf} {x : BufHeader P}, c'.buf = update c.buf i x →
      x.dev = (c.buf i).dev ∧ x.blockno = (c.buf i).blockno → ∀ j, (c.buf j).refcnt ≠ 0 →
        (c'.buf j).dev = (c.buf j).dev ∧ (c'.buf j).blockno = (c.buf j).blockno := by
    intro i x hbuf hid j _
    rw [hbuf]
    rcases eq_or_ne j i with rfl | hj
    · rwa [update_self]
    · rw [update_of_ne hj]
      exact ⟨rfl, rfl⟩
  cases e with
  | bget p dev blockno =>
    rw [Bcache.step, ite_none_right_eq_some] at hs
    exact h.bget hs.2
  | acquiresleep p i =>
    rw [Bcache.step, ite_none_right_eq_some] at hs
    obtain ⟨⟨hmem, hlock⟩, hs⟩ := hs
    have hrefs := h.refcnt i
    have herase := countP_erase_key Prod.snd hmem
    rw [some_inj] at hs
    subst hs
    refine ⟨h.of_setBuf rfl h.ring (.inl ⟨rfl, rfl⟩) (fun j hj ↦ ⟨?_, rfl, rfl⟩) ?_,
      hsame rfl ⟨rfl, rfl⟩⟩
    · have hj' := herase j
      rwa [if_neg hj.symm, add_zero] at hj'
    · have hi := herase i
      rw [users, hlock] at hrefs
      rw [users]
      simp only [setBuf, update_self, if_true, isSome_none, isSome_some,
        Bool.false_eq_true, if_false] at hi hrefs ⊢
      omega
  | releasesleep p i =>
    rw [Bcache.step, ite_none_right_eq_some] at hs
    obtain ⟨hlock, hs⟩ := hs
    have hrefs := h.refcnt i
    rw [some_inj] at hs
    subst hs
    refine ⟨h.of_setBuf rfl h.ring (.inl ⟨rfl, rfl⟩) (fun j hj ↦ ⟨rfl, ?_, rfl⟩) ?_,
      hsame rfl ⟨rfl, rfl⟩⟩
    · rw [countP_cons_key Prod.snd, if_neg hj.symm, add_zero]
    · rw [users, hlock] at hrefs
      rw [users]
      simp only [setBuf, update_self, countP_cons_key Prod.snd, if_true, isSome_none,
        isSome_some, Bool.false_eq_true, if_false] at hrefs ⊢
      omega
  | brelse p i =>
    rw [Bcache.step, ite_none_right_eq_some] at hs
    obtain ⟨hmem, hs⟩ := hs
    have hrefs := h.refcnt i
    have herase := countP_erase_key Prod.snd hmem
    have hi := herase i
    rw [if_pos rfl] at hi
    rw [users] at hrefs
    have hcount : ∀ j, j ≠ i →
        (c.releasing.erase (p, i)).countP (·.2 = j) = c.releasing.countP (·.2 = j) := by
      intro j hj
      have hj' := herase j
      rwa [if_neg hj.symm, add_zero] at hj'
    rw [some_inj, Bcache.brelse] at hs
    simp only [setBuf, update_self] at hs
    -- the buffer goes to the front of the list when nobody uses it any more
    split at hs
    all_goals
      subst hs
      refine ⟨h.of_setBuf rfl ?_ (.inl ⟨rfl, rfl⟩) (fun j hj ↦ ⟨rfl, hcount j hj, rfl⟩) ?_,
        hsame rfl ⟨rfl, rfl⟩⟩
    · exact h.relink i
    · rw [users]
      simp only [update_self]
      omega
    · exact h.ring
    · rw [users]
      simp only [update_self]
      omega
  | bpin i =>
    have hrefs := h.refcnt i
    rw [Bcache.step, some_inj] at hs
    subst hs
    refine ⟨h.of_setBuf rfl h.ring (.inl ⟨rfl, rfl⟩) (fun j hj ↦ ⟨rfl, rfl, ?_⟩) ?_,
      hsame rfl ⟨rfl, rfl⟩⟩
    · exact count_cons_of_ne hj.symm
    · rw [users] at hrefs ⊢
      simp only [setBuf, update_self, count_cons_self]
      omega
  | bunpin i =>
    rw [Bcache.step, ite_none_right_eq_some] at hs
    obtain ⟨hmem, hs⟩ := hs
    have hrefs := h.refcnt i
    have hpos := count_pos_iff.2 hmem
    rw [some_inj] at hs
    subst hs
    refine ⟨h.of_setBuf rfl h.ring (.inl ⟨rfl, rfl⟩) (fun j hj ↦ ⟨rfl, rfl, ?_⟩) ?_,
      hsame rfl ⟨rfl, rfl⟩⟩
    · exact count_erase_of_ne hj
    · rw [users] at hrefs ⊢
      simp only [setBuf, update_self, count_erase_self]
      omega

end Sound

variable [DecidableEq P]

/-- **The buffer cache is sound in every state**: the list holds each buffer once, no block is
cached twice, and the reference counts are exact. Both loops of `bget` end, and no step gives a
referenced buffer a new identity. -/
theorem bcache_sound (es : List (BioEvent P)) (c : Bcache P)
    (hc : runSteps step binit es = some c) :
    c.Sound ∧ (∀ dev blockno, (c.lookup dev blockno).isSome) ∧ c.lru.isSome ∧
      ∀ e c', c.step e = some c' → ∀ i, 0 < (c.buf i).refcnt →
        (c'.buf i).dev = (c.buf i).dev ∧ (c'.buf i).blockno = (c.buf i).blockno := by
  have h : c.Sound := runSteps_invariant sound_binit (fun _ _ _ h hs ↦ (h.step hs).1) hc
  refine ⟨h, fun dev blockno ↦ ?_, ?_, fun e c' hs i hi ↦ (h.step hs).2 i hi.ne'⟩
  · obtain ⟨r, hr, -⟩ := h.lookup dev blockno
    rw [hr, Option.isSome_some]
  · obtain ⟨r, hr, -⟩ := h.lru
    rw [hr, Option.isSome_some]

/-- Two processes want one block; the first one pins it and releases it, and takes another one. -/
def sharedBlock : List (BioEvent Bool) :=
  [.bget true 1 5, .acquiresleep true 0, .bget false 1 5, .bpin 0, .releasesleep true 0,
    .brelse true 0, .bget true 1 6, .acquiresleep true 1]

theorem bcache_sound_sharedBlock : ∃ c, runSteps step binit sharedBlock = some c ∧ c.Sound ∧
    (c.buf 0).refcnt = 2 ∧ c.lookup 1 5 = some (some 0) ∧ c.lru = some (some 2) := by
  have hrun : (runSteps step binit sharedBlock).isSome ∧
      ∀ c ∈ runSteps step binit sharedBlock, (c.buf 0).refcnt = 2 ∧
        c.lookup 1 5 = some (some 0) ∧ c.lru = some (some 2) := by
    decide +kernel
  obtain ⟨c, hc⟩ := Option.isSome_iff_exists.1 hrun.1
  exact ⟨c, hc, (bcache_sound sharedBlock c hc).1, hrun.2 c hc⟩

end Bcache

end Xv6

import Xv6.Cache.Lru

/-!
# Eviction is least recently used

The list of `kernel/bio.c` has no time stamps: how recently a buffer was used is its place in the
list, and only a `brelse` that leaves a buffer unused moves it. Here the order of the list is
compared with the history of a run, `drops`, in which a buffer is noted each time its reference
count falls to zero. `Ordered` says that the list is in the order of the last drops, and that the
buffers that were never used stand behind all others, in the order of the array. It is an invariant
of the runs of `bread` and `brelse`; `bpin` and `bunpin`, which leave the list alone, are not part
of them.

`bget_lru` is the result for `bget`.
-/

namespace Xv6.Bcache

open Function List Option

variable {P : Type} {c c' : Bcache P} {i j : Fin nbuf} {D : List (Fin nbuf)}

/-! ### The history -/

/-- A step of a call of `bread` or `brelse`, on any device. -/
def access [DecidableEq P] (c : Bcache P) : BioEvent P → Option (Bcache P)
  | .bget p dev blockno => c.bget p dev blockno
  | .acquiresleep p i => c.step (.acquiresleep p i)
  | .releasesleep p i => c.step (.releasesleep p i)
  | .brelse p i => c.step (.brelse p i)
  | .bpin _ => none
  | .bunpin _ => none

/-- The buffer that is used before the step and unused after it. -/
def drop [DecidableEq P] (c : Bcache P) (e : BioEvent P) : Option (Fin nbuf) :=
  (c.access e).bind fun c' ↦
    (List.finRange nbuf).find? fun i ↦ 0 < (c.buf i).refcnt ∧ (c'.buf i).refcnt = 0

/-- The buffers whose reference count has fallen to zero, each time it has. -/
def drops [DecidableEq P] (es : List (BioEvent P)) : List (Fin nbuf) :=
  observations access drop binit es

/-- When buffer `i` was last dropped: the place of its last occurrence in `D`, and `0` if it has
none. -/
def lastDrop (D : List (Fin nbuf)) (i : Fin nbuf) : ℕ := D.length - D.reverse.idxOf i

/-- Buffer `i` was dropped for the last time before `j` was, or neither has ever been used and `i`
comes first in the array. -/
def DroppedBefore (D : List (Fin nbuf)) (i j : Fin nbuf) : Prop :=
  lastDrop D i < lastDrop D j ∨ lastDrop D i = 0 ∧ lastDrop D j = 0 ∧ i < j

/-- Buffer `i` caches block `blockno` of device `dev`. -/
def Caches (c : Bcache P) (i : Fin nbuf) (dev blockno : ℕ) : Prop :=
  (c.buf i).dev = dev ∧ (c.buf i).blockno = blockno

theorem lastDrop_concat_self (D : List (Fin nbuf)) (i : Fin nbuf) :
    lastDrop (D ++ [i]) i = D.length + 1 := by
  rw [lastDrop, reverse_append, reverse_singleton, singleton_append,
    idxOf_cons_self, length_append, length_singleton, Nat.sub_zero]

theorem lastDrop_concat_of_ne (h : j ≠ i) : lastDrop (D ++ [i]) j = lastDrop D j := by
  rw [lastDrop, lastDrop, reverse_append, reverse_singleton, singleton_append,
    idxOf_cons_ne _ h.symm, length_append, length_singleton, Nat.add_sub_add_right]

theorem lastDrop_le (D : List (Fin nbuf)) (i : Fin nbuf) : lastDrop D i ≤ D.length := Nat.sub_le _ _

/-! ### The order of the list -/

/-- Following `next` from `head` goes from the buffer that was dropped last to the one that was
dropped first. -/
def Ordered (D : List (Fin nbuf)) (c : Bcache P) : Prop :=
  ∃ l, c.links.Ring l ∧ (∀ i, i ∈ l) ∧ l.Pairwise fun i j ↦ DroppedBefore D j i

theorem ordered_binit : Ordered [] (binit : Bcache P) := by
  refine ⟨(List.finRange nbuf).reverse ++ [],
    ring_foldl Links.ring_empty (nodup_finRange nbuf) fun _ _ ↦ not_mem_nil, fun i ↦ ?_, ?_⟩
  · rw [append_nil, mem_reverse]
    exact mem_finRange i
  · rw [append_nil, pairwise_reverse]
    exact (pairwise_lt_finRange nbuf).imp fun h ↦ .inr ⟨rfl, rfl, h⟩

/-- A buffer that is dropped goes to the front. -/
theorem Ordered.relink (h : Ordered D c) (i : Fin nbuf)
    (hlinks : c'.links = (c.links.unlink i).pushFront i) : Ordered (D ++ [i]) c' := by
  obtain ⟨l, hring, hall, hsorted⟩ := h
  obtain ⟨l₁, l₂, rfl⟩ := append_of_mem (hall i)
  have hi : i ∉ l₁ ++ l₂ := (nodup_cons.1 (nodup_middle.1 hring.nodup)).1
  refine ⟨i :: (l₁ ++ l₂), hlinks ▸ hring.unlink.pushFront hi, fun j ↦ ?_,
    pairwise_cons.2 ⟨fun j hj ↦ .inl ?_, ?_⟩⟩
  · exact perm_middle.mem_iff.1 (hall j)
  · rw [lastDrop_concat_self, lastDrop_concat_of_ne (ne_of_mem_of_not_mem hj hi)]
    exact Nat.lt_succ_of_le (lastDrop_le D j)
  · -- the others keep their order
    have hrest := hsorted.sublist ((sublist_cons_self i l₂).append_left l₁)
    refine hrest.imp_of_mem fun ha hb hab ↦ ?_
    rwa [DroppedBefore, lastDrop_concat_of_ne (ne_of_mem_of_not_mem ha hi),
      lastDrop_concat_of_ne (ne_of_mem_of_not_mem hb hi)]

/-- The second loop of `bget` finds the unused buffer that was dropped first. -/
theorem Ordered.lru (h : Ordered D c) (hi : c.lru = some (some i)) :
    (c.buf i).refcnt = 0 ∧ ∀ j, j ≠ i → (c.buf j).refcnt = 0 → DroppedBefore D i j := by
  obtain ⟨l, hring, hall, hsorted⟩ := h
  have hlen : l.length < nbuf + 1 :=
    Nat.lt_succ_of_le (hring.nodup.length_le_card.trans (Fintype.card_fin nbuf).le)
  rw [Bcache.lru, hring.findFrom_prev _ hlen, some_inj] at hi
  obtain ⟨hunused, l₁, l₂, hl, hbefore⟩ := List.find?_eq_some_iff_append.1 hi
  refine ⟨of_decide_eq_true hunused, fun j hne hj ↦ ?_⟩
  -- an unused buffer that the loop has not looked at
  have hmem : j ∈ l₁ ++ i :: l₂ := hl ▸ mem_reverse.2 (hall j)
  have hafter : j ∈ l₂ := by
    rcases mem_append.1 hmem with hj₁ | hj₂
    · exact absurd (decide_eq_true hj) (by simpa using hbefore j hj₁)
    · exact (mem_cons.1 hj₂).resolve_left hne
  have hback : l.reverse.Pairwise (DroppedBefore D) := pairwise_reverse.2 hsorted
  rw [hl] at hback
  exact rel_of_pairwise_cons (pairwise_append.1 hback).2.1 hafter

/-! ### Steps -/

/-- What a step does to the list and to the counts: nothing is dropped and the list is as before, or
one buffer is dropped and moved to the front. -/
inductive Moved (c c' : Bcache P) : Option (Fin nbuf) → Prop
  | stay (links : c'.links = c.links)
      (refcnt : ∀ i, 0 < (c.buf i).refcnt → 0 < (c'.buf i).refcnt) : Moved c c' none
  | front (i : Fin nbuf) (links : c'.links = (c.links.unlink i).pushFront i)
      (used : 0 < (c.buf i).refcnt) (unused : (c'.buf i).refcnt = 0)
      (others : ∀ j, j ≠ i → (c'.buf j).refcnt = (c.buf j).refcnt) : Moved c c' (some i)

/-- A step that changes the header of one buffer only, and does not drop it. -/
theorem Moved.of_setBuf {x : BufHeader P} (hlinks : c'.links = c.links)
    (hbuf : c'.buf = update c.buf i x) (hx : 0 < (c.buf i).refcnt → 0 < x.refcnt) :
    Moved c c' none := by
  refine .stay hlinks fun j hj ↦ ?_
  rw [hbuf]
  rcases eq_or_ne j i with rfl | hne
  · rw [update_self]
    exact hx hj
  · rwa [update_of_ne hne]

variable [DecidableEq P] {e : BioEvent P}

theorem Moved.drop_eq {d : Option (Fin nbuf)} (h : Moved c c' d) (hs : c.access e = some c') :
    c.drop e = d := by
  rw [drop, hs, bind_some]
  cases h with
  | stay links refcnt =>
    refine List.find?_eq_none.2 fun i _ hi ↦ ?_
    obtain ⟨hused, hunused⟩ := of_decide_eq_true hi
    exact (refcnt i hused).ne' hunused
  | front i links used unused others =>
    have hfound : (List.finRange nbuf).find?
        (fun j ↦ 0 < (c.buf j).refcnt ∧ (c'.buf j).refcnt = 0) ≠
        none := fun hnone ↦
      List.find?_eq_none.1 hnone i (mem_finRange i) (decide_eq_true ⟨used, unused⟩)
    obtain ⟨j, hj⟩ := ne_none_iff_exists'.1 hfound
    have hdrop := List.find?_some hj
    obtain ⟨hused, hunused⟩ := of_decide_eq_true hdrop
    obtain rfl : j = i := by
      by_contra hne
      exact hused.ne' ((others j hne).symm.trans hunused)
    exact hj

theorem Sound.moved (h : Sound c) (hs : c.access e = some c') : ∃ d, Moved c c' d := by
  cases e with
  | bget p dev blockno =>
    rw [access, Bcache.bget] at hs
    split at hs
    · obtain rfl := Option.some.inj hs
      exact ⟨none, .of_setBuf rfl rfl fun _ ↦ Nat.succ_pos _⟩
    · split at hs
      · obtain rfl := Option.some.inj hs
        exact ⟨none, .of_setBuf rfl rfl fun _ ↦ Nat.one_pos⟩
      · cases hs
    · cases hs
  | acquiresleep p i =>
    rw [access, Bcache.step, ite_none_right_eq_some] at hs
    obtain rfl := Option.some.inj hs.2
    exact ⟨none, .of_setBuf rfl rfl id⟩
  | releasesleep p i =>
    rw [access, Bcache.step, ite_none_right_eq_some] at hs
    obtain rfl := Option.some.inj hs.2
    exact ⟨none, .of_setBuf rfl rfl id⟩
  | brelse p i =>
    rw [access, Bcache.step, ite_none_right_eq_some] at hs
    obtain ⟨hmem, hs⟩ := hs
    have hused : 0 < (c.buf i).refcnt := by
      have hpos : 0 < c.releasing.countP (·.2 = i) :=
        countP_pos_iff.2 ⟨(p, i), hmem, decide_eq_true rfl⟩
      rw [h.refcnt i, users]
      omega
    rw [some_inj, Bcache.brelse] at hs
    simp only [setBuf, update_self] at hs
    split at hs
    case isTrue hzero =>
      subst hs
      refine ⟨some i, .front i rfl hused ?_ fun j hj ↦ ?_⟩
      · dsimp only
        rw [update_self]
        exact hzero
      · dsimp only
        rw [update_of_ne hj]
    case isFalse hzero =>
      subst hs
      exact ⟨none, .of_setBuf rfl rfl fun _ ↦ Nat.pos_of_ne_zero hzero⟩
  | bpin i => cases hs
  | bunpin i => cases hs

theorem Sound.access (h : Sound c) (hs : c.access e = some c') : Sound c' := by
  cases e with
  | bget p dev blockno => exact (h.bget hs).1
  | acquiresleep p i =>
    rw [Bcache.access] at hs
    exact (h.step hs).1
  | releasesleep p i =>
    rw [Bcache.access] at hs
    exact (h.step hs).1
  | brelse p i =>
    rw [Bcache.access] at hs
    exact (h.step hs).1
  | bpin i => exact nomatch hs
  | bunpin i => exact nomatch hs

/-- **The list is in the order of the last drops** after every run. -/
theorem sound_and_ordered {es : List (BioEvent P)} (hc : runSteps access binit es = some c) :
    Sound c ∧ Ordered (drops es) c := by
  refine runSteps_traceInvariant (I := fun es c ↦ Sound c ∧ Ordered (drops es) c)
    ⟨sound_binit, ordered_binit⟩ (fun es c e c' hes h hs ↦ ⟨h.1.access hs, ?_⟩) hc
  obtain ⟨d, hd⟩ := h.1.moved hs
  rw [drops, observations_concat hes, hd.drop_eq hs]
  cases hd with
  | stay links refcnt =>
    obtain ⟨l, hring, hl⟩ := h.2
    rw [toList_none, append_nil]
    exact ⟨l, links ▸ hring, hl⟩
  | front i links => exact h.2.relink i links

/-- **Eviction is least recently used.** After any run of calls of `bread` and `brelse`, `bget`
panics only if every buffer is in use. Otherwise it takes the buffer that caches the block; or there
is none, and it recycles the unused buffer that was dropped before all others, those that were never
used coming first in the order of the array. -/
theorem bget_lru (es : List (BioEvent P)) (c : Bcache P) (hc : runSteps access binit es = some c)
    (p : P) (dev blockno : ℕ) :
    (c.bget p dev blockno = none → ∀ i, 0 < (c.buf i).refcnt) ∧
    ∀ c', c.bget p dev blockno = some c' →
      (∃ i, c.Caches i dev blockno ∧
        c'.buf = update c.buf i { c.buf i with refcnt := (c.buf i).refcnt + 1 }) ∨
      (∀ j, ¬c.Caches j dev blockno) ∧ ∃ i, (c.buf i).refcnt = 0 ∧
        (∀ j, j ≠ i → (c.buf j).refcnt = 0 → DroppedBefore (drops es) i j) ∧
        c'.buf = update c.buf i
          { c.buf i with dev := dev, blockno := blockno, valid := false, refcnt := 1 } := by
  obtain ⟨hsound, hordered⟩ := sound_and_ordered hc
  obtain ⟨r, hr, hfound, hmissing⟩ := hsound.lookup dev blockno
  obtain ⟨q, hq, -, hnone⟩ := hsound.lru
  rw [Bcache.bget, hr]
  cases r with
  | some i =>
    refine ⟨(fun h ↦ by cases h), fun c' hs ↦ .inl ⟨i, hfound i rfl, ?_⟩⟩
    obtain rfl := Option.some.inj hs
    rfl
  | none =>
    dsimp only
    rw [hq]
    cases q with
    | none => exact ⟨fun _ i ↦ Nat.pos_of_ne_zero (hnone rfl i), fun c h ↦ by cases h⟩
    | some i =>
      obtain ⟨hunused, hfirst⟩ := hordered.lru hq
      refine ⟨(fun h ↦ by cases h), fun c' hs ↦ .inr ⟨hmissing rfl, i, hunused, hfirst, ?_⟩⟩
      obtain rfl := Option.some.inj hs
      rfl

/-- The buffers `i` and `j` are used, at the same time; `j` is released first, and then `i`, twice.
-/
def twoDropped (i j : Fin nbuf) : List (BioEvent Unit) :=
  [.bget () 1 5, .acquiresleep () i, .bget () 1 6, .acquiresleep () j, .bget () 1 5,
    .releasesleep () j, .brelse () j, .releasesleep () i, .brelse () i, .acquiresleep () i,
    .releasesleep () i, .brelse () i]

theorem bget_lru_twoDropped : drops (twoDropped 0 1) = [1, 0] ∧
    ∃ c, runSteps access binit (twoDropped 0 1) = some c ∧
    ((c.bget () 1 7 = none → ∀ i, 0 < (c.buf i).refcnt) ∧
    ∀ c', c.bget () 1 7 = some c' →
      (∃ i, c.Caches i 1 7 ∧
        c'.buf = update c.buf i { c.buf i with refcnt := (c.buf i).refcnt + 1 }) ∨
      (∀ j, ¬c.Caches j 1 7) ∧ ∃ i, (c.buf i).refcnt = 0 ∧
        (∀ j, j ≠ i → (c.buf j).refcnt = 0 → DroppedBefore [1, 0] i j) ∧
        c'.buf = update c.buf i
          { c.buf i with dev := 1, blockno := 7, valid := false, refcnt := 1 }) := by
  have hrun : (runSteps access binit (twoDropped 0 1)).isSome := by decide +kernel
  have hdrops : drops (twoDropped 0 1) = [1, 0] := by decide +kernel
  obtain ⟨c, hc⟩ := Option.isSome_iff_exists.1 hrun
  have hlru := bget_lru (twoDropped 0 1) c hc () 1 7
  rw [hdrops] at hlru
  exact ⟨hdrops, c, hc, hlru⟩

end Xv6.Bcache

import Xv6.Cache.Bio
import Xv6.Library.SumElsewhere

/-!
# What the buffer cache stands for

`CacheInv A pins c` relates the cache to the array of blocks it stands for: `A b` is the last
contents that a holder of block `b` left, and `pins` the blocks the log keeps pinned. One lemma for
each operation says how it changes `A` and `pins`, and one (`Frame`) what it leaves to the other
users of the cache.
-/

namespace Xv6

open Function List Option

namespace Cache

/-! ### The references to a buffer -/

/-- The references to buffer `i` that calls in progress, its holder and the log have. -/
def refs (c : Cache) (pins : List ℕ) (i : Fin nbuf) : ℕ :=
  c.waiting.countP (·.2 = i) + c.releasing.countP (·.2 = i) +
    (if (c.buf i).lock.isSome then 1 else 0) +
    if (c.buf i).dev = rootDev then pins.count (c.buf i).blockno else 0

/-! ### The invariant -/

/-- What holds of a buffer `x` of a block whose abstract contents are `a` and whose contents on disk
are `d`. Without a holder, and while `bread` is still running, a valid buffer has the abstract
contents, and so has the disk unless the buffer is pinned. A holder that returns the buffer as it is
leaves contents that are on disk or pinned. -/
def BufInv (a d : Block) (pinned : Prop) (x : Buf) : Prop :=
  match x.lock.map Hold.phase with
  | some .dirty => x.valid = true
  | some .clean => x.valid = true ∧ (d = x.data ∨ pinned)
  | _ => (x.valid = true → x.data = a) ∧ (d = a ∨ x.valid = true ∧ pinned)

/-- The cache stands for the array of blocks `A`, with the blocks `pins` pinned by the log. -/
structure CacheInv (A : Disk) (pins : List ℕ) (c : Cache) : Prop where
  /-- A block has one buffer at most. -/
  unique : ∀ {i j b}, c.Caches i b → c.Caches j b → i = j
  /-- A reference count counts the references. -/
  refcnt : ∀ i, (c.buf i).refcnt = c.refs pins i
  /-- Only buffers that were given a block are referenced. -/
  dev : ∀ i, (c.buf i).refcnt ≠ 0 → (c.buf i).dev = rootDev
  /-- A buffer keeps the identity it was asked for under while a call waits for it. -/
  waiting : ∀ w ∈ c.waiting, (c.buf w.2).blockno = w.1.blockno
  /-- And while it is held. -/
  holder : ∀ i h, (c.buf i).lock = some h → (c.buf i).blockno = h.blockno
  /-- Pinned blocks are in memory. -/
  pinned : ∀ b ∈ pins, ∃ i, c.Caches i b
  cached : ∀ i b, c.Caches i b → BufInv (A b) (c.disk b) (b ∈ pins) (c.buf i)
  uncached : ∀ b, (∀ i, ¬ c.Caches i b) → c.disk b = A b

theorem not_caches_binit (d : Disk) (i : Fin nbuf) (b : ℕ) : ¬ (binit d).Caches i b :=
  fun h ↦ absurd h.1 Nat.zero_ne_one

/-- An empty cache stands for the disk. -/
theorem cacheInv_binit (d : Disk) : CacheInv d [] (binit d) where
  unique h := absurd h (not_caches_binit d _ _)
  refcnt _ := rfl
  dev _ h := absurd rfl h
  waiting _ h := absurd h not_mem_nil
  holder _ _ h := by cases h
  pinned _ h := absurd h not_mem_nil
  cached i b h := absurd h (not_caches_binit d i b)
  uncached _ _ := rfl

namespace CacheInv

variable {A A' : Disk} {pins pins' : List ℕ} {c c' : Cache} {u : Use} {i : Fin nbuf}

theorem caches_of_lock (hc : CacheInv A pins c) {h : Hold} (hl : (c.buf i).lock = some h) :
    c.Caches i h.blockno := by
  refine ⟨hc.dev i ?_, hc.holder i h hl⟩
  rw [hc.refcnt i, refs, hl]
  simp

/-- A holder has the buffer of its block. -/
theorem caches_of_holds (hc : CacheInv A pins c) (hu : c.Holds u i) : c.Caches i u.blockno := by
  rcases hu with hu | hu
  · exact hc.caches_of_lock hu
  · exact hc.caches_of_lock hu

/-- Only buffer `i` changes, and it keeps its identity: what has to be shown is about `i` and about
its block. -/
theorem of_setBuf (hc : CacheInv A pins c) {x : Buf}
    (hbuf : c'.buf = update c.buf i x)
    (hid : x.dev = (c.buf i).dev ∧ x.blockno = (c.buf i).blockno)
    (hwait : ∀ w ∈ c'.waiting, (c.buf w.2).blockno = w.1.blockno)
    (hlock : ∀ h, x.lock = some h → x.blockno = h.blockno)
    (hcalls : ∀ j, j ≠ i → c'.waiting.countP (·.2 = j) = c.waiting.countP (·.2 = j) ∧
      c'.releasing.countP (·.2 = j) = c.releasing.countP (·.2 = j))
    (hrefs : (c'.buf i).refcnt = c'.refs pins' i)
    (hdev : x.refcnt ≠ 0 → x.dev = rootDev)
    (hpins : ∀ b ∈ pins', ∃ j, c.Caches j b)
    (hrest : ∀ b, ¬ c.Caches i b →
      c'.disk b = c.disk b ∧ A' b = A b ∧ pins'.count b = pins.count b)
    (hi : ∀ b, c.Caches i b → BufInv (A' b) (c'.disk b) (b ∈ pins') x) :
    CacheInv A' pins' c' := by
  have hself : c'.buf i = x := by rw [hbuf, update_self]
  have hother : ∀ j, j ≠ i → c'.buf j = c.buf j := fun j hj ↦ by
    rw [hbuf, update_of_ne hj]
  have hblockno : ∀ j, (c'.buf j).blockno = (c.buf j).blockno := fun j ↦ by
    rcases eq_or_ne j i with rfl | hj
    · rw [hself, hid.2]
    · rw [hother j hj]
  have hcaches : ∀ j b, c'.Caches j b ↔ c.Caches j b := fun j b ↦ by
    rcases eq_or_ne j i with rfl | hj
    · rw [Caches, Caches, hself, hid.1, hid.2]
    · rw [Caches, Caches, hother j hj]
  refine ⟨fun h h' ↦ hc.unique ((hcaches _ _).1 h) ((hcaches _ _).1 h'), fun j ↦ ?_,
    fun j hj ↦ ?_, fun w hw ↦ (hblockno w.2).trans (hwait w hw), fun j h hl ↦ ?_,
    fun b hb ↦ ?_, fun j b hj ↦ ?_, fun b hb ↦ ?_⟩
  · rcases eq_or_ne j i with rfl | hji
    · exact hrefs
    · rw [refs, hother j hji, (hcalls j hji).1, (hcalls j hji).2, hc.refcnt j, refs]
      by_cases hd : (c.buf j).dev = rootDev
      · -- the pins of another buffer's block are as before
        have hib : ¬ c.Caches i (c.buf j).blockno := fun h ↦ hji (hc.unique ⟨hd, rfl⟩ h)
        rw [(hrest _ hib).2.2]
      · rw [if_neg hd, if_neg hd]
  · rcases eq_or_ne j i with rfl | hji
    · rw [hself] at hj ⊢
      exact hdev hj
    · rw [hother j hji] at hj ⊢
      exact hc.dev j hj
  · rcases eq_or_ne j i with rfl | hji
    · rw [hself] at hl ⊢
      exact hlock h hl
    · rw [hother j hji] at hl ⊢
      exact hc.holder j h hl
  · obtain ⟨j, hj⟩ := hpins b hb
    exact ⟨j, (hcaches j b).2 hj⟩
  · rw [hcaches] at hj
    rcases eq_or_ne j i with rfl | hji
    · rw [hself]
      exact hi b hj
    · have hib : ¬ c.Caches i b := fun h ↦ hji (hc.unique hj h)
      obtain ⟨hd, ha, hp⟩ := hrest b hib
      rw [hother j hji, hd, ha, ← count_pos_iff, hp, count_pos_iff]
      exact hc.cached j b hj
  · have hb' : ∀ j, ¬ c.Caches j b := fun j hj ↦ hb j ((hcaches j b).2 hj)
    obtain ⟨hd, ha, -⟩ := hrest b (hb' i)
    rw [hd, ha]
    exact hc.uncached b hb'

/-! ### One lemma for each operation -/

/-- An unreferenced buffer is given the identity of a block that is not cached. -/
theorem recycle (hc : CacheInv A pins c) (hnone : ∀ j, ¬ c.Caches j u.blockno)
    (h0 : (c.buf i).refcnt = 0) :
    CacheInv A pins { c.setBuf i { c.buf i with
        dev := rootDev
        blockno := u.blockno
        valid := false
        refcnt := 1 } with
      waiting := (u, i) :: c.waiting } := by
  have hrefs := (hc.refcnt i).symm.trans h0
  rw [refs] at hrefs
  have hunlocked : (c.buf i).lock = none := by
    by_contra h
    rw [if_pos (by simpa [isSome_iff_ne_none] using h)] at hrefs
    omega
  have hcalls : c.waiting.countP (·.2 = i) = 0 ∧ c.releasing.countP (·.2 = i) = 0 := by omega
  -- the block the buffer had is not pinned, and its contents are on disk
  have hunpinned : ∀ b, c.Caches i b → b ∉ pins := fun b hb hp ↦ by
    have := count_pos_iff.2 hp
    rw [if_pos hb.1, hb.2] at hrefs
    omega
  have hdisk : ∀ b, c.Caches i b → c.disk b = A b := fun b hb ↦ by
    have := hc.cached i b hb
    rw [BufInv, hunlocked] at this
    exact this.2.resolve_right fun h ↦ hunpinned b hb h.2
  have hfresh : u.blockno ∉ pins := fun h ↦ by
    obtain ⟨j, hj⟩ := hc.pinned _ h
    exact hnone j hj
  set c' := { c.setBuf i { c.buf i with
        dev := rootDev
        blockno := u.blockno
        valid := false
        refcnt := 1 } with
      waiting := (u, i) :: c.waiting } with hc'
  have hself : c'.buf i = ⟨rootDev, u.blockno, false, none, 1, (c.buf i).data⟩ := by
    rw [← hunlocked]
    exact update_self ..
  have hother : ∀ j, j ≠ i → c'.buf j = c.buf j := fun j hj ↦ update_of_ne hj _ _
  have hnew : c'.Caches i u.blockno := by rw [Caches, hself]; exact ⟨rfl, rfl⟩
  have hcaches : ∀ j b, c'.Caches j b → j = i ∧ b = u.blockno ∨ j ≠ i ∧ c.Caches j b := by
    intro j b hj
    rcases eq_or_ne j i with rfl | hji
    · rw [Caches, hself] at hj
      exact Or.inl ⟨rfl, hj.2.symm⟩
    · rw [Caches, hother j hji] at hj
      exact Or.inr ⟨hji, hj⟩
  have hold : ∀ j b, j ≠ i → c.Caches j b → c'.Caches j b := fun j b hji hj ↦ by
    rw [Caches, hother j hji]
    exact hj
  refine ⟨fun {j k b} hj hk ↦ ?_, fun j ↦ ?_, fun j hj ↦ ?_, fun w hw ↦ ?_, fun j h hl ↦ ?_,
    fun b hb ↦ ?_, fun j b hj ↦ ?_, fun b hb ↦ ?_⟩
  · rcases hcaches j b hj with ⟨rfl, rfl⟩ | ⟨-, hj'⟩
    · rcases hcaches k _ hk with ⟨rfl, -⟩ | ⟨-, hk'⟩
      · rfl
      · exact absurd hk' (hnone k)
    · rcases hcaches k b hk with ⟨rfl, rfl⟩ | ⟨-, hk'⟩
      · exact absurd hj' (hnone j)
      · exact hc.unique hj' hk'
  · rw [refs, countP_cons_key Prod.snd]
    rcases eq_or_ne j i with rfl | hji
    · rw [hself, hcalls.1, if_pos rfl, count_eq_zero.2 hfresh]
      show 1 = 0 + 1 + c.releasing.countP (·.2 = j) + 0 + 0
      rw [hcalls.2]
    · rw [hother j hji, if_neg hji.symm]
      exact hc.refcnt j
  · rcases eq_or_ne j i with rfl | hji
    · rw [hself]
    · rw [hother j hji] at hj ⊢
      exact hc.dev j hj
  · rcases mem_cons.1 hw with rfl | hw
    · rw [hself]
    · rcases eq_or_ne w.2 i with hwi | hwi
      · have := countP_eq_zero.1 hcalls.1 w hw
        exact absurd hwi (by simpa using this)
      · rw [hother _ hwi]
        exact hc.waiting w hw
  · rcases eq_or_ne j i with rfl | hji
    · rw [hself] at hl
      cases hl
    · rw [hother j hji] at hl ⊢
      exact hc.holder j h hl
  · obtain ⟨j, hj⟩ := hc.pinned b hb
    refine ⟨j, hold j b ?_ hj⟩
    rintro rfl
    exact hunpinned b hj hb
  · rcases hcaches j b hj with ⟨rfl, rfl⟩ | ⟨hji, hj'⟩
    · rw [hself]
      exact ⟨fun h ↦ by simp at h, Or.inl (hc.uncached _ hnone)⟩
    · rw [hother j hji]
      exact hc.cached j b hj'
  · by_cases hib : c.Caches i b
    · exact hdisk b hib
    · refine hc.uncached b fun j hj ↦ ?_
      rcases eq_or_ne j i with rfl | hji
      · exact hib hj
      · exact hb j (hold j b hji hj)

/-- `bget` finds the buffer of the block, or recycles one. -/
theorem bget (hc : CacheInv A pins c) (h : c.bget u i = some c') : CacheInv A pins c' := by
  rw [Cache.bget] at h
  split_ifs at h with hi hmiss
  · obtain rfl := some_inj.1 h
    refine hc.of_setBuf rfl ⟨rfl, rfl⟩ (fun w hw ↦ ?_) (fun h ↦ hc.holder i h) (fun j hj ↦ ?_) ?_
      (fun _ ↦ hi.1) hc.pinned (fun _ _ ↦ ⟨rfl, rfl, rfl⟩) (fun b hb ↦ hc.cached i b hb)
    · rcases mem_cons.1 hw with rfl | hw
      · exact hi.2
      · exact hc.waiting w hw
    · exact ⟨by rw [countP_cons_key Prod.snd, if_neg hj.symm, add_zero], rfl⟩
    · have := hc.refcnt i
      rw [refs] at this ⊢
      rw [countP_cons_key Prod.snd]
      simp only [setBuf, update_self, if_true]
      omega
  · obtain rfl := some_inj.1 h
    exact hc.recycle hmiss.1 hmiss.2

/-- A caller that waits becomes the holder. -/
theorem acquiresleep (hc : CacheInv A pins c) (h : c.acquiresleep u i = some c') :
    CacheInv A pins c' := by
  rw [Cache.acquiresleep, ite_none_right_eq_some, some_inj] at h
  obtain ⟨⟨hw, hl⟩, rfl⟩ := h
  refine hc.of_setBuf rfl ⟨rfl, rfl⟩ (fun w hw ↦ hc.waiting w (mem_of_mem_erase hw)) ?_
    (fun j hj ↦ ?_) ?_ (hc.dev i) hc.pinned (fun _ _ ↦ ⟨rfl, rfl, rfl⟩) (fun b hb ↦ ?_)
  · rintro h ⟨⟩
    exact hc.waiting _ hw
  · have := countP_erase_key Prod.snd hw j
    rw [if_neg hj.symm] at this
    exact ⟨this, rfl⟩
  · have := hc.refcnt i
    have := countP_erase_key Prod.snd hw i
    simp only [refs, setBuf, update_self, hl, isSome_some, isSome_none,
      if_true, Bool.false_eq_true, if_false] at *
    omega
  · have := hc.cached i b hb
    rw [BufInv, hl] at this
    exact this

/-- `bread` returns the abstract contents of the block it was asked for. -/
theorem bread (hc : CacheInv A pins c) (h : c.bread u i = some c') :
    CacheInv A pins c' ∧ (c'.buf i).data = A u.blockno := by
  rw [Cache.bread, ite_none_right_eq_some, some_inj] at h
  obtain ⟨hl, rfl⟩ := h
  have hi := hc.caches_of_lock hl
  have hinv := hc.cached i _ hi
  rw [BufInv, hl] at hinv
  obtain ⟨hvalid, hdisk⟩ := hinv
  have hdata : (if (c.buf i).valid then (c.buf i).data else c.disk (c.buf i).blockno) =
      A u.blockno := by
    cases hv : (c.buf i).valid with
    | true => exact hvalid hv
    | false =>
      rw [hv] at hdisk
      rw [if_neg (by simp), hi.2]
      exact hdisk.resolve_right fun h ↦ by cases h.1
  refine ⟨hc.of_setBuf rfl ⟨rfl, rfl⟩ hc.waiting ?_ (fun _ _ ↦ ⟨rfl, rfl⟩) ?_ (hc.dev i) hc.pinned
    (fun _ _ ↦ ⟨rfl, rfl, rfl⟩) (fun b hb ↦ ?_), ?_⟩
  · rintro h ⟨⟩
    exact hi.2
  · have := hc.refcnt i
    simp only [refs, setBuf, update_self, hl, isSome_some] at *
    omega
  · obtain rfl : b = u.blockno := hb.2.symm.trans hi.2
    refine ⟨rfl, ?_⟩
    simp only [hdata]
    exact hdisk.imp_right And.right
  · simp only [setBuf, update_self]
    exact hdata

/-- A step of the holder that keeps the lock, the reference count and the pins. -/
theorem of_hold (hc : CacheInv A pins c) (hu : c.Holds u i) {v : Block} {ph : HoldPhase}
    {d : Disk} (hd : ∀ b, b ≠ u.blockno → d b = c.disk b)
    (hi : BufInv (A u.blockno) (d u.blockno) (u.blockno ∈ pins)
      { c.buf i with data := v, lock := some ⟨u, ph⟩ }) :
    CacheInv A pins { c.setBuf i { c.buf i with data := v, lock := some ⟨u, ph⟩ } with
      disk := d } := by
  have hcache := hc.caches_of_holds hu
  refine hc.of_setBuf rfl ⟨rfl, rfl⟩ hc.waiting ?_ (fun _ _ ↦ ⟨rfl, rfl⟩) ?_ (hc.dev i) hc.pinned
    (fun b hb ↦ ⟨hd b ?_, rfl, rfl⟩) (fun b hb ↦ ?_)
  · rintro h ⟨⟩
    exact hcache.2
  · have hl : (c.buf i).lock.isSome := by rcases hu with hu | hu <;> rw [hu] <;> rfl
    have := hc.refcnt i
    simp only [refs, setBuf, update_self, hl, isSome_some] at *
    omega
  · rintro rfl
    exact hb hcache
  · obtain rfl : b = u.blockno := hb.2.symm.trans hcache.2
    exact hi

theorem valid_of_holds (hc : CacheInv A pins c) (hu : c.Holds u i) : (c.buf i).valid = true := by
  have := hc.cached i _ (hc.caches_of_holds hu)
  rcases hu with hu | hu
  · rw [BufInv, hu] at this
    exact this.1
  · rw [BufInv, hu] at this
    exact this

/-- What a holder changes does not count before it lets go. -/
theorem modify (hc : CacheInv A pins c) {v : Block} (h : c.modify u i v = some c') :
    CacheInv A pins c' := by
  rw [Cache.modify, ite_none_right_eq_some, some_inj] at h
  obtain ⟨hu, rfl⟩ := h
  exact hc.of_hold hu (fun _ _ ↦ rfl) (hc.valid_of_holds hu)

/-- `bwrite` puts the contents on disk. -/
theorem bwrite (hc : CacheInv A pins c) (h : c.bwrite u i = some c') : CacheInv A pins c' := by
  rw [Cache.bwrite, ite_none_right_eq_some, some_inj] at h
  obtain ⟨hu, rfl⟩ := h
  have hi := hc.caches_of_holds hu
  refine hc.of_hold hu (fun b hb ↦ ?_) ⟨hc.valid_of_holds hu, Or.inl ?_⟩
  · rw [hi.2, update_of_ne hb]
  · rw [hi.2, update_self]

/-- After `bwrite` the holder's data is on disk. -/
theorem bwrite_written (hc : CacheInv A pins c) (h : c.bwrite u i = some c') :
    c'.Holds u i ∧ c'.disk u.blockno = (c'.buf i).data := by
  rw [Cache.bwrite, ite_none_right_eq_some, some_inj] at h
  obtain ⟨hu, rfl⟩ := h
  simp [setBuf, Holds, (hc.caches_of_holds hu).2]

/-- `log_write` pins a block that is new to the transaction. -/
theorem logWrite_pin (hc : CacheInv A pins c) (h : c.logWrite u i true = some c') :
    CacheInv A (pins ++ [u.blockno]) c' := by
  rw [Cache.logWrite, ite_none_right_eq_some, some_inj] at h
  obtain ⟨hu, rfl⟩ := h
  have hi := hc.caches_of_holds hu
  refine hc.of_setBuf rfl ⟨rfl, rfl⟩ hc.waiting ?_ (fun _ _ ↦ ⟨rfl, rfl⟩) ?_ (fun _ ↦ hi.1)
    (fun b hb ↦ ?_) (fun b hb ↦ ⟨rfl, rfl, ?_⟩)
    (fun b hb ↦ ⟨hc.valid_of_holds hu, Or.inr ?_⟩)
  · rintro h ⟨⟩
    exact hi.2
  · have hl : (c.buf i).lock.isSome := by rcases hu with hu | hu <;> rw [hu] <;> rfl
    have := hc.refcnt i
    simp only [refs, setBuf, update_self, hl, isSome_some, hi.1, hi.2, if_true,
      count_append, count_singleton_self] at *
    omega
  · rcases mem_append.1 hb with hb | hb
    · exact hc.pinned b hb
    · rw [mem_singleton.1 hb]
      exact ⟨i, hi⟩
  · have hne : u.blockno ≠ b := by
      rintro rfl
      exact hb hi
    rw [count_append, count_singleton, if_neg (by simpa using hne), add_zero]
  · obtain rfl : b = u.blockno := hb.2.symm.trans hi.2
    exact mem_append_right _ (mem_singleton_self _)

/-- `log_write` absorbs a block that is listed already. -/
theorem logWrite_absorb (hc : CacheInv A pins c) (hold : u.blockno ∈ pins)
    (h : c.logWrite u i false = some c') : CacheInv A pins c' := by
  rw [Cache.logWrite, ite_none_right_eq_some, some_inj] at h
  obtain ⟨hu, rfl⟩ := h
  have hi : BufInv (A u.blockno) (c.disk u.blockno) (u.blockno ∈ pins)
      { c.buf i with lock := some ⟨u, .clean⟩ } := ⟨hc.valid_of_holds hu, Or.inr hold⟩
  exact hc.of_hold hu (fun _ _ ↦ rfl) hi

/-- `bunpin` of a buffer whose contents are on disk. -/
theorem bunpin (hc : CacheInv A (u.blockno :: pins) c) (hdisk : c.disk u.blockno = (c.buf i).data)
    (h : c.bunpin u i = some c') : CacheInv A pins c' := by
  rw [Cache.bunpin, ite_none_right_eq_some, some_inj] at h
  obtain ⟨hu, rfl⟩ := h
  have hi := hc.caches_of_holds hu
  refine hc.of_setBuf rfl ⟨rfl, rfl⟩ hc.waiting (fun h ↦ hc.holder i h) (fun _ _ ↦ ⟨rfl, rfl⟩) ?_
    (fun _ ↦ hi.1) (fun b hb ↦ hc.pinned b (mem_cons_of_mem _ hb))
    (fun b hb ↦ ⟨rfl, rfl, ?_⟩) (fun b hb ↦ ?_)
  · have := hc.refcnt i
    simp only [refs, setBuf, update_self, hi.1, hi.2, if_true, count_cons_self] at *
    omega
  · have hne : u.blockno ≠ b := by
      rintro rfl
      exact hb hi
    rw [count_cons, if_neg (by simpa using hne), add_zero]
  · obtain rfl : b = u.blockno := hb.2.symm.trans hi.2
    rcases hu with hu | hu
    · rw [BufInv, show ({ c.buf i with refcnt := (c.buf i).refcnt - 1 } : Buf).lock = _ from hu]
      exact ⟨hc.valid_of_holds (Or.inl hu), Or.inl hdisk⟩
    · rw [BufInv, show ({ c.buf i with refcnt := (c.buf i).refcnt - 1 } : Buf).lock = _ from hu]
      exact hc.valid_of_holds (Or.inr hu)

/-- A holder leaves the contents of its buffer as the abstract contents of the block. -/
theorem releasesleep (hc : CacheInv A pins c) (h : c.releasesleep u i = some c') :
    CacheInv (update A u.blockno (c.buf i).data) pins c' := by
  rw [Cache.releasesleep, ite_none_right_eq_some, some_inj] at h
  obtain ⟨hl, rfl⟩ := h
  have hi := hc.caches_of_lock hl
  refine hc.of_setBuf rfl ⟨rfl, rfl⟩ hc.waiting (fun h hn ↦ by cases hn) (fun j hj ↦ ?_) ?_
    (hc.dev i) hc.pinned (fun b hb ↦ ⟨rfl, ?_, rfl⟩) (fun b hb ↦ ?_)
  · exact ⟨rfl, by rw [countP_cons_key Prod.snd, if_neg hj.symm, add_zero]⟩
  · have := hc.refcnt i
    simp only [refs, setBuf, update_self, hl, isSome_some, isSome_none,
      countP_cons_key Prod.snd, if_true, Bool.false_eq_true, if_false] at *
    omega
  · refine update_of_ne ?_ _ _
    rintro rfl
    exact hb hi
  · obtain rfl : b = u.blockno := hb.2.symm.trans hi.2
    have := hc.cached i _ hi
    rw [BufInv, hl] at this
    rw [update_self]
    exact ⟨fun _ ↦ rfl, this.2.imp_right fun hp ↦ ⟨this.1, hp⟩⟩

/-- `brelse` gives the reference back. -/
theorem brelse (hc : CacheInv A pins c) (h : c.brelse u i = some c') : CacheInv A pins c' := by
  rw [Cache.brelse, ite_none_right_eq_some, some_inj] at h
  obtain ⟨hr, rfl⟩ := h
  have hcount := countP_erase_key Prod.snd hr i
  rw [if_pos rfl] at hcount
  have hrefs := hc.refcnt i
  refine hc.of_setBuf rfl ⟨rfl, rfl⟩ hc.waiting (fun h ↦ hc.holder i h) (fun j hj ↦ ?_) ?_
    (fun h ↦ hc.dev i fun h0 ↦ h ?_) hc.pinned (fun _ _ ↦ ⟨rfl, rfl, rfl⟩)
    (fun b hb ↦ hc.cached i b hb)
  · have := countP_erase_key Prod.snd hr j
    rw [if_neg hj.symm] at this
    exact ⟨rfl, this⟩
  · simp only [refs, setBuf, update_self] at *
    omega
  · show (c.buf i).refcnt - 1 = 0
    omega

end CacheInv

/-! ### What an operation does to its own buffer -/

section Own

variable {c c' : Cache} {u : Use} {i : Fin nbuf}

theorem bget_own (h : c.bget u i = some c') :
    (c'.buf i).lock = (c.buf i).lock ∧ (c'.buf i).data = (c.buf i).data := by
  rw [bget] at h
  split_ifs at h
  · obtain rfl := some_inj.1 h
    simp [setBuf]
  · obtain rfl := some_inj.1 h
    simp [setBuf]

theorem acquiresleep_own (h : c.acquiresleep u i = some c') :
    (u, i) ∈ c.waiting ∧ (c.buf i).lock = none ∧ (c'.buf i).lock = some ⟨u, .reading⟩ := by
  rw [acquiresleep, ite_none_right_eq_some, some_inj] at h
  obtain ⟨⟨hw, hl⟩, rfl⟩ := h
  simp [setBuf, hw, hl]

theorem bread_own (h : c.bread u i = some c') :
    (c.buf i).lock = some ⟨u, .reading⟩ ∧ (c'.buf i).lock = some ⟨u, .clean⟩ := by
  rw [bread, ite_none_right_eq_some, some_inj] at h
  obtain ⟨hl, rfl⟩ := h
  simp [setBuf, hl]

theorem modify_own {v : Block} (h : c.modify u i v = some c') :
    c.Holds u i ∧ (c'.buf i).lock = some ⟨u, .dirty⟩ ∧ (c'.buf i).data = v := by
  rw [modify, ite_none_right_eq_some, some_inj] at h
  obtain ⟨hu, rfl⟩ := h
  simp [setBuf, hu]

theorem bwrite_own (h : c.bwrite u i = some c') :
    c.Holds u i ∧ (c'.buf i).lock = some ⟨u, .clean⟩ ∧ (c'.buf i).data = (c.buf i).data := by
  rw [bwrite, ite_none_right_eq_some, some_inj] at h
  obtain ⟨hu, rfl⟩ := h
  simp [setBuf, hu]

theorem logWrite_own {pin : Bool} (h : c.logWrite u i pin = some c') :
    c.Holds u i ∧ (c'.buf i).lock = some ⟨u, .clean⟩ := by
  rw [logWrite, ite_none_right_eq_some, some_inj] at h
  obtain ⟨hu, rfl⟩ := h
  simp [setBuf, hu]

theorem bunpin_own (h : c.bunpin u i = some c') :
    c.Holds u i ∧ (c'.buf i).lock = (c.buf i).lock ∧ (c'.buf i).data = (c.buf i).data := by
  rw [bunpin, ite_none_right_eq_some, some_inj] at h
  obtain ⟨hu, rfl⟩ := h
  simp [setBuf, hu]

theorem releasesleep_own (h : c.releasesleep u i = some c') :
    (c.buf i).lock = some ⟨u, .clean⟩ ∧ (c'.buf i).lock = none := by
  rw [releasesleep, ite_none_right_eq_some, some_inj] at h
  obtain ⟨hl, rfl⟩ := h
  simp [setBuf, hl]

theorem brelse_own (h : c.brelse u i = some c') :
    (c'.buf i).lock = (c.buf i).lock ∧ (c'.buf i).data = (c.buf i).data := by
  rw [brelse, ite_none_right_eq_some, some_inj] at h
  obtain ⟨hr, rfl⟩ := h
  simp [setBuf]

theorem brelse_waiting (h : c.brelse u i = some c') : c'.waiting = c.waiting := by
  rw [brelse, ite_none_right_eq_some, some_inj] at h
  obtain ⟨-, rfl⟩ := h
  rfl

end Own

/-! ### What an operation leaves alone -/

/-- A step of the use `u` on buffer `i` keeps all other buffers, the locks of all other uses, the
data of their buffers and the contents of their blocks on disk, and makes no other call wait. -/
structure Frame (u : Use) (i : Fin nbuf) (c c' : Cache) : Prop where
  buf : ∀ j, j ≠ i → c'.buf j = c.buf j
  lock : ∀ j h, h.toUse ≠ u → ((c'.buf j).lock = some h ↔ (c.buf j).lock = some h)
  data : ∀ j h, h.toUse ≠ u → (c.buf j).lock = some h → (c'.buf j).data = (c.buf j).data
  disk : ∀ j h, h.toUse ≠ u → (c.buf j).lock = some h → c'.disk h.blockno = c.disk h.blockno
  waiting : ∀ w ∈ c'.waiting, w.1 = u ∨ w ∈ c.waiting

section Frame

variable {A : Disk} {pins : List ℕ} {c c' : Cache} {u : Use} {i : Fin nbuf}

/-- The step changes buffer `i` only, and if another use holds it neither its data nor the disk. -/
theorem Frame.of_setBuf {x : Buf} (hbuf : c'.buf = update c.buf i x)
    (hlock : ∀ h, h.toUse ≠ u → (x.lock = some h ↔ (c.buf i).lock = some h))
    (hdata : ∀ h, h.toUse ≠ u → (c.buf i).lock = some h → x.data = (c.buf i).data)
    (hdisk : ∀ j h, h.toUse ≠ u → (c.buf j).lock = some h → c'.disk h.blockno = c.disk h.blockno)
    (hwait : ∀ w ∈ c'.waiting, w.1 = u ∨ w ∈ c.waiting) : Frame u i c c' := by
  refine ⟨fun j hj ↦ ?_, fun j h hu ↦ ?_, fun j h hu hl ↦ ?_, hdisk, hwait⟩
  · rw [hbuf, update_of_ne hj]
  · rw [hbuf]
    rcases eq_or_ne j i with rfl | hj
    · rw [update_self]
      exact hlock h hu
    · rw [update_of_ne hj]
  · rw [hbuf]
    rcases eq_or_ne j i with rfl | hj
    · rw [update_self]
      exact hdata h hu hl
    · rw [update_of_ne hj]

/-- The case of a step of the holder. -/
theorem Frame.of_holder {x : Buf} (hbuf : c'.buf = update c.buf i x)
    (hold : ∃ ph, (c.buf i).lock = some ⟨u, ph⟩) (hnew : ∀ h, x.lock = some h → h.toUse = u)
    (hdisk : ∀ j h, h.toUse ≠ u → (c.buf j).lock = some h → c'.disk h.blockno = c.disk h.blockno)
    (hwait : c'.waiting = c.waiting) : Frame u i c c' := by
  obtain ⟨ph, hold⟩ := hold
  have hother : ∀ h : Hold, h.toUse ≠ u → (c.buf i).lock ≠ some h := fun h hu hl ↦ by
    rw [hold, some_inj] at hl
    exact hu (hl ▸ rfl)
  refine Frame.of_setBuf hbuf (fun h hu ↦ ?_) (fun h hu hl ↦ absurd hl (hother h hu)) hdisk
    (fun w hw ↦ Or.inr (hwait ▸ hw))
  exact ⟨fun hl ↦ absurd (hnew h hl) hu, fun hl ↦ absurd hl (hother h hu)⟩

theorem Holds.exists_lock (hu : c.Holds u i) : ∃ ph, (c.buf i).lock = some ⟨u, ph⟩ := by
  rcases hu with hu | hu
  · exact ⟨_, hu⟩
  · exact ⟨_, hu⟩

theorem bget_frame (h : c.bget u i = some c') : Frame u i c c' := by
  have hwait : ∀ w ∈ (u, i) :: c.waiting, w.1 = u ∨ w ∈ c.waiting := fun w hw ↦ by
    rcases mem_cons.1 hw with rfl | hw
    · exact Or.inl rfl
    · exact Or.inr hw
  rw [bget] at h
  split_ifs at h with hi hmiss
  · obtain rfl := some_inj.1 h
    exact Frame.of_setBuf rfl (fun _ _ ↦ Iff.rfl) (fun _ _ _ ↦ rfl) (fun _ _ _ _ ↦ rfl) hwait
  · obtain rfl := some_inj.1 h
    exact Frame.of_setBuf rfl (fun _ _ ↦ Iff.rfl) (fun _ _ _ ↦ rfl) (fun _ _ _ _ ↦ rfl) hwait

theorem acquiresleep_frame (h : c.acquiresleep u i = some c') : Frame u i c c' := by
  rw [acquiresleep, ite_none_right_eq_some, some_inj] at h
  obtain ⟨⟨hw, hl⟩, rfl⟩ := h
  refine Frame.of_setBuf rfl (fun h hu ↦ ?_) (fun h hu hh ↦ ?_) (fun _ _ _ _ ↦ rfl)
    (fun w hw ↦ Or.inr (mem_of_mem_erase hw))
  · rw [hl]
    constructor
    · rintro ⟨⟩
      exact absurd rfl hu
    · rintro ⟨⟩
  · rfl

theorem bread_frame (h : c.bread u i = some c') : Frame u i c c' := by
  rw [bread, ite_none_right_eq_some, some_inj] at h
  obtain ⟨hl, rfl⟩ := h
  exact Frame.of_holder rfl ⟨_, hl⟩ (by rintro h ⟨⟩; rfl) (fun _ _ _ _ ↦ rfl) rfl

theorem modify_frame {v : Block} (h : c.modify u i v = some c') : Frame u i c c' := by
  rw [modify, ite_none_right_eq_some, some_inj] at h
  obtain ⟨hu, rfl⟩ := h
  exact Frame.of_holder rfl hu.exists_lock (by rintro h ⟨⟩; rfl) (fun _ _ _ _ ↦ rfl) rfl

theorem bwrite_frame (hc : CacheInv A pins c) (h : c.bwrite u i = some c') : Frame u i c c' := by
  rw [bwrite, ite_none_right_eq_some, some_inj] at h
  obtain ⟨hu, rfl⟩ := h
  refine Frame.of_holder rfl hu.exists_lock (by rintro h ⟨⟩; rfl) (fun j h hne hl ↦ ?_) rfl
  refine update_of_ne (fun hb ↦ hne ?_) _ _
  -- two holders of one block hold one buffer
  have hi := hc.caches_of_holds hu
  have hj := hc.caches_of_lock hl
  rw [hb, hi.2] at hj
  obtain rfl := hc.unique hi hj
  obtain ⟨ph, hu⟩ := hu.exists_lock
  rw [hl, some_inj] at hu
  rw [hu]

theorem logWrite_frame {pin : Bool} (h : c.logWrite u i pin = some c') : Frame u i c c' := by
  rw [logWrite, ite_none_right_eq_some, some_inj] at h
  obtain ⟨hu, rfl⟩ := h
  exact Frame.of_holder rfl hu.exists_lock (by rintro h ⟨⟩; rfl) (fun _ _ _ _ ↦ rfl) rfl

theorem bunpin_frame (h : c.bunpin u i = some c') : Frame u i c c' := by
  rw [bunpin, ite_none_right_eq_some, some_inj] at h
  obtain ⟨hu, rfl⟩ := h
  exact Frame.of_setBuf rfl (fun _ _ ↦ Iff.rfl) (fun _ _ _ ↦ rfl) (fun _ _ _ _ ↦ rfl)
    (fun _ ↦ Or.inr)

theorem releasesleep_frame (h : c.releasesleep u i = some c') : Frame u i c c' := by
  rw [releasesleep, ite_none_right_eq_some, some_inj] at h
  obtain ⟨hl, rfl⟩ := h
  exact Frame.of_holder rfl ⟨_, hl⟩ (by rintro h ⟨⟩) (fun _ _ _ _ ↦ rfl) rfl

theorem brelse_frame (h : c.brelse u i = some c') : Frame u i c c' := by
  rw [brelse, ite_none_right_eq_some, some_inj] at h
  obtain ⟨hr, rfl⟩ := h
  exact Frame.of_setBuf rfl (fun _ _ ↦ Iff.rfl) (fun _ _ _ ↦ rfl) (fun _ _ _ _ ↦ rfl)
    (fun _ ↦ Or.inr)

end Frame

end Cache

end Xv6

import Xv6.Umalloc.FreeList

/-!
# `malloc`

What `malloc` of `user/umalloc.c` does, for any `sbrk`: it ends, and asks `sbrk` at most once
(`Inv.malloc`). The search goes round the list from `freep`, so it finds a block if there is one
that is large enough; else it is back at `freep`, and gets more memory. What `morecore` puts into
the list is large enough, so the second round finds it.
-/

namespace Xv6.Umalloc

open Block Function List

namespace Heap

variable {σ : Type} {sbrk : BitVec 32 → σ → Option ℕ × σ} {h : Heap} {s s' : σ} {n : BitVec 32}
  {G L : List Block} {top total : ℕ}

/-! ### The search -/

/-- The rest of the search from the place where it gets more memory. -/
def grow (sbrk : BitVec 32 → σ → Option ℕ × σ) (n : BitVec 32) (fuel : ℕ) (h : Heap) (s : σ) :
    Option (ℕ × Heap × σ) :=
  match morecore sbrk h s n with
  | none => none
  | some (p, h, s) => if p = 0 then some (0, h, s) else search sbrk n fuel p (h.ptr p) h s

/-- A search along a path to `freep` takes the first block that is large enough, or gets more
memory. -/
theorem search_of_path {prev fuel : ℕ} {R : List ℕ}
    (hpath : (prev :: (R ++ [h.freep])).IsChain fun x y ↦ h.ptr x = y) (hR : h.freep ∉ R)
    (hfuel : R.length < fuel) :
    (∃ p q, p ∈ prev :: R ∧ h.ptr p = q ∧ n ≤ h.size q ∧
      search sbrk n fuel prev (h.ptr prev) h s =
        some ((h.allot n p q).1, (h.allot n p q).2, s)) ∨
    (∀ q ∈ R ++ [h.freep], ¬n ≤ h.size q) ∧
      search sbrk n fuel prev (h.ptr prev) h s = grow sbrk n (fuel - (R.length + 1)) h s := by
  induction R generalizing prev fuel with
  | nil =>
    obtain ⟨fuel, rfl⟩ : ∃ k, fuel = k + 1 := Nat.exists_eq_succ_of_ne_zero hfuel.ne'
    have hprev : h.ptr prev = h.freep := (isChain_cons_cons.1 hpath).1
    rw [hprev, search]
    by_cases hsize : n ≤ h.size h.freep
    · exact .inl ⟨prev, h.freep, mem_cons_self, hprev, hsize, if_pos hsize⟩
    · refine .inr ⟨forall_mem_singleton.2 hsize, ?_⟩
      rw [if_neg hsize, if_pos rfl]
      rfl
  | cons y R ih =>
    obtain ⟨fuel, rfl⟩ : ∃ k, fuel = k + 1 := Nat.exists_eq_succ_of_ne_zero (by omega)
    obtain ⟨hprev, hrest⟩ := isChain_cons_cons.1 hpath
    obtain ⟨hy, hR⟩ := not_or.1 (mem_cons.not.1 hR)
    rw [hprev, search]
    by_cases hsize : n ≤ h.size y
    · exact .inl ⟨prev, y, mem_cons_self, hprev, hsize, if_pos hsize⟩
    · rw [if_neg hsize, if_neg (Ne.symm hy)]
      rcases ih hrest hR (by simpa using hfuel) with ⟨p, q, hp, hfound⟩ | ⟨hall, heq⟩
      · exact .inl ⟨p, q, mem_cons_of_mem prev hp, hfound⟩
      · refine .inr ⟨forall_mem_cons.2 ⟨hsize, hall⟩, ?_⟩
        rw [heq, length_cons, Nat.add_sub_add_right]

/-- What `malloc` returns when it looks for `n` units in the list `G`: a block of the list; or `0`,
as there was none and `sbrk` failed; or the end of the memory that `sbrk` returned. -/
inductive Malloced (sbrk : BitVec 32 → σ → Option ℕ × σ) (h : Heap) (s : σ) (n : BitVec 32)
    (G L : List Block) (top total : ℕ) : ℕ → Heap → σ → Prop
  | fits {a : ℕ} {h' : Heap} {G' : List Block} (hfit : ∃ g ∈ G, n.toNat ≤ g.size)
      (inv : Inv h' G' (⟨a, n.toNat⟩ :: L) top total) :
      Malloced sbrk h s n G L top total (a + headerSize) h' s
  | failed {s' : σ} (hsmall : ∀ g ∈ G, g.size < n.toNat)
      (asked : sbrk (morecoreBytes n) s = (none, s')) : Malloced sbrk h s n G L top total 0 h s'
  | grown {a b : ℕ} {h' : Heap} {s' : σ} {G' : List Block} (hsmall : ∀ g ∈ G, g.size < n.toNat)
      (asked : sbrk (morecoreBytes n) s = (some b, s'))
      (stop : a + 16 * n.toNat = b + 16 * (morecoreUnits n).toNat)
      (inv : Inv h' G' (⟨a, n.toNat⟩ :: L) (b + 16 * (morecoreUnits n).toNat)
        (total + (morecoreUnits n).toNat)) :
      Malloced sbrk h s n G L top total (a + headerSize) h' s'

/-! ### `base` stays where it is -/

theorem base_start : h.start.base = h.base := by
  rw [start]
  split <;> rfl

theorem base_free {ap : ℕ} {h' : Heap} (hfree : h.free ap = some h') : h'.base = h.base := by
  obtain ⟨p, -, rfl⟩ := Option.map_eq_some_iff.1 hfree
  rw [link]
  dsimp only
  split <;> split <;> rfl

theorem base_allot {p q : ℕ} : (h.allot n p q).2.base = h.base := by
  rw [allot]
  split <;> rfl

theorem base_morecore {q : ℕ} {h' : Heap} (hmore : morecore sbrk h s n = some (q, h', s')) :
    h'.base = h.base := by
  rw [morecore] at hmore
  split at hmore
  · obtain ⟨-, heq⟩ := Prod.mk.inj (Option.some.inj hmore)
    rw [(Prod.mk.inj heq).1]
  · obtain ⟨g, hfree, heq⟩ := Option.map_eq_some_iff.1 hmore
    obtain ⟨-, heq⟩ := Prod.mk.inj heq
    rw [← (Prod.mk.inj heq).1, base_free hfree, base_setSize]

theorem base_search {fuel prev p ap : ℕ} {h' : Heap}
    (hsearch : search sbrk n fuel prev p h s = some (ap, h', s')) : h'.base = h.base := by
  induction fuel generalizing prev p h s with
  | zero => exact nomatch hsearch
  | succ fuel ih =>
    rw [search] at hsearch
    split_ifs at hsearch with hsize hfreep
    · have heq : ((h.allot n prev p).1, (h.allot n prev p).2, s) = (ap, h', s') :=
        Option.some.inj hsearch
      obtain ⟨-, heq⟩ := Prod.mk.inj heq
      rw [← (Prod.mk.inj heq).1, base_allot]
    · cases hmore : morecore sbrk h s n with
      | none =>
        rw [hmore] at hsearch
        exact nomatch hsearch
      | some r =>
        obtain ⟨q, g, t⟩ := r
        have hg : g.base = h.base := base_morecore hmore
        rw [hmore] at hsearch
        dsimp only at hsearch
        split_ifs at hsearch
        · obtain ⟨-, heq⟩ := Prod.mk.inj (Option.some.inj hsearch)
          rw [← (Prod.mk.inj heq).1, hg]
        · exact (ih hsearch).trans hg
    · exact ih hsearch

theorem base_malloc {nbytes : BitVec 32} {ap : ℕ} {h' : Heap}
    (hmalloc : malloc sbrk h s nbytes = some (ap, h', s')) : h'.base = h.base :=
  (base_search hmalloc).trans base_start

namespace Inv

/-- A search from `freep` looks at every block of the list. -/
theorem search (hi : Inv h G L top total) (sbrk : BitVec 32 → σ → Option ℕ × σ) (s : σ)
    (n : BitVec 32) {fuel : ℕ} (hfuel : G.length < fuel) :
    (∃ p q, p ∈ G.map addr ∧ h.ptr p = q ∧ n ≤ h.size q ∧
      search sbrk n fuel h.freep (h.ptr h.freep) h s =
        some ((h.allot n p q).1, (h.allot n p q).2, s)) ∨
    (∀ g ∈ G, g.size < n.toNat) ∧
      Heap.search sbrk n fuel h.freep (h.ptr h.freep) h s = grow sbrk n (fuel - G.length) h s := by
  obtain ⟨l₁, l₂, hl⟩ := append_of_mem hi.freep
  have hcirc := hi.circular
  have hnodup := hi.nodup
  have hlen : (l₂ ++ l₁).length + 1 = G.length := by
    have := congrArg List.length hl
    simp only [length_map, length_append, length_cons] at this ⊢
    omega
  rw [hl] at hcirc hnodup
  have hmem : ∀ z, z ∈ h.freep :: (l₂ ++ l₁) ↔ z ∈ G.map addr := by
    intro z
    rw [hl]
    simp only [mem_cons, mem_append]
    tauto
  have hlt : (l₂ ++ l₁).length < fuel := by omega
  rcases search_of_path hcirc.path (Circular.not_mem_of_nodup hnodup) hlt with
    ⟨p, q, hp, hfound⟩ | ⟨hall, heq⟩
  · exact .inl ⟨p, q, (hmem p).1 hp, hfound⟩
  · refine .inr ⟨fun g hg ↦ ?_, hlen ▸ heq⟩
    have hgmem := (hmem g.addr).2 (mem_map_of_mem hg)
    have hsmall := hall g.addr (by simpa [or_comm, or_assoc] using hgmem)
    rw [BitVec.le_def, hi.free_size g hg] at hsmall
    omega

/-! ### More memory -/

/-- The memory that `sbrk` returns, with its header, is one more block in use. -/
theorem obtained (hi : Inv h G L top total) {a : ℕ} {k : BitVec 32} (hk : 0 < k.toNat)
    (htop : top ≤ a) (hbase : h.base + 16 ≤ a) (hbound : total + k.toNat < 2 ^ 32) :
    Inv (h.setSize a k) G (⟨a, k.toNat⟩ :: L) (a + 16 * k.toNat) (total + k.toNat) := by
  have hfree : ∀ g ∈ G, g.stop ≤ a ∧ g.addr ≠ a := by
    intro g hg
    have hstop := stop_eq g
    rcases hi.free_inside g hg with rfl | hg
    · dsimp only at hstop ⊢
      omega
    · omega
  have hlive : ∀ b ∈ L, b.stop ≤ a ∧ b.addr ≠ a := by
    intro b hb
    have hstop := stop_eq b
    have hb' := hi.live_inside b hb
    omega
  exact
    { circular := by rw [ptr_setSize]; exact hi.circular
      freep := hi.freep
      head := hi.head
      base_pos := hi.base_pos
      free_size := fun g hg ↦ by
        rw [size_setSize, update_of_ne (hfree g hg).2]
        exact hi.free_size g hg
      live_size := forall_mem_cons.2 ⟨by rw [size_setSize, update_self], fun b hb ↦ by
        rw [size_setSize, update_of_ne (hlive b hb).2]
        exact hi.live_size b hb⟩
      sorted := hi.sorted
      live_apart := pairwise_cons.2 ⟨fun b hb ↦ .inr (hlive b hb).1, hi.live_apart⟩
      apart := fun g hg ↦ forall_mem_cons.2 ⟨.inl (hfree g hg).1, hi.apart g hg⟩
      free_inside := fun g hg ↦ (hi.free_inside g hg).imp_right fun hg' ↦
        ⟨hg'.1, hg'.2.1, (hfree g hg).1.trans (Nat.le_add_right _ _)⟩
      live_inside := forall_mem_cons.2 ⟨⟨hbase, hk, le_rfl⟩, fun b hb ↦
        ⟨(hi.live_inside b hb).1, (hi.live_inside b hb).2.1,
          (hlive b hb).1.trans (Nat.le_add_right _ _)⟩⟩
      total_eq := by
        have htotal := hi.total_eq
        rw [units_cons]
        dsimp only
        omega
      bound := hbound }

/-- `freep` is not null once the list is made. -/
theorem freep_pos (hi : Inv h G L top total) : 0 < h.freep := by
  obtain ⟨g, hg, heq⟩ := mem_map.1 hi.freep
  rw [← heq]
  exact hi.base_pos.trans_le (hi.base_le hg)

theorem start_eq (hi : Inv h G L top total) : h.start = h := if_neg hi.freep_pos.ne'

theorem morecoreUnits_spec (n : BitVec 32) :
    n.toNat ≤ (morecoreUnits n).toNat ∧ 4096 ≤ (morecoreUnits n).toNat := by
  rw [morecoreUnits]
  split
  case isTrue hlt =>
    have hlt := BitVec.lt_def.1 hlt
    exact ⟨hlt.le, le_rfl⟩
  case isFalse hlt => exact ⟨le_rfl, BitVec.le_def.1 (BitVec.not_lt.1 hlt)⟩

/-- The argument of `sbrk` is the number of bytes of the units, if that fits in an `int`. -/
theorem morecoreBytes_toInt (hn : 16 * n.toNat < 2 ^ 31) :
    (morecoreBytes n).toInt = 16 * (morecoreUnits n).toNat := by
  have hle : 16 * (morecoreUnits n).toNat < 2 ^ 31 := by
    rw [morecoreUnits]
    split
    · decide
    · exact hn
  have hmod : (morecoreBytes n).toNat = 16 * (morecoreUnits n).toNat := by
    show (BitVec.ofNat 32 ((morecoreUnits n).toNat * 16)).toNat = _
    rw [BitVec.toNat_ofNat, Nat.mod_eq_of_lt (by omega), mul_comm]
  rw [BitVec.toInt_eq_toNat_cond, hmod, if_pos (by omega)]
  exact Int.natCast_mul _ _

/-- **`morecore`** puts what it gets into the list, at the end of its last block. -/
theorem morecore (hi : Inv h G L top total) {a : ℕ}
    (hsbrk : sbrk (morecoreBytes n) s = (some a, s')) (htop : top ≤ a) (hbase : h.base + 16 ≤ a)
    (hbound : total + (morecoreUnits n).toNat < 2 ^ 32) :
    ∃ h' G', morecore sbrk h s n = some (h'.freep, h', s') ∧
      Inv h' G' L (a + 16 * (morecoreUnits n).toNat) (total + (morecoreUnits n).toNat) ∧
      ∃ g ∈ G', n.toNat ≤ g.size ∧ g.stop = a + 16 * (morecoreUnits n).toNat ∧
        ∀ g' ∈ G', g' = g ∨ g' ∈ G := by
  obtain ⟨hle, hmin⟩ := morecoreUnits_spec n
  obtain ⟨h', G', hfree, hi', g, hg, ⟨haddr, hstop⟩, hold⟩ :=
    (hi.obtained (by omega) htop hbase hbound).free
  simp only [stop_eq] at haddr hstop
  refine ⟨h', G', ?_, hi', g, hg, by omega, ?_, hold⟩
  · rw [Heap.morecore, hsbrk]
    dsimp only
    rw [hfree, Option.map_some]
  · have hinside := (hi'.free_inside g hg).resolve_left fun heq ↦ by
      rw [heq] at haddr hstop
      dsimp only at haddr hstop
      omega
    rw [stop_eq] at hinside ⊢
    omega

/-! ### `malloc` -/

theorem nunits_toNat (nbytes : BitVec 32) :
    (nunits nbytes).toNat = (nbytes.toNat + 15) / 16 + 1 := by
  have hlt := nbytes.isLt
  show (BitVec.ofNat 32 ((nbytes.toNat + 15) / 16 + 1)).toNat = _
  rw [BitVec.toNat_ofNat]
  exact Nat.mod_eq_of_lt (by omega)

/-- **`malloc` ends**, and returns a block of the list if one is large enough. Else it asks `sbrk`,
once, and returns a block if it gets memory. -/
theorem malloc (hi : Inv h.start G L top total) (nbytes : BitVec 32)
    (hfresh : ∀ a s', sbrk (morecoreBytes (nunits nbytes)) s = (some a, s') →
      top ≤ a ∧ h.start.base + 16 ≤ a ∧ total + (morecoreUnits (nunits nbytes)).toNat < 2 ^ 32) :
    ∃ ap h' s', malloc sbrk h s nbytes = some (ap, h', s') ∧
      Malloced sbrk h.start s (nunits nbytes) G L top total ap h' s' := by
  have hpos : 0 < (nunits nbytes).toNat := by
    rw [nunits_toNat]
    exact Nat.succ_pos _
  have hlen := hi.length_le
  have hlt := hi.bound
  have hhops : hops = 2 ^ 64 := rfl
  rw [Heap.malloc]
  rcases hi.search sbrk s (nunits nbytes) (show G.length < hops by omega) with
    ⟨p, q, hp, hq, hle, hfound⟩ | ⟨hsmall, hgrow⟩
  · obtain ⟨c, hc, hfit, a, G', -, ha, hi'⟩ := hi.allot hpos hp hq hle
    exact ⟨_, _, _, hfound, ha ▸ .fits ⟨c, hc, hfit⟩ hi'⟩
  · rw [hgrow, grow]
    rcases hask : sbrk (morecoreBytes (nunits nbytes)) s with ⟨_ | b, s'⟩
    · refine ⟨0, h.start, s', ?_, .failed hsmall hask⟩
      rw [Heap.morecore, hask]
      rfl
    · obtain ⟨htop, hbase, hbound⟩ := hfresh b s' hask
      obtain ⟨g, G', hmore, hi', x, hx, hlarge, hstop, hold⟩ :=
        hi.morecore hask htop hbase hbound
      have hlen' := hi'.length_le
      rw [hmore]
      dsimp only
      rw [if_neg hi'.freep_pos.ne']
      -- the second round finds the block with the new memory, as the others are too small
      rcases hi'.search sbrk s' (nunits nbytes) (show G'.length < hops - G.length by omega) with
        ⟨p, q, hp, hq, hle, hfound⟩ | ⟨hsmall', -⟩
      · obtain ⟨c, hc, hfit, a, G'', hca, ha, hi''⟩ := hi'.allot hpos hp hq hle
        obtain rfl := (hold c hc).resolve_right fun hc ↦ absurd (hsmall c hc) (not_lt.2 hfit)
        exact ⟨_, _, _, hfound, ha ▸ .grown hsmall hask (hca.trans hstop) hi''⟩
      · exact absurd (hsmall' x hx) (not_lt.2 hlarge)

end Inv

/-- The list that the first call of `malloc` makes has no blocks. -/
theorem inv_start {base : ℕ} (hbase : 0 < base) (mem : ℕ → Header) :
    Inv (start ⟨base, 0, mem⟩) [⟨base, 0⟩] [] (base + headerSize) 0 := by
  have hstart : start ⟨base, 0, mem⟩ =
      setSize { setPtr ⟨base, 0, mem⟩ base base with freep := base } base 0 := rfl
  have hptr : (start ⟨base, 0, mem⟩).ptr base = base := by
    rw [hstart, ptr_setSize]
    show (setPtr ⟨base, 0, mem⟩ base base).ptr base = _
    rw [ptr_setPtr, update_self]
  have hsize : ((start ⟨base, 0, mem⟩).size base).toNat = 0 := by
    rw [hstart, size_setSize, update_self]
    rfl
  exact
    { circular := Circular.cons_iff.2 (isChain_cons_cons.2 ⟨hptr, isChain_singleton _⟩)
      freep := mem_singleton_self base
      head := rfl
      base_pos := hbase
      free_size := forall_mem_singleton.2 hsize
      live_size := nofun
      sorted := pairwise_singleton _ _
      live_apart := List.Pairwise.nil
      apart := fun _ _ ↦ nofun
      free_inside := forall_mem_singleton.2 (.inl rfl)
      live_inside := nofun
      total_eq := rfl
      bound := by decide }

end Heap

end Xv6.Umalloc

import Xv6.Vm.Shape

/-!
# Freeing an address space

`freewalk` gives the pages of a page table back, provided that no leaf is left in it: it panics on
the first one it finds. Its specification (`freewalk_spec`) is by induction on the level; on each
level the loop over the entries keeps what is still to come and counts what has been given back.

Before a page table is made and after it has been freed the pages of an estate are free or in hand:
`Pool` is `Space` without a page table.
-/

namespace Xv6

open Function List Option

variable [Image]

/-- Every page of the estate is free or in hand, and every other page is as in `M`. -/
structure Pool (S : Estate) (M : Memory) (s : Phys) (hand : List ℕ) : Prop where
  stock : ∀ pg, s.freelist.count pg + hand.count pg = S.count pg
  frame : ∀ pg, S.count pg = 0 → s.mem pg = M pg

variable {S : Estate} {M : Memory} {s t u : Phys} {l a c pg pt sz v : ℕ} {hand : List ℕ}

/-! ### `freewalk` -/

/-- What the loop of `freewalk` keeps, `rest` being the entries still to come. -/
structure Freeing (s u : Phys) (l a : ℕ) (rest : List (Fin 512)) : Prop where
  nodup : rest.Nodup
  entries : ∀ j ∈ rest, pte u.mem a j = pte s.mem a j
  trees : ∀ j ∈ rest, ∀ c, subtable s.mem a j = some c → Agrees s.mem u.mem l c
  counts : ∀ pg, u.freelist.count pg +
      (rest.map fun j ↦ (subtable s.mem a j).elim 0 fun c ↦ nodeCount s.mem l c pg).sum =
    s.freelist.count pg + subtableSum s.mem a fun c ↦ nodeCount s.mem l c pg
  frame : ∀ pg, nodeCount s.mem (l + 1) a pg = 0 → u.mem pg = s.mem pg

section

omit [Image]

theorem Freeing.start : Freeing s s l a (List.finRange 512) where
  nodup := nodup_finRange 512
  entries _ _ := rfl
  trees _ _ _ _ _ _ := rfl
  counts pg := by rw [subtableSum, Fin.sum_univ_def]
  frame _ _ := rfl

/-- An entry that does not point to a page is passed over. -/
theorem Freeing.skip {j : Fin 512} {rest : List (Fin 512)} (h : Freeing s u l a (j :: rest))
    (hnone : subtable s.mem a j = none) : Freeing s u l a rest where
  nodup := h.nodup.of_cons
  entries k hk := h.entries k (mem_cons_of_mem j hk)
  trees k hk := h.trees k (mem_cons_of_mem j hk)
  counts pg := by
    rw [← h.counts pg, map_cons, sum_cons, hnone, elim_none, zero_add]
  frame := h.frame

/-- The tree below an entry has been freed and the entry cleared. -/
theorem Freeing.free {j : Fin 512} {rest : List (Fin 512)} (h : Freeing s u l a (j :: rest))
    (hone : ∀ pg, nodeCount s.mem (l + 1) a pg ≤ 1) (hc : subtable s.mem a j = some c)
    (hcount : ∀ pg, t.freelist.count pg = u.freelist.count pg + nodeCount s.mem l c pg)
    (hframe : ∀ pg, nodeCount s.mem l c pg = 0 → t.mem pg = u.mem pg) :
    Freeing s { t with mem := setPte t.mem a j 0 } l a rest := by
  have hroot : nodeCount s.mem l c a = 0 := by
    have hle := nodeCount_child_le (l := l) hc a
    have hle' := hone a
    rw [if_pos rfl] at hle
    omega
  have hj : j ∉ rest := (nodup_cons.1 h.nodup).1
  have hapart : ∀ k ∈ rest, ∀ c', subtable s.mem a k = some c' → ∀ pg,
      nodeCount s.mem l c' pg ≠ 0 → nodeCount s.mem l c pg = 0 ∧ pg ≠ a := by
    intro k hk c' hc' pg hpg
    have hkj : k ≠ j := fun heq ↦ hj (heq ▸ hk)
    have hle := nodeCount_children_le (l := l) hkj hc' hc pg
    have hle' := nodeCount_child_le (l := l) hc' pg
    have hle'' := hone pg
    refine ⟨by omega, fun heq ↦ ?_⟩
    rw [if_pos heq.symm] at hle'
    omega
  refine ⟨h.nodup.of_cons, fun k hk ↦ ?_, fun k hk c' hc' pg hpg ↦ ?_, fun pg ↦ ?_, fun pg hpg ↦ ?_⟩
  · have hkj : k ≠ j := fun heq ↦ hj (heq ▸ hk)
    rw [pte_setPte_of_ne _ _ _ _ hkj, pte, hframe a hroot, ← pte,
      h.entries k (mem_cons_of_mem j hk)]
  · obtain ⟨hzero, hne⟩ := hapart k hk c' hc' pg hpg
    show setPte t.mem a j 0 pg = s.mem pg
    rw [setPte_of_ne _ _ _ _ hne, hframe pg hzero, h.trees k (mem_cons_of_mem j hk) c' hc' pg hpg]
  · have hcounts := h.counts pg
    have hadd := hcount pg
    rw [map_cons, sum_cons, hc, elim_some] at hcounts
    show t.freelist.count pg + _ = _
    omega
  · have hle := nodeCount_child_le (l := l) hc pg
    show setPte t.mem a j 0 pg = s.mem pg
    rw [setPte_of_ne _ _ _ _ fun heq ↦ ?_, hframe pg (by omega), h.frame pg hpg]
    rw [if_pos heq.symm] at hle
    omega

/-- Every entry of a page is on the way to some address, and the rest of the way is free. -/
theorem exists_px (l va : ℕ) (i : Fin 512) : ∃ w, px l w = i ∧ ∀ k < l, px k w = px k va := by
  refine ⟨va % 2 ^ (12 + 9 * l) + i * 2 ^ (12 + 9 * l), Fin.ext ?_, fun k hk ↦ ?_⟩
  · rw [px, Fin.val_ofNat, Nat.add_mul_div_right _ _ (Nat.two_pow_pos _),
      Nat.div_eq_of_lt (Nat.mod_lt _ (Nat.two_pow_pos _)), zero_add]
    exact Nat.mod_eq_of_lt i.2
  · obtain ⟨d, rfl⟩ : ∃ d, l = k + 1 + d := ⟨l - (k + 1), by omega⟩
    have hpow : 2 ^ (12 + 9 * (k + 1 + d)) = 2 ^ (12 + 9 * k) * (512 * 2 ^ (9 * d)) := by
      rw [show 12 + 9 * (k + 1 + d) =
        12 + 9 * k + (9 + 9 * d) by omega, Nat.pow_add, Nat.pow_add 2 9]
    have hdiv : ((i : ℕ) * (2 ^ (12 + 9 * k) * (512 * 2 ^ (9 * d)))) =
        (i * (512 * 2 ^ (9 * d))) * 2 ^ (12 + 9 * k) := by
      rw [mul_comm (2 ^ (12 + 9 * k)) (512 * 2 ^ (9 * d)), ← mul_assoc]
    rw [px_eq_px, hpow, hdiv, Nat.add_mul_div_right _ _ (Nat.two_pow_pos _),
      Nat.mod_mul_right_div_self, Nat.add_mod, Nat.mod_mod_of_dvd _ (Nat.dvd_mul_right 512 _),
      Nat.mul_mod, Nat.mul_mod_right, mul_zero, Nat.zero_mod, add_zero, Nat.mod_mod]

/-- The subtrees of a tree without valid leaves have none. -/
theorem entry_child (hleaf : ∀ va, hasFlag (entry s.mem (l + 1) a va) pteV = false) {i : Fin 512}
    (hc : subtable s.mem a i = some c) (va : ℕ) : hasFlag (entry s.mem l c va) pteV = false := by
  obtain ⟨w, hw, hpath⟩ := exists_px (l + 1) va i
  have hslot : slot s.mem l c w = slot s.mem l c va :=
    slot_congr fun k hk ↦ hpath k (Nat.lt_succ_of_le hk)
  have hentry := hleaf w
  rw [entry_succ (by rw [hw, hc]), entry, hslot] at hentry
  exact hentry

end

/-- One turn of `freewalk` at an entry that is not valid does nothing. -/
theorem freewalk_turn {levels : ℕ} {i : Fin 512} {Q : Unit → Phys → Prop}
    (hV : hasFlag (pte s.mem a i) pteV = false) (hQ : Q () s) :
    wp (do
      let e ← loadPte a i
      if hasFlag e pteV && !hasFlag e (pteR ||| pteW ||| pteX) then
        freewalk levels (pte2pa e)
        storePte a i 0
      else if hasFlag e pteV then
        panic "freewalk: leaf" : KM Unit) Q s := by
  rw [wp_bind, wp_loadPte, hV]
  simpa using hQ

/-- The root of a tree goes back last. -/
theorem kfree_root (ha : IsPage a)
    (hcount : ∀ pg, u.freelist.count pg + (if a = pg then 1 else 0) =
      s.freelist.count pg + nodeCount s.mem l a pg)
    (hframe : ∀ pg, nodeCount s.mem l a pg = 0 → u.mem pg = s.mem pg) :
    wp (kfree a) (fun _ t ↦
      (∀ pg, t.freelist.count pg = s.freelist.count pg + nodeCount s.mem l a pg) ∧
        ∀ pg, nodeCount s.mem l a pg = 0 → t.mem pg = s.mem pg) u := by
  rw [wp_kfree]
  refine ⟨ha, fun pg ↦ ?_, fun pg hpg ↦ ?_⟩
  · rw [← hcount pg, count_cons]
    simp only [beq_iff_eq]
  · refine (update_of_ne (fun heq ↦ ?_) _ _).trans (hframe pg hpg)
    rw [heq] at hpg
    exact absurd hpg (Nat.one_le_iff_ne_zero.1 one_le_nodeCount_self)

/-- **`freewalk`** of a tree without valid leaves gives all its pages back, and touches no other. -/
theorem freewalk_spec (htable : IsTable s.mem l a)
    (hone : ∀ pg, nodeCount s.mem l a pg + s.freelist.count pg ≤ 1)
    (hpage : ∀ pg, nodeCount s.mem l a pg ≠ 0 → IsPage pg)
    (hleaf : ∀ va, hasFlag (entry s.mem l a va) pteV = false) :
    wp (freewalk (l + 1) a)
      (fun _ t ↦ (∀ pg, t.freelist.count pg = s.freelist.count pg + nodeCount s.mem l a pg) ∧
        ∀ pg, nodeCount s.mem l a pg = 0 → t.mem pg = s.mem pg) s := by
  induction l generalizing s a with
  | zero =>
    have ha : IsPage a := hpage a (Nat.one_le_iff_ne_zero.1 one_le_nodeCount_self)
    rw [freewalk, wp_bind]
    refine (wp_forM (I := fun _ t ↦ t = s) (fun i rest t ht ↦ ?_) rfl).mono fun _ t ht ↦ ?_
    · subst ht
      refine freewalk_turn ?_ rfl
      obtain ⟨va, hva, -⟩ := exists_px 0 0 i
      have hentry := hleaf va
      rwa [entry, slot, elim_some, hva] at hentry
    · subst ht
      exact kfree_root ha (fun pg ↦ rfl) fun _ _ ↦ rfl
  | succ l ih =>
    have ha : IsPage a := hpage a (Nat.one_le_iff_ne_zero.1 one_le_nodeCount_self)
    have hnode : ∀ pg, nodeCount s.mem (l + 1) a pg ≤ 1 := fun pg ↦
      (Nat.le_add_right _ _).trans (hone pg)
    rw [freewalk, wp_bind]
    refine (wp_forM (I := fun rest t ↦ Freeing s t l a rest) (fun i rest t ht ↦ ?_)
      Freeing.start).mono fun _ t ht ↦ ?_
    · have hpte := ht.entries i mem_cons_self
      cases hV : hasFlag (pte s.mem a i) pteV with
      | false =>
        refine freewalk_turn (by rw [hpte, hV]) (ht.skip ?_)
        rw [subtable, hV, if_neg Bool.false_ne_true]
      | true =>
        have hc : subtable s.mem a i = some (pte2pa (pte s.mem a i)) := by rw [subtable, if_pos hV]
        have hptr := (htable i _ hc).1
        have hagrees := ht.trees i mem_cons_self _ hc
        rw [wp_bind, wp_loadPte, hpte, hV, hptr]
        simp only [Bool.not_false, Bool.and_self, if_true, wp_bind]
        refine (ih (s := t) (hagrees.isTable (htable i _ hc).2) (fun pg ↦ ?_) (fun pg hpg ↦ ?_)
          fun va ↦ ?_).mono fun _ u hu ↦ ?_
        · have hcounts := ht.counts pg
          have hle := hone pg
          rw [map_cons, sum_cons, hc, elim_some] at hcounts
          rw [nodeCount] at hle
          rw [hagrees.nodeCount_eq]
          omega
        · rw [hagrees.nodeCount_eq] at hpg
          have hle := nodeCount_child_le (l := l) hc pg
          exact hpage pg (by omega)
        · rw [hagrees.entry_eq]
          exact entry_child hleaf hc va
        · rw [wp_storePte]
          refine ht.free hnode hc (fun pg ↦ ?_) fun pg hpg ↦ ?_
          · rw [hu.1, hagrees.nodeCount_eq]
          · exact hu.2 pg (by rwa [hagrees.nodeCount_eq])
    · refine kfree_root ha (fun pg ↦ ?_) ht.frame
      have hcounts := ht.counts pg
      rw [map_nil, sum_nil, add_zero] at hcounts
      rw [hcounts, nodeCount]
      omega

/-! ### Page tables come and go -/

omit [Image] in
/-- Leaves repeat with the number of pages of a tree. -/
theorem leaf_mod (m : Memory) (pt v : ℕ) : leaf m pt v = leaf m pt (v % 2 ^ 27) := by
  have hpath : SamePath 2 (v % 2 ^ 27 * pgsize) (v * pgsize) := by
    rw [samePath_iff, Nat.mul_div_cancel _ (by decide), Nat.mul_div_cancel _ (by decide),
      Nat.mod_mod]
  rw [leaf, leaf, entry, entry, slot_congr hpath]

omit [Image] in
theorem leafCount_eq_zero {m : Memory} (h : ∀ v < userPages, hasFlag (leaf m pt v) pteV = false)
    (pg : ℕ) : leafCount m pt pg = 0 :=
  Finset.sum_eq_zero fun v _ ↦ mapsTo_of_not_valid (h v v.2) pg

/-- `freewalk` of a page table without leaves. -/
theorem Space.freewalk (h : Space S M s pt hand)
    (hleaf : ∀ v < 2 ^ 27, hasFlag (leaf s.mem pt v) pteV = false) :
    wp (Xv6.freewalk 3 pt) (fun _ t ↦ Pool S M t hand) s := by
  have hzero : ∀ pg, leafCount s.mem pt pg = 0 := leafCount_eq_zero fun v hv ↦
    hleaf v (by rw [userPages_eq] at hv; omega)
  refine (freewalk_spec h.table h.tabled.once (fun pg hpg ↦ ?_) fun va ↦ ?_).mono fun _ t ht ↦ ?_
  · have hstock := h.stock pg
    exact S.isPage pg (by omega)
  · rw [entry_eq_leaf, leaf_mod]
    exact hleaf _ (Nat.mod_lt _ (by decide))
  · refine ⟨fun pg ↦ ?_, fun pg hpg ↦ ?_⟩
    · have hstock := h.stock pg
      rw [ht.1, ← hstock, hzero]
      omega
    · have hstock := h.stock pg
      rw [ht.2 pg (by omega), h.frame pg hpg]

/-- `uvmfree` of a page table whose leaves are below the size. -/
theorem Space.uvmfree (h : Space S M s pt hand) (hsz : sz ≤ trapframeVa)
    (hleaf : ∀ v < 2 ^ 27, hasFlag (leaf s.mem pt v) pteV = true → v < pagesOf sz) :
    wp (Xv6.uvmfree pt sz) (fun _ t ↦ Pool S M t hand) s := by
  have hinvalid : ∀ v < 2 ^ 27, ¬v < pagesOf sz → hasFlag (leaf s.mem pt v) pteV = false :=
    fun v hv hge ↦ Bool.eq_false_iff.2 fun hV ↦ hge (hleaf v hv hV)
  rw [Xv6.uvmfree]
  simp only [wp_bind, wp_ite]
  refine ⟨fun _ ↦ ?_, fun h0 ↦ ?_⟩
  · have hrun := h.uvmunmap (a := 0) (n := pagesOf sz) (by rw [zero_add]; exact pagesOf_le hsz)
    rw [zero_mul] at hrun
    refine hrun.mono fun _ t ht ↦ ht.1.freewalk fun v hv ↦ ?_
    by_cases hlt : v < pagesOf sz
    · exact ht.2.inside v (Nat.zero_le v) (by omega)
    · rw [ht.2.outside v hv (by omega)]
      exact hinvalid v hv hlt
  · have hsz0 : sz = 0 := by omega
    have hpages : pagesOf sz = 0 := by rw [hsz0]; decide
    exact h.freewalk fun v hv ↦ hinvalid v hv (by omega)

/-- `kalloc`: nothing, or a page in hand. -/
theorem Pool.kalloc {Q : ℕ → Phys → Prop} (h : Pool S M s hand)
    (hnull : ∀ t : Phys, Pool S M t hand → (∀ n, ¬Ample s (n + 1)) → Q 0 t)
    (hpage : ∀ r, ∀ t : Phys, IsPage r → Pool S M t (r :: hand) →
      (∀ n, Ample s (n + 1) → Ample t n) → Q r t) : wp Xv6.kalloc Q s := by
  refine kalloc_spec (fun t hm hf hno ↦ ?_) fun r rs t hfree hf hm htake ↦ ?_
  · exact hnull t ⟨fun pg ↦ by rw [hf, h.stock], fun pg hpg ↦ by rw [hm, h.frame pg hpg]⟩
      (not_ample hno le_rfl)
  · have hstock : ∀ pg, t.freelist.count pg + (r :: hand).count pg = S.count pg := fun pg ↦ by
      rw [← h.stock pg, hfree, hf, count_cons, count_cons]
      omega
    have hr := hstock r
    rw [count_cons_self] at hr
    refine hpage r t (S.isPage r (by omega)) ⟨hstock, fun pg hpg ↦ ?_⟩ fun _ ↦
      htake.ample le_rfl
    have hne : pg ≠ r := by
      rintro rfl
      omega
    rw [hm, update_of_ne hne, h.frame pg hpg]

/-- `kfree` of a page in hand. -/
theorem Pool.kfree {r : ℕ} (h : Pool S M s (r :: hand)) :
    wp (Xv6.kfree r) (fun _ t ↦ Pool S M t hand) s := by
  have hr := h.stock r
  rw [count_cons_self] at hr
  rw [wp_kfree]
  refine ⟨S.isPage r (by omega), fun pg ↦ ?_, fun pg hpg ↦ ?_⟩
  · rw [← h.stock pg, count_cons, count_cons]
    omega
  · have hne : pg ≠ r := by
      rintro rfl
      omega
    exact (update_of_ne hne _ _).trans (h.frame pg hpg)

/-- `uvmcreate`: an empty page table, or nothing. -/
theorem Pool.uvmcreate {Q : ℕ → Phys → Prop} (h : Pool S M s hand)
    (hnull : ∀ t : Phys, Pool S M t hand → (∀ n, ¬Ample s (n + 1)) → Q 0 t)
    (hpage : ∀ r, ∀ t : Phys, IsPage r → Space S M t r hand → (∀ v, leaf t.mem r v = 0) →
      (∀ n, Ample s (n + 1) → Ample t n) → Q r t) :
    wp Xv6.uvmcreate Q s := by
  rw [Xv6.uvmcreate, wp_bind]
  refine h.kalloc (fun t ht hno ↦ ?_) fun r t hr ht hample ↦ ?_
  · rw [if_pos rfl, wp_pure]
    exact hnull t ht hno
  · have hzeros : update t.mem r (filled 0) r = filled 0 := update_self _ _ _
    have hleaf : ∀ v, leaf (update t.mem r (filled 0)) r v = 0 := fun v ↦
      entry_of_zeros hzeros 2 _
    rw [if_neg hr.pos.ne', wp_bind, wp_memset, wp_pure]
    refine hpage r _ hr ⟨isTable_of_zeros hzeros 2, fun pg ↦ ?_, fun pg hpg ↦ ?_⟩ hleaf hample
    · have hstock := ht.stock pg
      simp only [count_cons, beq_iff_eq] at hstock
      rw [nodeCount_of_zeros hzeros, leafCount_eq_zero fun v _ ↦ by rw [hleaf, hasFlag_zero]]
      dsimp only
      omega
    · have hne : pg ≠ r := by
        rintro rfl
        have hstock := ht.stock pg
        rw [count_cons_self] at hstock
        omega
      rw [← ht.frame pg hpg]
      exact update_of_ne hne _ _

end Xv6

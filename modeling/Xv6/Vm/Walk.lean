import Xv6.Vm.Table

/-!
# Walking a page table

The specification of `walk`. Without `alloc` it reads: it returns the slot of the address and
changes nothing (`wp_walk`). With `alloc` it may take pages from the free list and hang them into
the tree, and it may stop half way when there are none left. What it never does is collected in
`Extends`: the entries stay, page-table pages and free pages are the same pages as before, and pages
that were neither are not touched. A page-table page that was hung in before memory ran out stays in
the tree; it is counted there.
-/

namespace Xv6

open Function Option

variable [Image] {s t u : Phys} {l a c pg va : ℕ} {i : Fin 512}

/-- A page table and the free list, ready for an operation on the table: the tree is well formed,
its pages and the free pages are all different, and the free pages are pages. -/
structure Tabled (s : Phys) (l a : ℕ) : Prop where
  table : IsTable s.mem l a
  once : ∀ pg, nodeCount s.mem l a pg + s.freelist.count pg ≤ 1
  free : ∀ pg ∈ s.freelist, IsPage pg

/-- From `s` to `t` page-table pages have been added to the tree below `a`, all from the free list,
and nothing else has happened. -/
structure Extends (s t : Phys) (l a : ℕ) : Prop where
  table : IsTable t.mem l a
  conserves : ∀ pg, nodeCount t.mem l a pg + t.freelist.count pg =
    nodeCount s.mem l a pg + s.freelist.count pg
  entries : ∀ va, entry t.mem l a va = entry s.mem l a va
  frame : ∀ pg, nodeCount s.mem l a pg = 0 → s.freelist.count pg = 0 → t.mem pg = s.mem pg
  suffix : t.freelist <:+ s.freelist

namespace Tabled

/-- A subtree is a page table. -/
theorem child (h : Tabled s (l + 1) a) (hc : subtable s.mem a i = some c) : Tabled s l c where
  table := (h.table i c hc).2
  once pg := by
    have hle := nodeCount_child_le (l := l) hc pg
    have honce := h.once pg
    omega
  free := h.free

/-- The root of a tree is not a page of a subtree, and not free. -/
theorem root_apart (h : Tabled s (l + 1) a) (hc : subtable s.mem a i = some c) :
    nodeCount s.mem l c a = 0 ∧ s.freelist.count a = 0 := by
  have hle := nodeCount_child_le (l := l) hc a
  have honce := h.once a
  rw [if_pos rfl] at hle
  omega

/-- Different subtrees have no page in common. -/
theorem children_apart (h : Tabled s (l + 1) a) {c' : ℕ} {j : Fin 512} (hij : j ≠ i)
    (hi : subtable s.mem a i = some c) (hj : subtable s.mem a j = some c')
    (hpg : nodeCount s.mem l c' pg ≠ 0) :
    nodeCount s.mem l c pg = 0 ∧ s.freelist.count pg = 0 := by
  have hle := nodeCount_children_le (l := l) hij hj hi pg
  have honce := h.once pg
  omega

end Tabled

namespace Extends

omit [Image] in
theorem of_eq (h : IsTable s.mem l a) (hm : t.mem = s.mem) (hf : t.freelist = s.freelist) :
    Extends s t l a where
  table := by rwa [hm]
  conserves pg := by rw [hm, hf]
  entries va := by rw [hm]
  frame pg _ _ := by rw [hm]
  suffix := by rw [hf]

omit [Image] in
theorem trans (h : Extends s t l a) (h' : Extends t u l a) : Extends s u l a where
  table := h'.table
  conserves pg := (h'.conserves pg).trans (h.conserves pg)
  entries va := (h'.entries va).trans (h.entries va)
  frame pg hn hf := by
    have hc := h.conserves pg
    rw [h'.frame pg (by omega) (by omega), h.frame pg hn hf]
  suffix := h'.suffix.trans h.suffix

theorem tabled (h : Extends s t l a) (hs : Tabled s l a) : Tabled t l a where
  table := h.table
  once pg := (h.conserves pg).le.trans (hs.once pg)
  free pg hpg := hs.free pg (h.suffix.subset hpg)

/-- The root and the other subtrees are elsewhere. -/
theorem agreesBut (hs : Tabled s (l + 1) a) (hc : subtable s.mem a i = some c)
    (h : Extends s t l c) : AgreesBut s.mem t.mem l a i ∧ subtable t.mem a i = some c := by
  have hroot : t.mem a = s.mem a := h.frame a (hs.root_apart hc).1 (hs.root_apart hc).2
  have hpte : ∀ j, pte t.mem a j = pte s.mem a j := fun j ↦ by rw [pte, pte, hroot]
  refine ⟨⟨fun j _ ↦ hpte j, fun j hj c' hc' pg hpg ↦ ?_⟩, by rw [← hc, subtable, subtable, hpte]⟩
  exact h.frame pg (hs.children_apart hj hc hc' hpg).1 (hs.children_apart hj hc hc' hpg).2

/-- What happens to a subtree happens to the tree. -/
theorem lift (hs : Tabled s (l + 1) a) (hc : subtable s.mem a i = some c) (h : Extends s t l c) :
    Extends s t (l + 1) a := by
  have hroot : t.mem a = s.mem a := h.frame a (hs.root_apart hc).1 (hs.root_apart hc).2
  obtain ⟨hbut, hsub⟩ := h.agreesBut hs hc
  refine ⟨hbut.isTable hs.table fun c' hc' ↦ ?_, fun pg ↦ ?_, fun va ↦ ?_, fun pg hpg hf ↦ ?_,
    h.suffix⟩
  · rw [hsub, some_inj] at hc'
    rw [pte, hroot]
    exact ⟨(hs.table i c hc).1, hc' ▸ h.table⟩
  · have hadd := hbut.nodeCount_add pg
    have hcons := h.conserves pg
    rw [hc, hsub, elim_some, elim_some] at hadd
    omega
  · by_cases hi : px (l + 1) va = i
    · subst hi
      rw [entry_succ hc, entry_succ hsub, h.entries]
    · exact hbut.entry_eq hi
  · have hle := nodeCount_child_le (l := l) hc pg
    exact h.frame pg (by omega) hf

/-- A page of the free list is not the root. -/
theorem head_ne_root {r : ℕ} {rs : List ℕ} (hs : Tabled s (l + 1) a)
    (hfree : s.freelist = r :: rs) : r ≠ a := by
  rintro rfl
  have honce := hs.once r
  have hself := one_le_nodeCount_self (m := s.mem) (l := l + 1) (a := r)
  rw [hfree, List.count_cons_self] at honce
  omega

/-- A page of the free list has been written, and an entry of the root. -/
theorem agreesBut_link {m : Memory} {r : ℕ} {rs : List ℕ} {j : Fin 512} {b : Page} {e : Pte}
    (hs : Tabled s (l + 1) a) (hfree : s.freelist = r :: rs)
    (hm : m = setPte (update s.mem r b) a j e) : AgreesBut s.mem m l a j := by
  have hra := head_ne_root hs hfree
  refine ⟨fun k hk ↦ ?_, fun k _ c' hc' pg hpg ↦ ?_⟩
  · rw [hm, pte_setPte_of_ne _ _ _ _ hk, pte, update_of_ne hra.symm, pte]
  · have hle := nodeCount_child_le (l := l) hc' pg
    have honce := hs.once pg
    have hpr : pg ≠ r := by
      rintro rfl
      rw [hfree, List.count_cons_self] at honce
      omega
    have hpa : pg ≠ a := by
      rintro rfl
      rw [if_pos rfl] at hle
      omega
    rw [hm, setPte_of_ne _ _ _ _ hpa, update_of_ne hpr]

/-- A page of the free list, zeroed, is hung into an empty place of the root. -/
theorem link {r : ℕ} {rs : List ℕ} {j : Fin 512} (hs : Tabled s (l + 1) a)
    (hfree : s.freelist = r :: rs) (hnone : subtable s.mem a j = none) (hf : u.freelist = rs)
    (hm : u.mem = setPte (update s.mem r (filled 0)) a j (pa2pte r ||| pteV)) :
    Extends s u (l + 1) a ∧ subtable u.mem a j = some r ∧ u.mem r = filled 0 := by
  have hr : IsPage r := hs.free r (by rw [hfree]; exact List.mem_cons_self)
  have hcount : ∀ pg, s.freelist.count pg = rs.count pg + if r = pg then 1 else 0 := fun pg ↦ by
    rw [hfree, List.count_cons]
    simp only [beq_iff_eq]
  have hself := one_le_nodeCount_self (m := s.mem) (l := l + 1) (a := a)
  have hra := head_ne_root hs hfree
  have hbut := agreesBut_link hs hfree hm
  have hmr : u.mem r = filled 0 := by
    rw [hm, setPte_of_ne _ _ _ _ hra, update_self]
  have hptej : pte u.mem a j = pa2pte r ||| pteV := by rw [hm, pte_setPte_self]
  have hsubj : subtable u.mem a j = some r := by
    rw [subtable, hptej, pte2pa_pa2pte_or hr.1 (by have := hr.lt; omega) (by decide), hasFlag_or]
    simp [hasFlag]
  refine ⟨⟨hbut.isTable hs.table fun c' hc' ↦ ?_, fun pg ↦ ?_, fun va ↦ ?_, fun pg hpg hfr ↦ ?_,
    ?_⟩, hsubj, hmr⟩
  · rw [hsubj, some_inj] at hc'
    subst hc'
    rw [hptej, hasFlag_or, hasFlag_pa2pte _ (by decide)]
    exact ⟨by decide, isTable_of_zeros hmr l⟩
  · have hadd := hbut.nodeCount_add pg
    rw [hnone, hsubj, elim_none, elim_some, nodeCount_of_zeros hmr] at hadd
    rw [hf, hcount]
    omega
  · by_cases hj : px (l + 1) va = j
    · subst hj
      rw [entry_succ_of_none hnone, entry_succ hsubj, entry_of_zeros hmr]
    · exact hbut.entry_eq hj
  · have hpr : pg ≠ r := by
      rintro rfl
      rw [hcount, if_pos rfl] at hfr
      omega
    have hpa : pg ≠ a := by
      rintro rfl
      omega
    rw [hm, setPte_of_ne _ _ _ _ hpa, update_of_ne hpr]
  · rw [hf, hfree]
    exact List.suffix_cons r rs

end Extends

/-! ### `walk` -/

omit [Image] in
/-- Without `alloc`, `walk` finds the slot and changes nothing. -/
theorem wp_walkFrom {Q : Option (ℕ × Fin 512) → Phys → Prop} :
    wp (walkFrom l a va false) Q s ↔ Q (slot s.mem l a va) s := by
  induction l generalizing a with
  | zero => rw [walkFrom, wp_pure, slot]
  | succ l ih =>
    rw [walkFrom, wp_bind, wp_loadPte, slot, subtable]
    cases hV : hasFlag (pte s.mem a (px (l + 1) va)) pteV with
    | true => simpa using ih
    | false => simp

/-- With `alloc`, the tree is extended, and if a slot is returned it is the slot of `va`. `walk`
fails exactly if the page-table pages that are missing are not available. -/
theorem walkFrom_alloc_spec (hs : Tabled s l a) :
    wp (walkFrom l a va true)
      (fun r t ↦ Extends s t l a ∧ (∀ p, r = some p → slot t.mem l a va = some p) ∧
        (r = none → ¬Avail s (missing s.mem l a va)) ∧
        (r ≠ none → Takes s t (missing s.mem l a va) ∧ Fills s.mem t.mem l a va)) s := by
  induction l generalizing a s with
  | zero =>
    rw [walkFrom, wp_pure, slot]
    exact ⟨.of_eq hs.table rfl rfl, fun _ h ↦ h, (fun h ↦ by cases h), fun _ ↦
      ⟨⟨fun _ ↦ Iff.rfl, id⟩, fun w ↦ (min_eq_left (Nat.zero_le _)).symm⟩⟩
  | succ l ih =>
    rw [walkFrom, wp_bind, wp_loadPte]
    -- going down to an existing page: what happens below it is lifted to `a`
    have down : ∀ {s : Phys} {c : ℕ}, Tabled s (l + 1) a →
        subtable s.mem a (px (l + 1) va) = some c → Tabled s l c →
        wp (walkFrom l c va true) (fun r t ↦ Extends s t (l + 1) a ∧
          (∀ p, r = some p → slot t.mem (l + 1) a va = some p) ∧
          (r = none → ¬Avail s (missing s.mem (l + 1) a va)) ∧
          (r ≠ none → Takes s t (missing s.mem (l + 1) a va) ∧
            Fills s.mem t.mem (l + 1) a va)) s := by
      intro s c hs hc hsc
      refine (ih hsc).mono fun r t h ↦ ?_
      obtain ⟨hext, hslot, hnone, hsome⟩ := h
      obtain ⟨hbut, hsub⟩ := hext.agreesBut hs hc
      rw [missing_succ hc]
      refine ⟨hext.lift hs hc, fun p hp ↦ ?_, hnone, fun hr ↦
        ⟨(hsome hr).1, (hsome hr).2.lift hbut hc hsub⟩⟩
      rw [slot, hsub, bind_some]
      exact hslot p hp
    rw [wp_ite, wp_ite]
    refine ⟨fun hV ↦ ?_, fun hV ↦ ⟨fun h ↦ absurd h (by decide), fun _ ↦ ?_⟩⟩
    · have hc : subtable s.mem a (px (l + 1) va) =
          some (pte2pa (pte s.mem a (px (l + 1) va))) := by rw [subtable, if_pos hV]
      exact down hs hc (hs.child hc)
    · have hnone : subtable s.mem a (px (l + 1) va) = none := by rw [subtable, if_neg hV]
      rw [wp_bind]
      refine kalloc_spec (fun t hm hf hno ↦ ?_) fun r rs t hfree hf hm htake ↦ ?_
      · rw [if_pos rfl, wp_pure, missing_succ_of_none hnone]
        exact ⟨.of_eq hs.table hm hf, fun _ h ↦ absurd h (by simp),
          fun _ h ↦ hno (h.mono (Nat.le_add_left 1 l)), fun h ↦ absurd rfl h⟩
      · have hr : IsPage r := hs.free r (by rw [hfree]; exact List.mem_cons_self)
        rw [if_neg hr.pos.ne', wp_bind, wp_memset, wp_bind, wp_storePte]
        have hm' : setPte (update t.mem r (filled 0)) a (px (l + 1) va)
            (pa2pte r ||| pteV) = setPte (update s.mem r (filled 0)) a (px (l + 1) va)
            (pa2pte r ||| pteV) := by
          rw [hm, update_idem]
        obtain ⟨hext, hsub, hzeros⟩ := Extends.link (u := { t with
          mem := setPte (update t.mem r (filled 0)) a (px (l + 1) va) (pa2pte r ||| pteV) })
          hs hfree hnone hf hm'
        have hbut : AgreesBut s.mem _ l a (px (l + 1) va) := Extends.agreesBut_link hs hfree hm'
        have hu := hext.tabled hs
        have htake' : Takes s { t with
          mem := setPte (update t.mem r (filled 0)) a (px (l + 1) va) (pa2pte r ||| pteV) }
          1 := ⟨htake.avail, htake.fails⟩
        refine (down hu hsub (hu.child hsub)).mono fun q x hx ↦ ?_
        obtain ⟨hext', hslot, hfail, hok⟩ := hx
        rw [missing_succ hsub, missing_of_zeros hzeros] at hfail hok
        rw [missing_succ_of_none hnone]
        refine ⟨hext.trans hext', hslot, fun hq h ↦ hfail hq ((htake'.avail l).1 h), fun hq ↦
          ⟨htake'.trans (hok hq).1, fun w ↦ ?_⟩⟩
        rw [(hok hq).2 w, parting]
        by_cases hpx : px (l + 1) w = px (l + 1) va
        · have hle : parting va w l ≤ l := parting_le
          rw [if_pos hpx, missing_succ (by rw [hpx, hsub]), missing_of_zeros hzeros,
            missing_succ_of_none (by rw [hpx, hnone])]
          omega
        · rw [if_neg hpx, hbut.missing_eq hpx]

end Xv6

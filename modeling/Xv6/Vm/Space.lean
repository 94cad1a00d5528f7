import Xv6.Vm.Leaf

/-!
# One address space and the allocator

The ownership of pages as an invariant of the operations on one page table. The pages that the page
table, its user memory and the free list have between them are an `Estate`; all other pages of the
machine are somebody else's. `Space S M s pt hand` says that in the state `s` every page of `S` is
exactly one of: a page-table page of `pt`, mapped below `TRAPFRAME` at one address, on the free
list, or in the hand of the code (allocated and not yet mapped); and that all pages outside `S`
still are as in the memory `M`. The second half is the frame: as `M` is fixed, specifications
compose without a word about what they leave alone.

Beside the ownership, `SameView` and `Clears` say what happens to the leaves.
-/

namespace Xv6

open Function

variable [Image]

/-- A set of pages, given by how often a page is in it. -/
structure Estate where
  /-- `1` for the pages of the estate, `0` for others. -/
  count : ℕ → ℕ
  le_one : ∀ pg, count pg ≤ 1
  isPage : ∀ pg, count pg ≠ 0 → IsPage pg

/-- Every page of the estate has exactly one owner, and every other page is as in `M`. -/
structure Space (S : Estate) (M : Memory) (s : Phys) (pt : ℕ) (hand : List ℕ) : Prop where
  table : IsTable s.mem 2 pt
  stock : ∀ pg, nodeCount s.mem 2 pt pg + leafCount s.mem pt pg + s.freelist.count pg +
    hand.count pg = S.count pg
  frame : ∀ pg, S.count pg = 0 → s.mem pg = M pg

/-- From `s` to `t` the leaves have stayed, and so have the contents of the user's pages. -/
structure SameView (s t : Phys) (pt : ℕ) : Prop where
  leaf_eq : ∀ v, leaf t.mem pt v = leaf s.mem pt v
  contents : ∀ pg, leafCount s.mem pt pg ≠ 0 → t.mem pg = s.mem pg

/-- From `s` to `t` the leaf of page `v` has become `e`, and the contents of the pages the user had
have stayed. -/
structure Gains (s t : Phys) (pt v : ℕ) (e : Pte) : Prop where
  self : leaf t.mem pt v = e
  other : ∀ w < 2 ^ 27, w ≠ v → leaf t.mem pt w = leaf s.mem pt w
  contents : ∀ pg, leafCount s.mem pt pg ≠ 0 → t.mem pg = s.mem pg

/-- From `s` to `t` the leaves of the pages from `a` up to `b` have become invalid. -/
structure Clears (s t : Phys) (pt a b : ℕ) : Prop where
  inside : ∀ v, a ≤ v → v < b → hasFlag (leaf t.mem pt v) pteV = false
  outside : ∀ v < 2 ^ 27, ¬(a ≤ v ∧ v < b) → leaf t.mem pt v = leaf s.mem pt v

variable {S : Estate} {M : Memory} {s t u : Phys} {pt v va pa r : ℕ} {hand g : List ℕ}
  {e perm : Pte}

omit [Image] in
theorem SameView.refl (h : t.mem = s.mem) : SameView s t pt :=
  ⟨fun v ↦ by rw [h], fun pg _ ↦ by rw [h]⟩

omit [Image] in
theorem SameView.trans (h : SameView s t pt) (h' : SameView t u pt) : SameView s u pt := by
  refine ⟨fun v ↦ (h'.leaf_eq v).trans (h.leaf_eq v), fun pg hpg ↦ ?_⟩
  rw [h'.contents pg (by rwa [leafCount_congr fun v _ ↦ h.leaf_eq v]), h.contents pg hpg]

omit [Image] in
/-- Two neighbouring ranges are cleared one after the other. -/
theorem Clears.append {a b c : ℕ} (hab : a ≤ b) (hbc : b ≤ c) (hc : c ≤ 2 ^ 27)
    (h : Clears s t pt a b) (h' : Clears t u pt b c) : Clears s u pt a c := by
  refine ⟨fun v hle hlt ↦ ?_, fun v hv hout ↦ ?_⟩
  · rcases lt_or_ge v b with hvb | hvb
    · rw [h'.outside v (by omega) (by omega)]
      exact h.inside v hle hvb
    · exact h'.inside v hvb hlt
  · rw [h'.outside v hv (by omega), h.outside v hv (by omega)]

omit [Image] in
theorem Extends.leaf_eq (h : Extends s t 2 pt) (v : ℕ) : leaf t.mem pt v = leaf s.mem pt v :=
  h.entries _

namespace Space

theorem isPage_of_hand (h : Space S M s pt hand) (hr : r ∈ hand) : IsPage r := by
  have hstock := h.stock r
  have hpos := List.count_pos_iff.2 hr
  exact S.isPage r (by omega)

theorem tabled (h : Space S M s pt hand) : Tabled s 2 pt where
  table := h.table
  once pg := by
    have hstock := h.stock pg
    have hle := S.le_one pg
    omega
  free pg hpg := by
    have hstock := h.stock pg
    have hpos := List.count_pos_iff.2 hpg
    exact S.isPage pg (by omega)

/-- A page the user has is a page of the estate, and nothing else. -/
theorem leaf_page (h : Space S M s pt hand) (hv : v < userPages)
    (hV : hasFlag (leaf s.mem pt v) pteV = true) :
    IsPage (pte2pa (leaf s.mem pt v)) ∧ S.count (pte2pa (leaf s.mem pt v)) = 1 ∧
      leafCount s.mem pt (pte2pa (leaf s.mem pt v)) = 1 := by
  have hstock := h.stock (pte2pa (leaf s.mem pt v))
  have hle := S.le_one (pte2pa (leaf s.mem pt v))
  have hone : mapsTo (leaf s.mem pt v) (pte2pa (leaf s.mem pt v)) ≤
    leafCount s.mem pt (pte2pa (leaf s.mem pt v)) := mapsTo_le_leafCount hv
  rw [mapsTo_of_valid hV] at hone
  exact ⟨S.isPage _ (by omega), by omega, by omega⟩

/-- Pages change that are not in the page table: the leaves stay. -/
theorem rewrite (h : Space S M s pt hand)
    (hmem : ∀ pg, t.mem pg ≠ s.mem pg → S.count pg ≠ 0 ∧ nodeCount s.mem 2 pt pg = 0)
    (hfree : ∀ pg, t.freelist.count pg + g.count pg = s.freelist.count pg + hand.count pg) :
    Space S M t pt g ∧ ∀ v, leaf t.mem pt v = leaf s.mem pt v := by
  have hagrees : Agrees s.mem t.mem 2 pt := fun pg hpg ↦
    not_not.1 fun hne ↦ hpg (hmem pg hne).2
  refine ⟨⟨hagrees.isTable h.table, fun pg ↦ ?_, fun pg hpg ↦ ?_⟩, hagrees.leaf_eq⟩
  · have hstock := h.stock pg
    have hmove := hfree pg
    rw [hagrees.nodeCount_eq, leafCount_congr fun v _ ↦ hagrees.leaf_eq v]
    omega
  · rw [← h.frame pg hpg]
    exact not_not.1 fun hne ↦ (hmem pg hne).1 hpg

/-- The leaf of page `v` is set: what it maps and what it mapped change between the table and the
hand. -/
theorem setsLeaf (h : Space S M s pt hand) (hset : SetsLeaf s t pt v e)
    (hhand : ∀ pg, v < userPages →
      mapsTo e pg + g.count pg = mapsTo (leaf s.mem pt v) pg + hand.count pg)
    (hkeep : userPages ≤ v → g = hand) : Space S M t pt g := by
  refine ⟨hset.table, fun pg ↦ ?_, fun pg hpg ↦ ?_⟩
  · have hstock := h.stock pg
    have hcons := hset.conserves pg
    have hother : ∀ w < userPages, w ≠ v → leaf t.mem pt w = leaf s.mem pt w := fun w hw hne ↦
      hset.other w (by rw [userPages_eq] at hw; omega) hne
    rcases lt_or_ge v userPages with hv | hv
    · have hmove := leafCount_add hv hother pg
      have hpg := hhand pg hv
      rw [hset.self] at hmove
      omega
    · rw [hkeep hv, leafCount_congr fun w hw ↦ hother w hw (by omega)]
      omega
  · have hstock := h.stock pg
    rw [hset.frame pg (by omega) (by omega), h.frame pg hpg]

/-! ### Pages in hand -/

/-- The first free page is taken, and written. -/
theorem take_page {rs : List ℕ} {b : Page} (h : Space S M s pt hand)
    (hfree : s.freelist = r :: rs) (hf : t.freelist = rs) (hm : t.mem = update s.mem r b) :
    IsPage r ∧ nodeCount s.mem 2 pt r = 0 ∧ Space S M t pt (r :: hand) ∧ SameView s t pt := by
  have hcount : ∀ pg, s.freelist.count pg = rs.count pg + if r = pg then 1 else 0 := fun pg ↦ by
    rw [hfree, List.count_cons]
    simp only [beq_iff_eq]
  have hstock := h.stock r
  have hle := S.le_one r
  rw [hcount, if_pos rfl] at hstock
  have hmem : ∀ pg, pg ≠ r → t.mem pg = s.mem pg := fun pg hne ↦ by
    rw [hm, update_of_ne hne]
  have ht := h.rewrite (t := t) (g := r :: hand) (fun pg hne ↦ ?_) fun pg ↦ ?_
  · refine ⟨S.isPage r (by omega), by omega, ht.1, ht.2, fun pg hpg ↦ hmem pg ?_⟩
    rintro rfl
    omega
  · obtain rfl : pg = r := not_not.1 fun h' ↦ hne (hmem pg h')
    exact ⟨by omega, by omega⟩
  · rw [hf, hcount, List.count_cons]
    simp only [beq_iff_eq]
    omega

/-- A page in hand can be written. -/
theorem store_hand {b : Page} (h : Space S M s pt (r :: hand)) :
    Space S M { s with mem := update s.mem r b } pt (r :: hand) ∧
      SameView s { s with mem := update s.mem r b } pt := by
  have hstock := h.stock r
  have hle := S.le_one r
  rw [List.count_cons_self] at hstock
  have hmem : ∀ pg, pg ≠ r → update s.mem r b pg = s.mem pg := fun pg hne ↦
    update_of_ne hne _ _
  have ht := h.rewrite (t := { s with mem := update s.mem r b }) (g := r :: hand)
    (fun pg hne ↦ ?_) fun _ ↦ rfl
  · refine ⟨ht.1, ht.2, fun pg hpg ↦ hmem pg ?_⟩
    rintro rfl
    omega
  · obtain rfl : pg = r := not_not.1 fun h' ↦ hne (hmem pg h')
    exact ⟨by omega, by omega⟩

/-- `kfree` of a page in hand. -/
theorem kfree {Q : Unit → Phys → Prop} (h : Space S M s pt (r :: hand))
    (hQ : ∀ t : Phys, Space S M t pt hand → SameView s t pt → Q () t) : wp (Xv6.kfree r) Q s := by
  rw [wp_kfree]
  refine ⟨h.isPage_of_hand List.mem_cons_self, ?_⟩
  obtain ⟨hspace, hview⟩ := h.store_hand (b := filled 1)
  refine hQ _ ?_ ⟨hview.leaf_eq, hview.contents⟩
  refine (hspace.rewrite (t := { s with
    mem := update s.mem r (filled 1), freelist := r :: s.freelist })
    (fun pg hne ↦ absurd rfl hne) fun pg ↦ ?_).1
  show (r :: s.freelist).count pg + hand.count pg = s.freelist.count pg + (r :: hand).count pg
  rw [List.count_cons, List.count_cons]
  omega

/-! ### Mapping -/

theorem of_extends (h : Space S M s pt hand) (hext : Extends s t 2 pt) :
    Space S M t pt hand ∧ SameView s t pt := by
  refine ⟨⟨hext.table, fun pg ↦ ?_, fun pg hpg ↦ ?_⟩, hext.leaf_eq, fun pg hpg ↦ ?_⟩
  · have hstock := h.stock pg
    have hcons := hext.conserves pg
    rw [leafCount_congr fun v _ ↦ hext.leaf_eq v]
    omega
  · have hstock := h.stock pg
    rw [hext.frame pg (by omega) (by omega), h.frame pg hpg]
  · have hstock := h.stock pg
    have hle := S.le_one pg
    exact hext.frame pg (by omega) (by omega)

theorem gains (h : Space S M s pt hand) (hset : SetsLeaf s t pt v e) : Gains s t pt v e := by
  refine ⟨hset.self, hset.other, fun pg hpg ↦ ?_⟩
  have hstock := h.stock pg
  have hle := S.le_one pg
  exact hset.frame pg (by omega) (by omega)

/-- `mappages` of a page in hand at a user address. -/
theorem mappages (h : Space S M s pt (pa :: hand)) (hva : va < trapframeVa)
    (hal : va % pgsize = 0) (hperm : perm.toNat < 1024)
    (hnone : hasFlag (leaf s.mem pt (va / pgsize)) pteV = false) :
    wp (Xv6.mappages pt va pgsize pa perm)
      (fun r t ↦ r = 0 ∧ Space S M t pt hand ∧
          Gains s t pt (va / pgsize) (pa2pte pa ||| perm ||| pteV) ∧ t.mem pa = s.mem pa ∧
          t.freelist ⊆ s.freelist ∧ Takes s t (missing s.mem 2 pt va) ∧ Fills s.mem t.mem 2 pt va ∨
        r = -1 ∧ Space S M t pt (pa :: hand) ∧ SameView s t pt ∧
          ¬Avail s (missing s.mem 2 pt va)) s := by
  have hpa := h.isPage_of_hand List.mem_cons_self
  have hlt : va < 274877898752 := hva
  refine (mappages_spec h.tabled (lt_trans hva (by decide)) hal hnone).mono fun r t hr ↦ ?_
  rcases hr with ⟨hr, hset, htake⟩ | ⟨hr, hext, hno⟩
  · refine .inl ⟨hr, h.setsLeaf hset (fun pg _ ↦ ?_) fun hv ↦ ?_, h.gains hset, ?_,
      hset.suffix.subset, htake⟩
    · rw [mapsTo_pa2pte hpa.1 (lt_trans hpa.lt (by decide)) hperm, mapsTo_of_not_valid hnone,
        List.count_cons]
      simp only [beq_iff_eq]
      omega
    · rw [userPages_eq, pgsize_eq] at hv
      omega
    · have hstock := h.stock pa
      have hle := S.le_one pa
      rw [List.count_cons_self] at hstock
      exact hset.frame pa (by omega) (by omega)
  · exact .inr ⟨hr, (h.of_extends hext).1, (h.of_extends hext).2, hno⟩

/-- `mappages` at the top of the address space, where nothing of the user's is. -/
theorem mappages_top (h : Space S M s pt hand) (hva : va < maxva) (htop : trapframeVa ≤ va)
    (hal : va % pgsize = 0) (hnone : hasFlag (leaf s.mem pt (va / pgsize)) pteV = false) :
    wp (Xv6.mappages pt va pgsize pa perm)
      (fun r t ↦ (r = 0 ∧ Space S M t pt hand ∧
            Gains s t pt (va / pgsize) (pa2pte pa ||| perm ||| pteV) ∨
          r = -1 ∧ Space S M t pt hand ∧ SameView s t pt) ∧
        ∀ n, Ample s (n + 2) → r = 0 ∧ Ample t n) s := by
  have hge : 274877898752 ≤ va := htop
  refine (mappages_spec h.tabled hva hal hnone).mono fun r t hr ↦ ?_
  rcases hr with ⟨hr, hset, htake, -⟩ | ⟨hr, hext, hno⟩
  · refine ⟨.inl ⟨hr, h.setsLeaf hset (fun pg hv ↦ ?_) fun _ ↦ rfl, h.gains hset⟩,
      fun n hn ↦ ⟨hr, htake.ample missing_le hn⟩⟩
    rw [userPages_eq, pgsize_eq] at hv
    omega
  · exact ⟨.inr ⟨hr, h.of_extends hext⟩, fun n hn ↦ absurd hn (not_ample hno missing_le n)⟩

/-! ### Unmapping -/

/-- One turn of `uvmunmap`; it frees the page exactly if it is the user's. -/
theorem uvmunmapTurn (h : Space S M s pt hand) (hva : va < maxva) {doFree : Bool}
    (hfree : doFree = decide (va < trapframeVa)) :
    wp (Xv6.uvmunmapTurn pt va doFree)
      (fun _ t ↦ Space S M t pt hand ∧ Clears s t pt (va / pgsize) (va / pgsize + 1)) s := by
  rw [Xv6.uvmunmapTurn, wp_bind, wp_walk]
  refine ⟨hva, ?_⟩
  have hinvalid : hasFlag (leaf s.mem pt (va / pgsize)) pteV = false →
      Clears s s pt (va / pgsize) (va / pgsize + 1) := fun hV ↦
    ⟨fun v hle hlt ↦ by rwa [show v = va / pgsize by omega], fun _ _ _ ↦ rfl⟩
  cases hp : slot s.mem 2 pt va with
  | none =>
    rw [wp_pure]
    exact ⟨h, hinvalid (by rw [leaf_of_slot_none hp, hasFlag_zero])⟩
  | some p =>
    obtain ⟨c, i⟩ := p
    have hset := Extends.setsLeaf (e := 0) h.tabled (.of_eq h.table rfl rfl) hva hp
    have hclears : ∀ {t : Phys}, (∀ v, leaf t.mem pt v = leaf (setPte s.mem c i 0) pt v) →
        Clears s t pt (va / pgsize) (va / pgsize + 1) := fun hleaf ↦ by
      refine ⟨fun v hle hlt ↦ ?_, fun v hv hout ↦ (hleaf v).trans (hset.other v hv (by omega))⟩
      rw [hleaf, show v = va / pgsize by omega]
      exact (congrArg (hasFlag · pteV) hset.self).trans (hasFlag_zero pteV)
    rw [wp_bind, wp_loadPte, leaf_of_slot hp]
    cases hV : hasFlag (leaf s.mem pt (va / pgsize)) pteV with
    | false =>
      simp only [Bool.not_false, if_true, wp_pure]
      exact ⟨h, hinvalid hV⟩
    | true =>
      simp only [Bool.not_true, Bool.false_eq_true, if_false]
      rcases lt_or_ge va trapframeVa with hlow | htop
      · -- the page goes to the hand with the leaf, and from there to the free list
        have hv : va / pgsize < userPages := by
          have hlt : va < 274877898752 := hlow
          rw [userPages_eq, pgsize_eq]
          omega
        have hone := h.setsLeaf (g := pte2pa (leaf s.mem pt (va / pgsize)) :: hand) hset
          (fun pg _ ↦ by
            rw [mapsTo_of_not_valid (hasFlag_zero _), mapsTo, hV, List.count_cons]
            simp only [beq_iff_eq, true_and]
            omega)
          fun hge ↦ absurd hv (not_lt.2 hge)
        have hpa := h.leaf_page hv hV
        have hnode := nodeCount_slot_ne_zero hp
        have hne : pte2pa (leaf s.mem pt (va / pgsize)) ≠ c := fun heq ↦ by
          have hstock := h.stock c
          have hle := S.le_one c
          rw [heq] at hpa
          dsimp only at hnode
          omega
        rw [hfree, decide_eq_true hlow]
        simp only [if_true, wp_bind, wp_kfree, wp_storePte]
        refine ⟨hpa.1, ?_⟩
        rw [setPte_update_of_ne _ _ _ _ hne]
        exact (wp_kfree.1 (hone.kfree (Q := fun _ t ↦ Space S M t pt hand ∧
          Clears s t pt (va / pgsize) (va / pgsize + 1))
          fun t ht hview ↦ ⟨ht, hclears hview.leaf_eq⟩)).2
      · rw [hfree, decide_eq_false (not_lt.2 htop)]
        simp only [Bool.false_eq_true, if_false, wp_storePte]
        refine ⟨h.setsLeaf hset (fun pg hv ↦ ?_) fun _ ↦ rfl, hclears fun _ ↦ rfl⟩
        have hge : 274877898752 ≤ va := htop
        rw [userPages_eq, pgsize_eq] at hv
        omega

/-- The loop of `uvmunmap`, from page `a` up to page `b`. -/
theorem uvmunmapFrom {turns a b : ℕ} {doFree : Bool} (h : Space S M s pt hand)
    (hab : a ≤ b) (hturns : b < a + turns) (hb : b ≤ 2 ^ 26)
    (hfree : ∀ v, a ≤ v → v < b → doFree = decide (v * pgsize < trapframeVa)) :
    wp (Xv6.uvmunmapFrom pt (b * pgsize) doFree turns (a * pgsize))
      (fun _ t ↦ Space S M t pt hand ∧ Clears s t pt a b) s := by
  induction turns generalizing a s with
  | zero => omega
  | succ turns ih =>
    rw [Xv6.uvmunmapFrom, wp_ite, wp_bind, wp_pure, Nat.mul_lt_mul_right (by decide)]
    refine ⟨fun hlt ↦ ?_, fun hge ↦ ⟨h, fun v hle hlt ↦ by omega, fun _ _ _ ↦ rfl⟩⟩
    have hva : a * pgsize < maxva := by
      show a * 4096 < 274877906944
      omega
    have hnext : u64 (a * pgsize + pgsize) = (a + 1) * pgsize := by
      show (a * 4096 + 4096) % 2 ^ 64 = (a + 1) * 4096
      omega
    refine (h.uvmunmapTurn hva (hfree a le_rfl hlt)).mono fun _ t ht ↦ ?_
    rw [Nat.mul_div_cancel _ (by decide)] at ht
    rw [hnext]
    refine (ih ht.1 hlt (by omega) fun v hle hlt ↦ hfree v (by omega) hlt).mono fun _ u hu ↦ ?_
    exact ⟨hu.1, ht.2.append (Nat.le_succ a) hlt (by omega) hu.2⟩

/-- `uvmunmap` of the user pages from `a` up to `b`, and their freeing. -/
theorem uvmunmap {a n : ℕ} (h : Space S M s pt hand) (hn : a + n ≤ userPages) :
    wp (Xv6.uvmunmap pt (a * pgsize) n true)
      (fun _ t ↦ Space S M t pt hand ∧ Clears s t pt a (a + n)) s := by
  rw [userPages_eq] at hn
  have hbound : u64 (a * pgsize + n * pgsize) = (a + n) * pgsize := by
    show (a * 4096 + n * 4096) % 2 ^ 64 = (a + n) * 4096
    omega
  rw [Xv6.uvmunmap, if_neg (not_not.2 (Nat.mul_mod_left a pgsize)), hbound]
  refine h.uvmunmapFrom (Nat.le_add_right a n) ?_ (by omega) fun v hle hlt ↦ ?_
  · rw [pageTurns]
    omega
  · refine (decide_eq_true ?_).symm
    show v * 4096 < 274877898752
    omega

/-- `uvmunmap` of one page at the top of the address space, without freeing it. -/
theorem uvmunmap_top {a : ℕ} (h : Space S M s pt hand) (ha : userPages ≤ a) (hlt : a < 2 ^ 26) :
    wp (Xv6.uvmunmap pt (a * pgsize) 1 false)
      (fun _ t ↦ Space S M t pt hand ∧ Clears s t pt a (a + 1)) s := by
  rw [userPages_eq] at ha
  have hbound : u64 (a * pgsize + 1 * pgsize) = (a + 1) * pgsize := by
    show (a * 4096 + 1 * 4096) % 2 ^ 64 = (a + 1) * 4096
    omega
  rw [Xv6.uvmunmap, if_neg (not_not.2 (Nat.mul_mod_left a pgsize)), hbound]
  refine h.uvmunmapFrom (Nat.le_add_right a 1) ?_ (by omega) fun v hle _ ↦ ?_
  · rw [pageTurns]
    omega
  · refine (decide_eq_false ?_).symm
    show ¬v * 4096 < 274877898752
    omega

end Space

end Xv6

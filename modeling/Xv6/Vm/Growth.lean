import Xv6.Vm.Fault
import Xv6.Vm.Mapping

/-!
# Growing and copying an address space

`uvmalloc` and `uvmcopy` give memory to pages one after the other, and take it all back if there is
none for one of them. What they have given so far is a `View`: `Gives s t pt U` says that the pages
of `U` have been mapped to pages of the free list with the flags and the bytes that `U` has for
them, and that nothing else has happened to the page table. A turn of either loop adds a page to
`U`, and the undo of both leads back to the translations of the start.

Where a page is given, the exact demand for memory goes down by what it took (`demand_erase`), so
that `uvmalloc` fails only if the whole demand was not available.
-/

namespace Xv6

open Function Option Finset

/-- From `s` to `t` the pages of `U` have been mapped, to pages that were free. -/
structure Gives (s t : Phys) (pt : ℕ) (U : View) : Prop where
  page : ∀ v, U v ≠ none → mapped t.mem pt v = U v ∧ pte2pa (leaf t.mem pt v) ∈ s.freelist
  unmapped : ∀ v, U v ≠ none → hasFlag (leaf s.mem pt v) pteV = false
  other : ∀ v < 2 ^ 27, U v = none → leaf t.mem pt v = leaf s.mem pt v
  contents : ∀ pg, leafCount s.mem pt pg ≠ 0 → t.mem pg = s.mem pg
  freelist : t.freelist ⊆ s.freelist

/-- The number of pages of the machine's memory. -/
def ramPages : ℕ := (physTop - kernbase) / pgsize

variable {s t u w : Phys} {m m' : Memory} {pt v a b r : ℕ} {perm : Pte} {U : View} {x : Page}

theorem mapped_ne_none : mapped m pt v ≠ none ↔
    v < userPages ∧ hasFlag (leaf m pt v) pteV = true := by
  rw [mapped]
  split_ifs with h
  · exact ⟨fun _ ↦ h, fun _ ↦ some_ne_none _⟩
  · exact ⟨fun h' ↦ absurd rfl h', fun h' ↦ absurd h' h⟩

theorem exists_leaf_of_leafCount {pg : ℕ} (h : leafCount m pt pg ≠ 0) :
    ∃ v < userPages, hasFlag (leaf m pt v) pteV = true ∧ pte2pa (leaf m pt v) = pg := by
  obtain ⟨v, -, hv⟩ := exists_ne_zero_of_sum_ne_zero h
  exact ⟨v, v.2, not_not.1 fun h' ↦ hv (if_neg h')⟩

/-- A page that `mappages` has mapped for the user. -/
theorem mapped_of_leaf (hr : r % pgsize = 0) (hlt : r < 2 ^ 54) (hp : perm.toNat < 1024)
    (hv : v < userPages) (h : leaf m pt v = pa2pte r ||| perm ||| pteV) :
    mapped m pt v = some (perm ||| pteV, m r) ∧ pte2pa (leaf m pt v) = r := by
  have hflags : (perm ||| pteV).toNat < 1024 := by
    rw [BitVec.toNat_or]
    exact Nat.or_lt_two_pow (n := 10) hp (by decide)
  have hV : hasFlag (leaf m pt v) pteV = true := by
    rw [h, hasFlag_or]
    exact Bool.or_true _
  have hpa : pte2pa (leaf m pt v) = r := by
    rw [h, BitVec.or_assoc, pte2pa_pa2pte_or hr hlt hflags]
  refine ⟨?_, hpa⟩
  rw [mapped_of_valid hv hV, hpa, h, BitVec.or_assoc, pteFlags_pa2pte_or hflags]

namespace Gives

theorem refl : Gives s s pt fun _ ↦ none :=
  ⟨fun _ h ↦ absurd rfl h, fun _ h ↦ absurd rfl h, fun _ _ _ ↦ rfl, fun _ _ ↦ rfl,
    List.Subset.refl _⟩

/-- The pages the user had are still there. -/
theorem leafCount_ne_zero (h : Gives s t pt U) {pg : ℕ} (hpg : leafCount s.mem pt pg ≠ 0) :
    leafCount t.mem pt pg ≠ 0 := by
  obtain ⟨v, hv, hV, rfl⟩ := exists_leaf_of_leafCount hpg
  have hU : U v = none := not_not.1 fun h' ↦ Bool.false_ne_true ((h.unmapped v h').symm.trans hV)
  have hleaf := h.other v (by rw [userPages_eq] at hv; omega) hU
  rw [← hleaf] at hV ⊢
  exact Xv6.leafCount_ne_zero hv hV

/-- A turn: the page `v` is given a free page. -/
theorem give (h : Gives s t pt U) (hU : U v = none) (hv : v < userPages) (hr : r % pgsize = 0)
    (hlt : r < 2 ^ 54) (hp : perm.toNat < 1024) (hmem : r ∈ t.freelist)
    (hgain : Gains t u pt v (pa2pte r ||| perm ||| pteV))
    (hnone : hasFlag (leaf t.mem pt v) pteV = false) (hsub : u.freelist ⊆ t.freelist) :
    Gives s u pt (update U v (some (perm ||| pteV, u.mem r))) := by
  have hv27 : v < 2 ^ 27 := by rw [userPages_eq] at hv; omega
  have hself := mapped_of_leaf hr hlt hp hv hgain.self
  refine ⟨fun x hx ↦ ?_, fun x hx ↦ ?_, fun x hx hxU ↦ ?_, fun pg hpg ↦ ?_,
    fun _ hpg ↦ h.freelist (hsub hpg)⟩
  · by_cases hxv : x = v
    · subst hxv
      rw [update_self, hself.2]
      exact ⟨hself.1, h.freelist hmem⟩
    · rw [update_of_ne hxv] at hx ⊢
      obtain ⟨hpage, hfresh⟩ := h.page x hx
      obtain ⟨hlow, hV⟩ := mapped_ne_none.1 (hpage ▸ hx)
      have hleaf := hgain.other x (by rw [userPages_eq] at hlow; omega) hxv
      rw [hleaf]
      refine ⟨?_, hfresh⟩
      rw [← hpage, mapped_of_valid hlow hV, mapped_of_valid hlow (by rw [hleaf, hV]), hleaf,
        hgain.contents _ (Xv6.leafCount_ne_zero hlow hV)]
  · by_cases hxv : x = v
    · subst hxv
      rw [← h.other x hv27 hU]
      exact hnone
    · rw [update_of_ne hxv] at hx
      exact h.unmapped x hx
  · by_cases hxv : x = v
    · subst hxv
      rw [update_self] at hxU
      exact absurd hxU (some_ne_none _)
    · rw [update_of_ne hxv] at hxU
      rw [hgain.other x hx hxv, h.other x hx hxU]
  · rw [hgain.contents pg (h.leafCount_ne_zero hpg), h.contents pg hpg]

/-- What has been given is taken back. -/
theorem undo (h : Gives s t pt U) (hin : ∀ v, U v ≠ none → a ≤ v ∧ v < b)
    (hnone : ∀ v, a ≤ v → v < b → translation s.mem pt v = none) (hview : SameView t u pt)
    (hclear : Clears u w pt a b) (hv : v < 2 ^ 27) :
    translation w.mem pt v = translation s.mem pt v := by
  by_cases hab : a ≤ v ∧ v < b
  · rw [hnone v hab.1 hab.2, translation_eq_none, hclear.inside v hab.1 hab.2]
  · refine translation_congr ?_
    rw [hclear.outside v hv hab, hview.leaf_eq, h.other v hv (not_not.1 fun h' ↦ hab (hin v h'))]

end Gives

theorem mapsTo_of_translation (h : translation m' pt v = translation m pt v) (pg : ℕ) :
    mapsTo (leaf m' pt v) pg = mapsTo (leaf m pt v) pg := by
  rw [translation, translation] at h
  rw [mapsTo, mapsTo]
  split_ifs at h with h' h' <;> simp_all

theorem pgRoundUp_eq_pagesOf (sz : ℕ) : pgRoundUp sz = pagesOf sz * pgsize := by
  rw [pagesOf, pgRoundUp, Nat.mul_div_cancel _ (by decide)]

theorem pagesOf_mono {oldsz newsz : ℕ} (hle : oldsz ≤ newsz) (hsz : newsz ≤ trapframeVa) :
    pagesOf oldsz ≤ pagesOf newsz := by
  rw [pagesOf_eq hsz, pagesOf_eq (hle.trans hsz)]
  omega

variable [Image] {S : Estate} {M : Memory} {hand : List ℕ}

namespace Space

/-- The user's pages are all different. -/
theorem leaf_injective (h : Space S M s pt hand) {v w : ℕ} (hv : mapped s.mem pt v ≠ none)
    (hw : mapped s.mem pt w ≠ none) (heq : pte2pa (leaf s.mem pt v) = pte2pa (leaf s.mem pt w)) :
    v = w := by
  rw [mapped_ne_none] at hv hw
  by_contra hne
  have htwo : mapsTo (leaf s.mem pt v) (pte2pa (leaf s.mem pt v)) +
      mapsTo (leaf s.mem pt w) (pte2pa (leaf s.mem pt v)) ≤
      leafCount s.mem pt (pte2pa (leaf s.mem pt v)) := mapsTo_add_le_leafCount hv.1 hw.1 hne
  have hself := mapsTo_of_valid hw.2
  rw [mapsTo_of_valid hv.2, heq, hself, ← heq] at htwo
  have hone := (h.leaf_page hv.1 hv.2).2.2
  omega

/-- There are not more user pages than pages of memory. -/
theorem card_le (h : Space S M s pt hand) {P : Finset ℕ}
    (hP : ∀ v ∈ P, mapped s.mem pt v ≠ none) : P.card ≤ ramPages := by
  have hpage : ∀ v ∈ P, IsPage (pte2pa (leaf s.mem pt v)) := fun v hv ↦
    (h.leaf_page (mapped_ne_none.1 (hP v hv)).1 (mapped_ne_none.1 (hP v hv)).2).1
  rw [← card_range ramPages]
  refine card_le_card_of_injOn (fun v ↦ (pte2pa (leaf s.mem pt v) - kernbase) / pgsize)
    (fun v hv ↦ ?_) fun v hv w hw heq ↦ ?_
  · obtain ⟨-, -, hlt⟩ := hpage v hv
    rw [physTop_eq] at hlt
    rw [coe_range, Set.mem_Iio]
    show (pte2pa (leaf s.mem pt v) - 2147483648) / 4096 < 32768
    omega
  · refine h.leaf_injective (hP v hv) (hP w hw) ?_
    obtain ⟨hv₁, hv₂, -⟩ := hpage v hv
    obtain ⟨hw₁, hw₂, -⟩ := hpage w hw
    have hend := Image.kernbase_le_kernelEnd
    rw [kernbase_eq] at hend
    rw [pgsize_eq] at hv₁ hw₁
    simp only [kernbase_eq, pgsize_eq] at heq
    omega

/-- Where the translations are as before, no page but page-table pages has left the free list. -/
theorem conserves (h : Space S M s pt hand) (h' : Space S M t pt hand)
    (hmap : ∀ v < 2 ^ 27, translation t.mem pt v = translation s.mem pt v) (pg : ℕ) :
    nodeCount t.mem 2 pt pg + t.freelist.count pg =
      nodeCount s.mem 2 pt pg + s.freelist.count pg := by
  have hleaf : leafCount t.mem pt pg = leafCount s.mem pt pg :=
    sum_congr rfl fun v _ ↦ mapsTo_of_translation (hmap v (by
      have hv := v.2
      have := userPages_eq
      omega)) pg
  have hs := h.stock pg
  have ht := h'.stock pg
  omega

/-- **`uvmdealloc`** unmaps the pages above the new size. -/
theorem uvmdealloc {oldsz newsz : ℕ} (h : Space S M s pt hand) (hle : newsz ≤ oldsz)
    (hsz : oldsz ≤ trapframeVa) :
    wp (Xv6.uvmdealloc pt oldsz newsz) (fun q t ↦ q = newsz ∧ Space S M t pt hand ∧
      Clears s t pt (pagesOf newsz) (pagesOf oldsz)) s := by
  have hpages := pagesOf_mono hle hsz
  have hlow := pagesOf_le hsz
  have hnone : pagesOf oldsz ≤ pagesOf newsz → Clears s s pt (pagesOf newsz) (pagesOf oldsz) :=
    fun hge ↦ ⟨fun v hv hv' ↦ by omega, fun _ _ _ ↦ rfl⟩
  rw [Xv6.uvmdealloc, wp_ite, wp_pure]
  refine ⟨fun hge ↦ ?_, fun hlt ↦ ?_⟩
  · obtain rfl : newsz = oldsz := hle.antisymm hge
    exact ⟨rfl, h, hnone le_rfl⟩
  have hnpages : ofInt64 (toInt32
      ((pagesOf oldsz * pgsize - pagesOf newsz * pgsize) / pgsize : ℕ)) =
      pagesOf oldsz - pagesOf newsz := by
    rw [userPages_eq] at hlow
    rw [← Nat.sub_mul, Nat.mul_div_cancel _ (by decide), toInt32,
      Int.bmod_eq_of_le (by omega) (by omega), ofInt64]
    omega
  rw [pgRoundUp_eq_pagesOf, pgRoundUp_eq_pagesOf]
  split_ifs with hab
  · dsimp only
    rw [hnpages, wp_bind]
    refine (h.uvmunmap (by omega)).mono fun _ t ht ↦ ?_
    rw [Nat.add_sub_cancel' hpages] at ht
    rw [wp_pure]
    exact ⟨rfl, ht⟩
  · rw [Nat.mul_lt_mul_right (by decide), not_lt] at hab
    rw [wp_pure]
    exact ⟨rfl, h, hnone hab⟩

/-- `uvmdealloc` from page `b` down to page `a`. -/
theorem uvmdealloc_pages (h : Space S M s pt hand) (hab : a ≤ b) (hb : b ≤ userPages) :
    wp (Xv6.uvmdealloc pt (b * pgsize) (a * pgsize))
      (fun _ t ↦ Space S M t pt hand ∧ Clears s t pt a b) s := by
  have hpages : ∀ k ≤ b, k * pgsize ≤ trapframeVa ∧ pagesOf (k * pgsize) = k := fun k hk ↦ by
    rw [userPages_eq] at hb
    have hsz : k * pgsize ≤ trapframeVa := show k * 4096 ≤ 274877898752 by omega
    refine ⟨hsz, ?_⟩
    rw [pagesOf_eq hsz, pgsize_eq]
    omega
  have hrun := h.uvmdealloc (Nat.mul_le_mul_right pgsize hab) (hpages b le_rfl).1
  rw [(hpages a hab).2, (hpages b le_rfl).2] at hrun
  exact hrun.mono fun _ _ ht ↦ ht.2

end Space

/-! ### `uvmalloc` -/

/-- Pages of zeros from page `a` up to page `b`. -/
def zeroPages (a b : ℕ) (f : Pte) : View := fun v ↦
  if a ≤ v ∧ v < b then some (f, filled 0) else none

omit [Image] in
theorem zeroPages_succ {f : Pte} (h : a ≤ v) :
    zeroPages a (v + 1) f = update (zeroPages a v f) v (some (f, filled 0)) := by
  funext x
  by_cases hx : x = v
  · rw [hx, update_self]
    exact if_pos ⟨h, Nat.lt_succ_self v⟩
  · rw [update_of_ne hx]
    exact if_congr (by omega) rfl rfl

omit [Image] in
theorem zeroPages_ne_none {f : Pte} (h : zeroPages a b f v ≠ none) : a ≤ v ∧ v < b :=
  not_not.1 fun h' ↦ h (if_neg h')

omit [Image] in
/-- Memory for all pages is memory for the first. -/
theorem avail_missing (hab : v < b) (h : Avail t (demand t.mem pt (Finset.Ico v b))) :
    Avail t (missing t.mem 2 pt (v * pgsize) + 1) := by
  rw [← demand_singleton]
  exact h.mono (demand_mono (singleton_subset_iff.2 (mem_Ico.2 ⟨le_rfl, hab⟩)))

omit [Image] in
/-- When the first page has got its memory, there is memory for the others. -/
theorem avail_rest (hvb : v < b) (hb : b ≤ userPages) (hfills : Fills t.mem u.mem 2 pt (v * pgsize))
    (htake : Takes t u (missing t.mem 2 pt (v * pgsize) + 1))
    (h : Avail t (demand t.mem pt (Finset.Ico v b))) :
    Avail u (demand u.mem pt (Finset.Ico (v + 1) b)) := by
  have herase : (Finset.Ico v b).erase v = Finset.Ico (v + 1) b := by
    ext x
    rw [mem_erase, mem_Ico, mem_Ico]
    omega
  rw [← htake.avail, ← herase, ← demand_erase (fun x hx ↦ ?_) (mem_Ico.2 ⟨le_rfl, hvb⟩) hfills]
  · exact h
  · rw [mem_Ico] at hx
    rw [userPages_eq] at hb
    omega

/-- What `uvmalloc` may return and leave of the pages from `a` up to `b`: all the pages are there,
or, and only if there was not the memory for them, nothing has changed. -/
def Grown (s : Phys) (pt a b newsz : ℕ) (f : Pte) (q : ℕ) (t : Phys) : Prop :=
  q = newsz ∧ Gives s t pt (zeroPages a b f) ∧ (∀ n, Ample s (n + 3 * (b - a)) → Ample t n) ∨
  q = 0 ∧ (∀ v < 2 ^ 27, translation t.mem pt v = translation s.mem pt v) ∧
    (b ≤ userPages → ¬Avail s (demand s.mem pt (Finset.Ico a b))) ∧
    ∀ n, ¬Ample s (n + 3 * (b - a))

/-- The loop of `uvmalloc`, at page `v`. The pages that are to be mapped are below `TRAPFRAME`, or
there is room for all the memory of the machine. -/
theorem Space.uvmallocFrom {turns newsz : ℕ} (ht : Space S M t pt hand)
    (hgives : Gives s t pt (zeroPages a v (pteR ||| pteU ||| perm ||| pteV)))
    (hperm : (pteR ||| pteU ||| perm).toNat < 1024) (hb : ∀ v, v < b ↔ v * pgsize < newsz)
    (hroom : b ≤ userPages ∨ a + ramPages < userPages) (hav : a ≤ v) (hvb : v ≤ b)
    (hnone : ∀ v, a ≤ v → v < b → v < userPages → translation s.mem pt v = none)
    (havail : b ≤ userPages → Avail s (demand s.mem pt (Finset.Ico a b)) →
      Avail t (demand t.mem pt (Finset.Ico v b)))
    (hample : ∀ n, Ample s (n + 3 * (b - a)) → Ample t (n + 3 * (b - v)))
    (hturns : b < v + turns) :
    wp (Xv6.uvmallocFrom pt (a * pgsize) newsz perm turns (v * pgsize))
      (fun q u ↦ Space S M u pt hand ∧
        Grown s pt a b newsz (pteR ||| pteU ||| perm ||| pteV) q u) t := by
  induction turns generalizing t v with
  | zero => omega
  | succ turns ih =>
    rw [Xv6.uvmallocFrom, wp_ite, wp_pure, ← hb]
    refine ⟨fun hlt ↦ ?_, fun hge ↦ ?_⟩
    swap
    · obtain rfl : v = b := by omega
      refine ⟨ht, .inl ⟨rfl, hgives, fun n hn ↦ ?_⟩⟩
      have hn' := hample n hn
      rwa [Nat.sub_self, mul_zero, add_zero] at hn'
    have hv : v < userPages := by
      rcases hroom with hb | ha
      · omega
      · have hcard := ht.card_le (P := Finset.Ico a v) fun w hw ↦ by
          have hw' : zeroPages a v (pteR ||| pteU ||| perm ||| pteV) w ≠ none := by
            rw [zeroPages, if_pos (mem_Ico.1 hw)]
            exact some_ne_none _
          rw [(hgives.page w hw').1]
          exact hw'
        rw [Nat.card_Ico] at hcard
        omega
    have hv26 : v < 2 ^ 26 := by rw [userPages_eq] at hv; omega
    have hU : zeroPages a v (pteR ||| pteU ||| perm ||| pteV) v = none := if_neg (by omega)
    have hfree : hasFlag (leaf t.mem pt v) pteV = false := by
      rw [hgives.other v (by omega) hU]
      exact translation_eq_none.1 (hnone v hav hlt hv)
    have hthree : missing t.mem 2 pt (v * pgsize) + 1 ≤ 3 := Nat.succ_le_succ missing_le
    refine ht.give_page (x := filled 0)
      (fun _ ↦ Xv6.uvmallocFrom pt (a * pgsize) newsz perm turns
        (u64 (v * pgsize + pgsize))) hv hperm
      hfree (fun r u _ hu ↦ ?_) (fun u hu hview hno ↦ ?_)
      fun r u hmem hr hu hgain hzero hsub htake hfills ↦ ?_
    · rwa [wp_bind, wp_memset]
    · -- without memory for this page, what has been given is taken back
      rw [wp_bind]
      refine (hu.uvmdealloc_pages hav hv.le).mono fun _ w hw ↦ ?_
      rw [wp_pure]
      refine ⟨hw.1, .inr ⟨rfl, fun x hx ↦ ?_, fun hb hs ↦ hno (avail_missing hlt (havail hb hs)),
        fun n hn ↦ ?_⟩⟩
      · exact hgives.undo (fun x hx ↦ zeroPages_ne_none hx)
          (fun x hax hxv ↦ hnone x hax (by omega) (by omega)) hview hw.2 hx
      · refine not_ample hno hthree (n + 3 * (b - v - 1)) ((hample n hn).mono ?_)
        omega
    · rw [u64_next_page hv26]
      refine ih hu ?_ (by omega) hlt
        (fun hb hs ↦ avail_rest hlt hb hfills htake (havail hb hs)) (fun n hn ↦ ?_) (by omega)
      · rw [zeroPages_succ hav, ← hzero]
        exact hgives.give hU hv hr.1 (lt_trans hr.lt (by decide)) hperm hmem hgain hfree hsub
      · refine htake.ample hthree ((hample n hn).mono ?_)
        omega

/-- **`uvmalloc`** maps all pages up to the new size, or none. -/
theorem Space.uvmalloc {oldsz newsz : ℕ} (h : Space S M s pt hand)
    (hperm : (pteR ||| pteU ||| perm).toNat < 1024) (hle : oldsz ≤ newsz)
    (hold : oldsz ≤ trapframeVa) (hlt : newsz < 2 ^ 64)
    (hroom : newsz ≤ trapframeVa ∨ pagesOf oldsz + ramPages < userPages)
    (hnone : ∀ v, pagesOf oldsz ≤ v → v * pgsize < newsz → v < userPages →
      translation s.mem pt v = none) :
    wp (Xv6.uvmalloc pt oldsz newsz perm)
      (fun q t ↦ Space S M t pt hand ∧ Grown s pt (pagesOf oldsz) ((newsz + 4095) / 4096) newsz
        (pteR ||| pteU ||| perm ||| pteV) q t) s := by
  rw [Xv6.uvmalloc, if_neg (not_lt.2 hle), pgRoundUp_eq_pagesOf]
  have hempty : zeroPages (pagesOf oldsz) (pagesOf oldsz) (pteR ||| pteU ||| perm ||| pteV) =
      fun _ ↦ none := funext fun v ↦ if_neg (by omega)
  have hb : ∀ v, v < (newsz + 4095) / 4096 ↔ v * pgsize < newsz := fun v ↦ by
    rw [pgsize_eq]
    omega
  refine h.uvmallocFrom (hempty ▸ .refl) hperm hb (hroom.imp_left fun hsz ↦ ?_) le_rfl ?_
    (fun v ha hv ↦ hnone v ha ((hb v).1 hv)) (fun _ ↦ id) (fun _ ↦ id) ?_
  · rw [← pagesOf_eq hsz]
    exact pagesOf_le hsz
  · rw [pagesOf_eq hold]
    omega
  · rw [pageTurns]
    omega

/-! ### `uvmcopy` -/

/-- The pages below page `b` of the page table `old`. -/
def copied (m : Memory) (old b : ℕ) : View := fun v ↦ if v < b then mapped m old v else none

section

variable {old new sz : ℕ}

omit [Image] in
theorem copied_ne_none (h : copied m old b v ≠ none) : 0 ≤ v ∧ v < b :=
  ⟨Nat.zero_le v, not_not.1 fun h' ↦ h (if_neg h')⟩

omit [Image] in
theorem copied_succ : copied m old (v + 1) = update (copied m old v) v (mapped m old v) := by
  funext x
  by_cases hx : x = v
  · rw [hx, update_self]
    exact if_pos (Nat.lt_succ_self v)
  · rw [update_of_ne hx]
    exact if_congr (by omega) rfl rfl

omit [Image] in
/-- A page that is not mapped is not copied. -/
theorem copied_succ_of_not_valid (h : hasFlag (leaf m old v) pteV = false) :
    copied m old (v + 1) = copied m old v := by
  rw [copied_succ, mapped_of_not_valid h]
  exact update_eq_self_iff.2 (if_neg (lt_irrefl v)).symm

omit [Image] in
theorem pteFlags_lt (e : Pte) : (pteFlags e).toNat < 1024 := by
  rw [pteFlags, BitVec.toNat_and]
  exact Nat.and_lt_two_pow (n := 10) _ (by decide)

omit [Image] in
theorem pteFlags_or_pteV {e : Pte} (h : hasFlag e pteV = true) :
    pteFlags e ||| pteV = pteFlags e := by
  have hbit : e &&& pteV = pteV := by
    have hne : e &&& 1#64 ≠ 0#64 := bne_iff_ne.1 h
    have hand : (e &&& 1#64).toNat = e.toNat % 2 := by
      rw [BitVec.toNat_and]
      exact Nat.and_one_is_mod _
    have hpos : (e &&& 1#64).toNat ≠ 0 := fun h0 ↦ hne (BitVec.eq_of_toNat_eq h0)
    refine BitVec.eq_of_toNat_eq ?_
    show (e &&& 1#64).toNat = 1
    omega
  calc pteFlags e ||| pteV = e &&& 0x3FF ||| e &&& pteV := by rw [hbit, pteFlags]
    _ = e &&& (0x3FF ||| pteV) := (BitVec.and_or_distrib_left).symm
    _ = pteFlags e := rfl

/-- The pages of another page table are not in the estate. -/
def Apart (S : Estate) (m : Memory) (old : ℕ) : Prop :=
  ∀ pg, nodeCount m 2 old pg + leafCount m old pg ≠ 0 → S.count pg = 0

/-- What happens in the estate leaves the other page table as it is. -/
theorem Apart.keeps (h : Apart S s.mem old) (hmem : ∀ pg, S.count pg = 0 → t.mem pg = s.mem pg) :
    Agrees s.mem t.mem 2 old ∧ mapped t.mem old = mapped s.mem old := by
  have hagrees : Agrees s.mem t.mem 2 old := fun pg hpg ↦ hmem pg (h pg (by omega))
  refine ⟨hagrees, funext fun v ↦ mapped_congr (hagrees.leaf_eq v) fun hv hV ↦ hmem _ (h _ ?_)⟩
  have hcount := leafCount_ne_zero hv hV
  omega

theorem Apart.unchanged {pt' : ℕ} {hand' : List ℕ} (h : Apart S s.mem old)
    (hs : Space S M s pt hand)
    (ht : Space S M t pt' hand') :
    (∀ v, leaf t.mem old v = leaf s.mem old v) ∧ mapped t.mem old = mapped s.mem old := by
  obtain ⟨hagrees, hmapped⟩ := h.keeps fun pg hpg ↦ by rw [ht.frame pg hpg, hs.frame pg hpg]
  exact ⟨hagrees.leaf_eq, hmapped⟩

/-- The loop of `uvmcopy`, at page `v`. -/
theorem Space.uvmcopyFrom {turns : ℕ} (hs : Space S M s new hand) (ht : Space S M t new hand)
    (hold : Apart S s.mem old) (hgives : Gives s t new (copied s.mem old v))
    (hsz : sz ≤ trapframeVa) (hvb : v ≤ pagesOf sz)
    (hnone : ∀ v < pagesOf sz, translation s.mem new v = none)
    (hturns : pagesOf sz < v + turns) :
    wp (Xv6.uvmcopyFrom old new sz turns (v * pgsize))
      (fun q u ↦ Space S M u new hand ∧ (q = 0 ∧ Gives s u new (copied s.mem old (pagesOf sz)) ∨
        q = -1 ∧ ∀ v < 2 ^ 27, translation u.mem new v = translation s.mem new v)) t := by
  induction turns generalizing t v with
  | zero => omega
  | succ turns ih =>
    have hlow := pagesOf_le hsz
    rw [Xv6.uvmcopyFrom, wp_ite, wp_pure, ← lt_pagesOf hsz]
    refine ⟨fun hlt ↦ ?_, fun hge ↦ ?_⟩
    swap
    · obtain rfl : v = pagesOf sz := by omega
      exact ⟨ht, .inl ⟨rfl, hgives⟩⟩
    have hv : v < userPages := by omega
    have hv26 : v < 2 ^ 26 := by rw [userPages_eq] at hv; omega
    have hpage : v * pgsize / pgsize = v := Nat.mul_div_cancel _ (by decide)
    have hva : v * pgsize < maxva := by
      show v * 4096 < 274877906944
      omega
    have hleaf := (hold.unchanged hs ht).1 v
    rw [wp_bind, wp_walk, u64_next_page hv26]
    refine ⟨hva, ?_⟩
    -- a page that `old` does not have is left out
    have hskip : hasFlag (leaf s.mem old v) pteV = false →
        wp (Xv6.uvmcopyFrom old new sz turns ((v + 1) * pgsize))
          (fun q u ↦ Space S M u new hand ∧
            (q = 0 ∧ Gives s u new (copied s.mem old (pagesOf sz)) ∨
              q = -1 ∧ ∀ v < 2 ^ 27, translation u.mem new v = translation s.mem new v)) t :=
      fun hV ↦ ih ht (by rwa [copied_succ_of_not_valid hV]) hlt (by omega)
    cases hp : slot t.mem 2 old (v * pgsize) with
    | none =>
      refine hskip ?_
      have hzero := leaf_of_slot_none hp
      rw [hpage, hleaf] at hzero
      rw [hzero, hasFlag_zero]
    | some p =>
      obtain ⟨c, i⟩ := p
      dsimp only
      rw [wp_bind, wp_loadPte, leaf_of_slot hp, hpage, hleaf]
      cases hV : hasFlag (leaf s.mem old v) pteV with
      | false => exact hskip hV
      | true =>
        have hU : copied s.mem old v v = none := if_neg (lt_irrefl v)
        have hfree : hasFlag (leaf t.mem new v) pteV = false := by
          rw [hgives.other v (by omega) hU]
          exact translation_eq_none.1 (hnone v hlt)
        have hcount := leafCount_ne_zero hv hV
        rw [if_neg (by decide)]
        refine ht.give_page (x := s.mem (pte2pa (leaf s.mem old v)))
          (fun _ ↦ Xv6.uvmcopyFrom old new sz turns ((v + 1) * pgsize)) hv
          (pteFlags_lt (leaf s.mem old v)) hfree (fun r u hu hrun ↦ ?_) (fun u hu hview _ ↦ ?_)
          fun r u hmem hr hu hgain hsame hsub _ _ ↦ ?_
        · have hcontent : u.mem (pte2pa (leaf s.mem old v)) =
              s.mem (pte2pa (leaf s.mem old v)) := by
            have hapart := hold _ (ne_of_gt (Nat.add_pos_right _ (Nat.pos_of_ne_zero hcount)))
            rw [hu.frame _ hapart, hs.frame _ hapart]
          rwa [wp_bind, wp_loadPage, wp_bind, wp_storePage, hcontent]
        · rw [wp_bind, ← zero_mul pgsize]
          refine (hu.uvmunmap (a := 0) (n := v) (by omega)).mono fun _ w hw ↦ ?_
          rw [wp_pure]
          rw [zero_add] at hw
          exact ⟨hw.1, .inr ⟨rfl, fun x hx ↦ hgives.undo (fun x hx ↦ copied_ne_none hx)
            (fun x _ hxv ↦ hnone x (by omega)) hview hw.2 hx⟩⟩
        · refine ih hu ?_ hlt (by omega)
          have hgive := hgives.give hU hv hr.1 (lt_trans hr.lt (by decide)) (pteFlags_lt _) hmem
            hgain hfree hsub
          rwa [pteFlags_or_pteV hV, hsame, ← mapped_of_valid hv hV, ← copied_succ] at hgive

/-- **`uvmcopy`** copies all pages below the size, or none. -/
theorem Space.uvmcopy (h : Space S M s new hand) (hold : Apart S s.mem old)
    (hsz : sz ≤ trapframeVa) (hnone : ∀ v < pagesOf sz, translation s.mem new v = none) :
    wp (Xv6.uvmcopy old new sz)
      (fun q t ↦ Space S M t new hand ∧ (q = 0 ∧ Gives s t new (copied s.mem old (pagesOf sz)) ∨
        q = -1 ∧ ∀ v < 2 ^ 27, translation t.mem new v = translation s.mem new v)) s := by
  have hlow := pagesOf_le hsz
  rw [userPages_eq] at hlow
  rw [Xv6.uvmcopy, ← zero_mul pgsize]
  refine h.uvmcopyFrom h hold .refl hsz (Nat.zero_le _) hnone ?_
  rw [pageTurns]
  omega

end

/-! ### All or nothing -/

/-- The page `v` is mapped with the flags `f` to a page with the bytes `x`, which was free in `s`
and is mapped nowhere else for the user. -/
def Fresh (s t : Phys) (pt v : ℕ) (f : Pte) (x : Page) : Prop :=
  ∃ pg ∈ s.freelist, pg ∉ t.freelist ∧ translation t.mem pt v = some (pg, f) ∧ t.mem pg = x ∧
    ∀ w < userPages, ∀ f', translation t.mem pt w = some (pg, f') → w = v

omit [Image] in
theorem translation_of_valid (h : hasFlag (leaf m pt v) pteV = true) :
    translation m pt v = some (pte2pa (leaf m pt v), pteFlags (leaf m pt v)) := if_pos h

theorem Gives.fresh (h : Gives s t pt U) (ht : Space S M t pt hand) {f : Pte}
    (hU : U v = some (f, x)) : Fresh s t pt v f x := by
  obtain ⟨hpage, hfree⟩ := h.page v (hU ▸ some_ne_none _)
  have hmapped : mapped t.mem pt v ≠ none := by
    rw [hpage, hU]
    exact some_ne_none _
  obtain ⟨hv, hV⟩ := mapped_ne_none.1 hmapped
  rw [mapped_of_valid hv hV, hU, some_inj, Prod.mk_inj] at hpage
  refine ⟨_, hfree, fun hmem ↦ ?_, ?_, hpage.2, fun w hw f' hf' ↦ ?_⟩
  · have hcount := List.count_pos_iff.2 hmem
    have hstock := ht.stock (pte2pa (leaf t.mem pt v))
    have hone := ht.leaf_page hv hV
    omega
  · rw [translation_of_valid hV, hpage.1]
  · rw [translation] at hf'
    split_ifs at hf' with hVw
    rw [some_inj, Prod.mk_inj] at hf'
    exact ht.leaf_injective (mapped_ne_none.2 ⟨hw, hVw⟩) hmapped hf'.1

/-- **Growing and copying are all or nothing.** `uvmalloc` maps every page from `PGROUNDUP(oldsz)`
up to `newsz` to a fresh page of zeros, and otherwise leaves the translations as they were; it fails
only if the pages, with the page-table pages for them, are not available. `uvmcopy` maps what `old`
has below `sz` to fresh pages with the same flags and bytes, and otherwise leaves nothing mapped; it
does not change `old`. What has been taken and is not used goes back: no page but page-table pages
leaves the free list. -/
theorem growth_allOrNothing :
    (∀ (S : Estate) (M : Memory) (hand : List ℕ) (s : Phys) (pt oldsz newsz : ℕ) (perm : BitVec 10),
      Space S M s pt hand → oldsz ≤ newsz → 0 < newsz → newsz ≤ trapframeVa →
      (∀ v, pgRoundUp oldsz ≤ v * pgsize → v * pgsize < newsz → translation s.mem pt v = none) →
      wp (uvmalloc pt oldsz newsz (perm.setWidth 64)) (fun q t ↦
        q = newsz ∧
          (∀ v, pgRoundUp oldsz ≤ v * pgsize → v * pgsize < newsz →
            Fresh s t pt v (pteR ||| pteU ||| perm.setWidth 64 ||| pteV) (filled 0)) ∧
          (∀ v < 2 ^ 26, ¬(pgRoundUp oldsz ≤ v * pgsize ∧ v * pgsize < newsz) →
            translation t.mem pt v = translation s.mem pt v) ∨
        q = 0 ∧ (∀ v < 2 ^ 26, translation t.mem pt v = translation s.mem pt v) ∧
          (∀ pg, nodeCount t.mem 2 pt pg + t.freelist.count pg =
            nodeCount s.mem 2 pt pg + s.freelist.count pg) ∧
          ¬Avail s (demand s.mem pt (Finset.Ico (pagesOf oldsz) (pagesOf newsz)))) s) ∧
    ∀ (S : Estate) (M : Memory) (hand : List ℕ) (s : Phys) (old new sz : ℕ),
      Space S M s new hand → Apart S s.mem old → sz ≤ trapframeVa →
      (∀ v, v * pgsize < sz → translation s.mem new v = none) →
      wp (uvmcopy old new sz) (fun q t ↦
        (∀ v, leaf t.mem old v = leaf s.mem old v) ∧ mapped t.mem old = mapped s.mem old ∧
        (∀ v < 2 ^ 26, sz ≤ v * pgsize → translation t.mem new v = translation s.mem new v) ∧
        (q = 0 ∧ (∀ v, v * pgsize < sz →
            (translation s.mem old v = none → translation t.mem new v = none) ∧
            ∀ pa f, translation s.mem old v = some (pa, f) → Fresh s t new v f (s.mem pa)) ∨
          q = -1 ∧ (∀ v, v * pgsize < sz → translation t.mem new v = none) ∧
          ∀ pg, nodeCount t.mem 2 new pg + t.freelist.count pg =
            nodeCount s.mem 2 new pg + s.freelist.count pg)) s := by
  refine ⟨fun S M hand s pt oldsz newsz perm h hle hpos hsz hnone ↦ ?_,
    fun S M hand s old new sz h hold hsz hnone ↦ ?_⟩
  · have hrange : ∀ v, pgRoundUp oldsz ≤ v * pgsize ∧ v * pgsize < newsz ↔
        pagesOf oldsz ≤ v ∧ v < pagesOf newsz := fun v ↦ by
      rw [pgRoundUp_eq_pagesOf, Nat.mul_le_mul_right_iff (by decide), lt_pagesOf hsz]
    have hperm : (pteR ||| pteU ||| perm.setWidth 64).toNat < 1024 := by
      rw [BitVec.toNat_or]
      exact Nat.or_lt_two_pow (n := 10) (by decide) (perm_lt perm)
    refine (h.uvmalloc hperm hle (hle.trans hsz) (lt_of_le_of_lt hsz (by decide)) (.inl hsz)
      fun v ha hb _ ↦ ?_).mono fun q t ⟨ht, hq⟩ ↦ ?_
    · refine hnone v ?_ hb
      rw [pgRoundUp_eq_pagesOf]
      exact Nat.mul_le_mul_right _ ha
    rw [← pagesOf_eq hsz] at hq
    rcases hq with ⟨hq, hgives, -⟩ | ⟨hq, hsame, hno, -⟩
    · refine .inl ⟨hq, fun v ha hb ↦ ?_, fun v hv hout ↦ ?_⟩
      · exact hgives.fresh ht (if_pos ((hrange v).1 ⟨ha, hb⟩))
      · rw [hrange] at hout
        exact translation_congr (hgives.other v (by omega) (if_neg hout))
    · exact .inr ⟨hq, fun v hv ↦ hsame v (by omega), h.conserves ht hsame,
        hno (pagesOf_le hsz)⟩
  · have hlow := pagesOf_le hsz
    have hnone' : ∀ v < pagesOf sz, translation s.mem new v = none := fun v hv ↦
      hnone v ((lt_pagesOf hsz).1 hv)
    refine (h.uvmcopy hold hsz hnone').mono fun q t ⟨ht, hq⟩ ↦ ?_
    refine ⟨(hold.unchanged h ht).1, (hold.unchanged h ht).2, ?_⟩
    rcases hq with ⟨hq, hgives⟩ | ⟨hq, hsame⟩
    · have hother : ∀ v < 2 ^ 27, copied s.mem old (pagesOf sz) v = none →
          translation t.mem new v = translation s.mem new v := fun v hv hU ↦
        translation_congr (hgives.other v hv hU)
      refine ⟨fun v hv hle ↦ hother v (by omega) (if_neg ?_), .inl ⟨hq, fun v hv ↦ ?_⟩⟩
      · rw [lt_pagesOf hsz]
        exact not_lt.2 hle
      rw [← lt_pagesOf hsz] at hv
      have hvu : v < userPages := by omega
      refine ⟨fun hunmapped ↦ ?_, fun pa f hpa ↦ ?_⟩
      · rw [hother v (by rw [userPages_eq] at hvu; omega), hnone' v hv]
        exact (if_pos hv).trans (mapped_of_not_valid (translation_eq_none.1 hunmapped))
      · rw [translation] at hpa
        split_ifs at hpa with hV
        rw [Option.some_inj, Prod.mk_inj] at hpa
        obtain ⟨rfl, rfl⟩ := hpa
        exact hgives.fresh ht ((if_pos hv).trans (mapped_of_valid hvu hV))
    · refine ⟨fun v hv _ ↦ hsame v (by omega), .inr ⟨hq, fun v hv ↦ ?_, h.conserves ht hsame⟩⟩
      have hv' := (lt_pagesOf hsz).2 hv
      rw [hsame v (by rw [userPages_eq] at hlow; omega), hnone v hv]

section

omit [Image]

/-- Ten free pages, and one for a page table. -/
def elevenEstate : @Estate smallImage :=
  @Estate.mk smallImage (fun pg ↦ (0x8000C000 :: tenFree.freelist).count pg)
    (List.nodup_iff_count_le_one.1 (by decide))
    fun pg h ↦ (by
      let _ : Image := smallImage
      decide : ∀ pg ∈ 0x8000C000 :: tenFree.freelist, @IsPage smallImage pg) pg
      (List.count_pos_iff.1 (Nat.pos_of_ne_zero h))

theorem leafCount_tenFree (pt pg : ℕ) : leafCount tenFree.mem pt pg = 0 :=
  sum_eq_zero fun v _ ↦ mapsTo_of_not_valid
    (by rw [leaf, entry_of_zeros rfl, hasFlag_zero]) pg

/-- An empty page table beside ten free pages. -/
theorem space_tenFree : @Space smallImage elevenEstate tenFree.mem tenFree 0x8000C000 [] := by
  let _ : Image := smallImage
  refine ⟨tabled_tenFree.table, fun pg ↦ ?_, fun _ _ ↦ rfl⟩
  show _ = (0x8000C000 :: tenFree.freelist).count pg
  rw [nodeCount_of_zeros rfl, leafCount_tenFree, List.count_nil, List.count_cons]
  simp only [beq_iff_eq]
  omega

/-- Another empty page table. -/
theorem apart_tenFree : @Apart smallImage elevenEstate tenFree.mem 0x8000D000 := by
  let _ : Image := smallImage
  intro pg hpg
  rw [nodeCount_of_zeros rfl, leafCount_tenFree] at hpg
  obtain rfl : 0x8000D000 = pg := not_not.1 fun h ↦ hpg (by rw [if_neg h])
  decide

/-- A page is added to an empty page table, and an empty page table is copied. -/
theorem growth_allOrNothing_tenFree :
    (∃ t, @uvmalloc smallImage 0x8000C000 0 4096 (BitVec.setWidth 64 (4 : BitVec 10)) tenFree =
        .ok (4096, t) ∧
      Fresh tenFree t 0x8000C000 0 (pteR ||| pteU ||| BitVec.setWidth 64 (4 : BitVec 10) ||| pteV)
        (filled 0)) ∧
    ∃ q t, @uvmcopy smallImage 0x8000D000 0x8000C000 4096 tenFree = .ok (q, t) ∧
      mapped t.mem 0x8000D000 = mapped tenFree.mem 0x8000D000 ∧
      translation t.mem 0x8000C000 0 = none := by
  let _ : Image := smallImage
  obtain ⟨halloc, hcopy⟩ := growth_allOrNothing
  constructor
  · obtain ⟨q, t, hrun, hq⟩ := halloc elevenEstate tenFree.mem [] tenFree 0x8000C000 0 4096 4
      space_tenFree (by decide) (by decide) (by decide) fun v _ _ ↦ translation_tenFree v
    have hrange : Finset.Ico (pagesOf 0) (pagesOf 4096) = {0} := by decide
    have hmissing : missing tenFree.mem 2 0x8000C000 (0 * pgsize) ≤ 2 := missing_le
    have havail : Avail tenFree 3 := ⟨by decide, fun i hi ↦ by simp [tenFree]⟩
    rcases hq with ⟨rfl, hfresh, -⟩ | ⟨-, -, -, hno⟩
    · exact ⟨t, hrun, hfresh 0 (by decide) (by decide)⟩
    · rw [hrange, demand_singleton] at hno
      exact absurd (havail.mono (by omega)) hno
  · obtain ⟨q, t, hrun, -, hold, -, hq⟩ := hcopy elevenEstate tenFree.mem [] tenFree 0x8000D000
      0x8000C000 4096 space_tenFree apart_tenFree (by decide) fun v _ ↦ translation_tenFree v
    refine ⟨q, t, hrun, hold, ?_⟩
    rcases hq with ⟨-, hmap⟩ | ⟨-, hmap, -⟩
    · refine (hmap 0 (by decide)).1 (translation_eq_none.2 ?_)
      rw [leaf, entry_of_zeros rfl, hasFlag_zero]
    · exact hmap 0 (by decide)

end

end Xv6

import Xv6.Vm.View

/-!
# Page tables are finite maps

What a page table is for: a finite map from the pages below `MAXVA` to physical addresses and
permissions. `translation m pt` reads it off the memory, and the operations are those of a map:
`mappages` adds a range (`mapRange`), `uvmunmap` removes one (`unmapRange`), and `walk` with `alloc`
changes nothing, whether it finds memory for page-table pages or not.

An entry has no room for the offset of an address within its page. What `mappages` stores for the
address `pa` is read back as `PGROUNDDOWN(pa)`; it does not check that `pa` is aligned, as it does
for `va` and `size`.
-/

namespace Xv6

open Function

/-! ### The map -/

/-- The translation of the virtual page `v`: the physical address and the flags of its entry. -/
def translation (m : Memory) (pt v : ℕ) : Option (ℕ × Pte) :=
  if hasFlag (leaf m pt v) pteV then some (pte2pa (leaf m pt v), pteFlags (leaf m pt v)) else none

section

variable {β : Type*} (f : ℕ → Option β)

/-- A map with the `n` keys from `a` on added. -/
def mapRange (a n : ℕ) (g : ℕ → β) : ℕ → Option β := fun v ↦
  if a ≤ v ∧ v < a + n then some (g (v - a)) else f v

/-- A map with the `n` keys from `a` on removed. -/
def unmapRange (a n : ℕ) : ℕ → Option β := fun v ↦ if a ≤ v ∧ v < a + n then none else f v

/-- A range is added from its first key on. -/
theorem mapRange_succ (a n : ℕ) (g : ℕ → β) (v : ℕ) :
    mapRange f a (n + 1) g v =
      mapRange (mapRange f a 1 g) (a + 1) n (fun k ↦ g (1 + k)) v := by
  rw [mapRange, mapRange, mapRange]
  by_cases hfirst : v = a
  · subst hfirst
    rw [if_pos (by omega), if_neg (by omega), if_pos (by omega)]
  · by_cases hin : a + 1 ≤ v ∧ v < a + 1 + n
    · rw [if_pos (by omega), if_pos hin, show 1 + (v - (a + 1)) = v - a by omega]
    · rw [if_neg (by omega), if_neg hin, if_neg (by omega)]

/-- A range is removed from its first key on. -/
theorem unmapRange_succ (a n v : ℕ) :
    unmapRange f a (n + 1) v = unmapRange (unmapRange f a 1) (a + 1) n v := by
  rw [unmapRange, unmapRange, unmapRange]
  by_cases hfirst : v = a
  · subst hfirst
    rw [if_pos (by omega), if_neg (by omega), if_pos (by omega)]
  · by_cases hin : a + 1 ≤ v ∧ v < a + 1 + n
    · rw [if_pos (by omega), if_pos hin]
    · rw [if_neg (by omega), if_neg hin, if_neg (by omega)]

theorem mapRange_congr {f g : ℕ → Option β} {a n v : ℕ} {h : ℕ → β} (hv : f v = g v) :
    mapRange f a n h v = mapRange g a n h v := by
  rw [mapRange, mapRange, hv]

theorem unmapRange_congr {f g : ℕ → Option β} {a n v : ℕ} (hv : f v = g v) :
    unmapRange f a n v = unmapRange g a n v := by
  rw [unmapRange, unmapRange, hv]

end

variable {m : Memory} {s t u : Phys} {pt v va pa : ℕ} {e perm : Pte}

theorem translation_congr {m' : Memory} (h : leaf m' pt v = leaf m pt v) :
    translation m' pt v = translation m pt v := by
  rw [translation, translation, h]

theorem translation_eq_none : translation m pt v = none ↔ hasFlag (leaf m pt v) pteV = false := by
  rw [translation]
  cases hasFlag (leaf m pt v) pteV <;> simp

/-- The translation that `mappages` stores for the address `pa`. -/
def mappedTo (perm : Pte) (pa : ℕ) : ℕ × Pte := (pgRoundDown (u64 pa), perm ||| pteV)

theorem translation_of_leaf (hp : perm.toNat < 1024)
    (h : leaf m pt v = pa2pte pa ||| perm ||| pteV) :
    translation m pt v = some (mappedTo perm pa) := by
  have hflags : (perm ||| pteV).toNat < 1024 := by
    rw [BitVec.toNat_or]
    exact Nat.or_lt_two_pow (n := 10) hp (by decide)
  have hV : hasFlag (pa2pte pa ||| perm ||| pteV) pteV = true := by
    rw [hasFlag_or]
    exact Bool.or_true _
  rw [translation, h, if_pos hV, BitVec.or_assoc, pte2pa_pa2pte_or_u64 pa hflags,
    pteFlags_pa2pte_or hflags, mappedTo]

/-- One leaf has been set. -/
theorem SetsLeaf.translation_eq (hp : perm.toNat < 1024)
    (h : SetsLeaf s t pt v (pa2pte pa ||| perm ||| pteV)) {w : ℕ} (hw : w < 2 ^ 27) :
    translation t.mem pt w =
      mapRange (translation s.mem pt) v 1 (fun k ↦ mappedTo perm (pa + k * pgsize)) w := by
  rw [mapRange]
  by_cases hwv : w = v
  · subst hwv
    rw [if_pos (by omega), translation_of_leaf hp h.self, Nat.sub_self, zero_mul, add_zero]
  · rw [if_neg (by omega), translation_congr (h.other w hw hwv)]

variable [Image]

theorem SetsLeaf.tabled (h : SetsLeaf s t pt v e) (hs : Tabled s 2 pt) : Tabled t 2 pt where
  table := h.table
  once pg := (h.conserves pg).le.trans (hs.once pg)
  free pg hpg := hs.free pg (h.suffix.subset hpg)

/-! ### `walk` -/

/-- `walk` with `alloc` extends the tree, and a store through the pointer it returns sets the leaf
of the address. -/
theorem walk_alloc_spec (hs : Tabled s 2 pt) (hva : va < maxva) :
    wp (walk pt va true)
      (fun r t ↦ Extends s t 2 pt ∧
        (∀ p, r = some p → pte t.mem p.1 p.2 = leaf s.mem pt (va / pgsize) ∧
          ∀ e, SetsLeaf s { t with mem := setPte t.mem p.1 p.2 e } pt (va / pgsize) e) ∧
        ∀ n, Ample s (n + 2) → r ≠ none ∧ Ample t n) s := by
  rw [walk, if_neg (not_le.2 hva)]
  refine (walkFrom_alloc_spec hs).mono fun r t h ↦ ⟨h.1, fun p hp ↦ ?_, fun n hn ↦ ?_⟩
  swap
  · have hr : r ≠ none := fun h0 ↦ not_ample (h.2.2.1 h0) missing_le n hn
    exact ⟨hr, (h.2.2.2 hr).1.ample missing_le hn⟩
  obtain ⟨c, i⟩ := p
  have hslot := h.2.1 (c, i) hp
  refine ⟨?_, fun e ↦ h.1.setsLeaf hs hva hslot⟩
  rw [leaf_of_slot hslot, leaf, leaf, h.1.entries]

/-! ### `mappages` -/

omit [Image] in
/-- The physical address of the next page, which wraps around. -/
theorem mappedTo_next (perm : Pte) (pa k : ℕ) :
    mappedTo perm (u64 (pa + pgsize) + k * pgsize) = mappedTo perm (pa + (1 + k) * pgsize) := by
  have hu64 : u64 (u64 (pa + pgsize) + k * pgsize) = u64 (pa + (1 + k) * pgsize) := by
    show ((pa + 4096) % 2 ^ 64 + k * 4096) % 2 ^ 64 = (pa + (1 + k) * 4096) % 2 ^ 64
    omega
  rw [mappedTo, mappedTo, hu64]

omit [Image] in
theorem u64_next_page (hv : v < 2 ^ 26) : u64 (v * pgsize + pgsize) = (v + 1) * pgsize := by
  show (v * 4096 + 4096) % 2 ^ 64 = (v + 1) * 4096
  omega

/-- **The loop of `mappages`**, if it returns `0`: the pages up to the last one were not mapped, and
now they are. -/
theorem mappagesFrom_ok {last turns : ℕ} (hs : Tabled s 2 pt) (hp : perm.toNat < 1024) :
    wpe (fun _ ↦ True) (mappagesFrom pt last perm turns (v * pgsize) pa)
      (fun r t ↦ r = 0 → Tabled t 2 pt ∧ ∃ n, last = (v + n) * pgsize ∧ v + n < 2 ^ 26 ∧
        (∀ w, v ≤ w → w ≤ v + n → translation s.mem pt w = none) ∧
        ∀ w < 2 ^ 27, translation t.mem pt w =
          mapRange (translation s.mem pt) v (n + 1) (fun k ↦ mappedTo perm (pa + k * pgsize)) w)
      s := by
  induction turns generalizing s v pa with
  | zero => exact wpe_throw.2 trivial
  | succ turns ih =>
    rw [mappagesFrom, wpe_bind]
    rcases lt_or_ge (v * pgsize) maxva with hva | hva
    swap
    · rw [walk, if_pos hva]
      exact wpe_throw.2 trivial
    have hv : v < 2 ^ 26 := by
      have hlt : v * 4096 < 274877906944 := hva
      omega
    refine (walk_alloc_spec hs hva).to_wpe.mono fun r t h ↦ ?_
    rw [Nat.mul_div_cancel _ (by decide)] at h
    cases r with
    | none =>
      rw [wpe_pure]
      exact fun h0 ↦ absurd h0 (by decide)
    | some p =>
      obtain ⟨c, i⟩ := p
      obtain ⟨hpte, hset⟩ := h.2.1 (c, i) rfl
      have hset := hset (pa2pte pa ||| perm ||| pteV)
      rw [wpe_bind]
      refine (wp_loadPte.2 ?_ : wp (loadPte c i) _ t).to_wpe
      rw [wpe_ite]
      refine ⟨fun _ ↦ wpe_throw.2 trivial, fun hV ↦ ?_⟩
      have hnone : translation s.mem pt v = none := by
        rw [translation_eq_none, ← hpte]
        exact Bool.eq_false_iff.2 hV
      rw [wpe_bind]
      refine (wp_storePte.2 ?_ : wp (storePte c i _) _ t).to_wpe
      rw [wpe_ite]
      refine ⟨fun hlast ↦ ?_, fun hlast ↦ ?_⟩
      · rw [wpe_pure]
        refine fun _ ↦ ⟨hset.tabled hs, 0, hlast.symm, hv, fun w hle hlt ↦ ?_, fun w hw ↦ ?_⟩
        · rwa [show w = v by omega]
        · exact hset.translation_eq hp hw
      · rw [u64_next_page hv]
        refine (ih (hset.tabled hs)).mono fun r u hu h0 ↦ ?_
        obtain ⟨hu, n, hn, hlt, hunmapped, hmap⟩ := hu h0
        refine ⟨hu, n + 1, by rw [hn]; congr 1; omega, by omega, fun w hle hlt ↦ ?_, fun w hw ↦ ?_⟩
        · by_cases hwv : w = v
          · rwa [hwv]
          · have hold := hunmapped w (by omega) (by omega)
            rwa [hset.translation_eq hp (by omega), mapRange, if_neg (by omega)] at hold
        · rw [hmap w hw, mapRange_succ (translation s.mem pt),
            mapRange_congr (hset.translation_eq hp hw)]
          simp only [mappedTo_next]

/-- The loop of `mappages` returns, with `0` if there is memory for two page-table pages for each
page. -/
theorem mappagesFrom_returns {turns n : ℕ} (hs : Tabled s 2 pt) (hn : v + n < 2 ^ 26)
    (hturns : n < turns) (hp : perm.toNat < 1024)
    (hnone : ∀ w, v ≤ w → w ≤ v + n → translation s.mem pt w = none) :
    wp (mappagesFrom pt ((v + n) * pgsize) perm turns (v * pgsize) pa)
      (fun r t ↦ Tabled t 2 pt ∧ (r = 0 ∨ r = -1) ∧ (Ample s (2 * (n + 1)) → r = 0)) s := by
  induction turns generalizing s v n pa with
  | zero => exact absurd hturns (Nat.not_lt_zero n)
  | succ turns ih =>
    have hva : v * pgsize < maxva := by
      show v * 4096 < 274877906944
      omega
    rw [mappagesFrom, wp_bind]
    refine (walk_alloc_spec hs hva).mono fun r t h ↦ ?_
    rw [Nat.mul_div_cancel _ (by decide)] at h
    obtain ⟨hext, hslot, hample⟩ := h
    cases r with
    | none =>
      rw [wp_pure]
      exact ⟨hext.tabled hs, .inr rfl, fun h0 ↦ absurd rfl (hample (2 * n) h0).1⟩
    | some p =>
      obtain ⟨c, i⟩ := p
      obtain ⟨hpte, hset⟩ := hslot (c, i) rfl
      have hset := hset (pa2pte pa ||| perm ||| pteV)
      have hV := translation_eq_none.1 (hnone v le_rfl (Nat.le_add_right v n))
      rw [wp_bind, wp_loadPte, hpte, hV, if_neg Bool.false_ne_true, wp_bind, wp_storePte, wp_ite,
        wp_pure]
      refine ⟨fun _ ↦ ⟨hset.tabled hs, .inl rfl, fun _ ↦ rfl⟩, fun hne ↦ ?_⟩
      obtain ⟨k, rfl⟩ : ∃ k, n = k + 1 := by
        refine Nat.exists_eq_succ_of_ne_zero fun h0 ↦ hne ?_
        rw [h0, add_zero]
      rw [u64_next_page (by omega), show v + (k + 1) = v + 1 + k by omega]
      refine (ih (hset.tabled hs) (by omega) (by omega) fun w hle hlt ↦ ?_).mono fun q u hu ↦
        ⟨hu.1, hu.2.1, fun h0 ↦ hu.2.2 (hample (2 * (k + 1)) h0).2⟩
      rw [hset.translation_eq hp (by omega), mapRange, if_neg (by omega)]
      exact hnone w (by omega) (by omega)

/-! ### `uvmunmap` -/

/-- The pages that are mapped in a range can be freed: they are pages of the allocator's, neither
free nor part of the page table, and no page is mapped twice. -/
structure Freeable (s : Phys) (pt a n : ℕ) : Prop where
  isPage : ∀ v pa f, a ≤ v → v < a + n → translation s.mem pt v = some (pa, f) → IsPage pa
  apart : ∀ v pa f, a ≤ v → v < a + n → translation s.mem pt v = some (pa, f) →
    nodeCount s.mem 2 pt pa = 0 ∧ s.freelist.count pa = 0
  once : ∀ v w pa f g, a ≤ v → v < a + n → a ≤ w → w < a + n →
    translation s.mem pt v = some (pa, f) → translation s.mem pt w = some (pa, g) → v = w

/-- A page that is not in the tree is freed. -/
theorem Tabled.free_page {b : Page} (hs : Tabled s 2 pt) (hpa : IsPage pa)
    (hnode : nodeCount s.mem 2 pt pa = 0) (hfree : s.freelist.count pa = 0) :
    Tabled { s with mem := update s.mem pa b, freelist := pa :: s.freelist } 2 pt ∧
      Agrees s.mem (update s.mem pa b) 2 pt := by
  have hagrees : Agrees s.mem (update s.mem pa b) 2 pt := fun pg hpg ↦ by
    refine update_of_ne ?_ _ _
    rintro rfl
    exact hpg hnode
  refine ⟨⟨hagrees.isTable hs.table, fun pg ↦ ?_, fun pg hpg ↦ ?_⟩, hagrees⟩
  · show nodeCount (update s.mem pa b) 2 pt pg + (pa :: s.freelist).count pg ≤ 1
    have honce := hs.once pg
    rw [hagrees.nodeCount_eq, List.count_cons]
    by_cases heq : pa = pg
    · subst heq
      rw [beq_self_eq_true, if_pos rfl]
      omega
    · rw [if_neg (by simpa using heq)]
      exact honce
  · rcases List.mem_cons.1 hpg with rfl | hpg
    · exact hpa
    · exact hs.free pg hpg

/-- What a turn of `uvmunmap` at the page `v` does. -/
structure Unmaps (s t : Phys) (pt v : ℕ) : Prop where
  tabled : Tabled t 2 pt
  nodes : ∀ pg, nodeCount t.mem 2 pt pg = nodeCount s.mem 2 pt pg
  map : ∀ w < 2 ^ 27, translation t.mem pt w = unmapRange (translation s.mem pt) v 1 w
  freelist : ∀ pg, t.freelist.count pg = s.freelist.count pg ∨
    ∃ f, translation s.mem pt v = some (pg, f)

/-- A store of `0` to the slot of a page. -/
theorem Tabled.unmaps {p : ℕ × Fin 512} (hs : Tabled s 2 pt) (hva : va < maxva)
    (hp : slot s.mem 2 pt va = some p) :
    Unmaps s { s with mem := setPte s.mem p.1 p.2 0 } pt (va / pgsize) := by
  have hset : SetsLeaf s { s with mem := setPte s.mem p.1 p.2 0 } pt (va / pgsize) 0 :=
    Extends.setsLeaf hs (.of_eq hs.table rfl rfl) hva hp
  have hsets := setsEntry_setPte (e := 0) (fun pg ↦ (Nat.le_add_right _ _).trans (hs.once pg)) hp
  refine ⟨hset.tabled hs, hsets.nodes, fun w hw ↦ ?_, fun _ ↦ .inl rfl⟩
  rw [unmapRange]
  by_cases hwv : w = va / pgsize
  · rw [if_pos (by omega), translation_eq_none, hwv]
    exact (congrArg (hasFlag · pteV) hset.self).trans (hasFlag_zero pteV)
  · rw [if_neg (by omega), translation_congr (hset.other w hw hwv)]

/-- One turn of `uvmunmap`. -/
theorem uvmunmapTurn_spec {doFree : Bool} (hs : Tabled s 2 pt) (hva : va < maxva)
    (hfree : doFree = true → ∀ pa f, translation s.mem pt (va / pgsize) = some (pa, f) →
      IsPage pa ∧ nodeCount s.mem 2 pt pa = 0 ∧ s.freelist.count pa = 0) :
    wp (uvmunmapTurn pt va doFree) (fun _ t ↦ Unmaps s t pt (va / pgsize)) s := by
  have hstay : translation s.mem pt (va / pgsize) = none → Unmaps s s pt (va / pgsize) := by
    intro hnone
    refine ⟨hs, fun _ ↦ rfl, fun w _ ↦ ?_, fun _ ↦ .inl rfl⟩
    rw [unmapRange]
    split_ifs with hw
    · rwa [show w = va / pgsize by omega]
    · rfl
  rw [uvmunmapTurn, wp_bind, wp_walk]
  refine ⟨hva, ?_⟩
  cases hp : slot s.mem 2 pt va with
  | none =>
    rw [wp_pure]
    exact hstay (translation_eq_none.2 (by rw [leaf_of_slot_none hp, hasFlag_zero]))
  | some p =>
    obtain ⟨c, i⟩ := p
    rw [wp_bind, wp_loadPte, leaf_of_slot hp]
    cases hV : hasFlag (leaf s.mem pt (va / pgsize)) pteV with
    | false =>
      rw [Bool.not_false, if_pos rfl, wp_pure]
      exact hstay (translation_eq_none.2 hV)
    | true =>
      rw [Bool.not_true, if_neg Bool.false_ne_true]
      cases doFree with
      | false =>
        simp only [Bool.false_eq_true, if_false, wp_storePte]
        exact hs.unmaps hva hp
      | true =>
        have hsome : translation s.mem pt (va / pgsize) =
            some (pte2pa (leaf s.mem pt (va / pgsize)), pteFlags (leaf s.mem pt (va / pgsize))) :=
          if_pos hV
        obtain ⟨hpage, hnode, hcount⟩ := hfree rfl _ _ hsome
        obtain ⟨hs', hagrees⟩ := hs.free_page (b := filled 1) hpage hnode hcount
        simp only [if_true, wp_bind, wp_kfree, wp_storePte]
        refine ⟨hpage, ?_⟩
        obtain ⟨htabled, hnodes, hmap, -⟩ := hs'.unmaps hva (by rw [← hp]; exact hagrees.slot_eq va)
        refine ⟨htabled, fun pg ↦ (hnodes pg).trans (hagrees.nodeCount_eq pg), fun w hw ↦ ?_,
          fun pg ↦ ?_⟩
        · rw [hmap w hw]
          exact unmapRange_congr (translation_congr (hagrees.leaf_eq w))
        · by_cases heq : pte2pa (leaf s.mem pt (va / pgsize)) = pg
          · subst heq
            exact .inr ⟨_, hsome⟩
          · left
            show (pte2pa _ :: s.freelist).count pg = _
            rw [List.count_cons, if_neg (by simpa using heq), add_zero]

/-- What is left to be freed can be freed. -/
theorem Unmaps.freeable {n : ℕ} (h : Unmaps s t pt v) (hn : v + (n + 1) ≤ 2 ^ 27)
    (hs : Freeable s pt v (n + 1)) : Freeable t pt (v + 1) n := by
  have hold : ∀ w pa f, v + 1 ≤ w → w < v + 1 + n → translation t.mem pt w = some (pa, f) →
      translation s.mem pt w = some (pa, f) := by
    intro w pa f hle hlt hw
    rwa [h.map w (by omega), unmapRange, if_neg (by omega)] at hw
  refine ⟨fun w pa f hle hlt hw ↦ hs.isPage w pa f (by omega) (by omega) (hold w pa f hle hlt hw),
    fun w pa f hle hlt hw ↦ ?_, fun w x pa f g hle hlt hle' hlt' hw hx ↦ ?_⟩
  · have hw' := hold w pa f hle hlt hw
    obtain ⟨hnode, hcount⟩ := hs.apart w pa f (by omega) (by omega) hw'
    refine ⟨(h.nodes pa).trans hnode, ?_⟩
    rcases h.freelist pa with heq | ⟨g, hv⟩
    · exact heq.trans hcount
    · -- the page that has been freed was mapped at `v` only
      have heq := hs.once v w pa g f le_rfl (by omega) (by omega) (by omega) hv hw'
      omega
  · exact hs.once w x pa f g (by omega) (by omega) (by omega) (by omega)
      (hold w pa f hle hlt hw) (hold x pa g hle' hlt' hx)

/-- **The loop of `uvmunmap`** from page `v` on. -/
theorem uvmunmapFrom_spec {turns n : ℕ} {doFree : Bool} (hs : Tabled s 2 pt) (hn : v + n ≤ 2 ^ 26)
    (hturns : n < turns) (hfree : doFree = true → Freeable s pt v n) :
    wp (uvmunmapFrom pt ((v + n) * pgsize) doFree turns (v * pgsize))
      (fun _ t ↦ Tabled t 2 pt ∧
        ∀ w < 2 ^ 27, translation t.mem pt w = unmapRange (translation s.mem pt) v n w) s := by
  induction turns generalizing s v n with
  | zero => exact absurd hturns (Nat.not_lt_zero n)
  | succ turns ih =>
    rw [uvmunmapFrom, wp_ite, wp_bind, wp_pure, Nat.mul_lt_mul_right (by decide)]
    refine ⟨fun hlt ↦ ?_, fun hge ↦ ⟨hs, fun w _ ↦ ?_⟩⟩
    · obtain ⟨k, rfl⟩ : ∃ k, n = k + 1 := ⟨n - 1, by omega⟩
      have hva : v * pgsize < maxva := by
        show v * 4096 < 274877906944
        omega
      have hturn := uvmunmapTurn_spec hs hva fun hd pa f hpa ↦ by
        rw [Nat.mul_div_cancel _ (by decide)] at hpa
        exact ⟨(hfree hd).isPage v pa f le_rfl (by omega) hpa,
          (hfree hd).apart v pa f le_rfl (by omega) hpa⟩
      refine hturn.mono fun _ t ht ↦ ?_
      rw [Nat.mul_div_cancel _ (by decide)] at ht
      rw [u64_next_page (by omega), show v + (k + 1) = v + 1 + k by omega]
      refine (ih ht.tabled (by omega) (by omega) fun hd ↦
        ht.freeable (by omega) (hfree hd)).mono fun _ u hu ↦ ⟨hu.1, fun w hw ↦ ?_⟩
      rw [hu.2 w hw, unmapRange_succ, unmapRange_congr (ht.map w hw)]
    · rw [unmapRange, if_neg (by omega)]

/-! ### The whole map -/

omit [Image] in
theorem perm_lt (perm : BitVec 10) : (perm.setWidth 64).toNat < 1024 := by
  have hlt := perm.isLt
  rw [BitVec.toNat_setWidth]
  omega

/-- What a successful `mappages` has done. -/
theorem mappages_ok {size : ℕ} {perm : BitVec 10} (hs : Tabled s 2 pt) (hsize : size < 2 ^ 64)
    (h : mappages pt va size pa (perm.setWidth 64) s = .ok (0, t)) :
    Tabled t 2 pt ∧ va % pgsize = 0 ∧ va + size ≤ maxva ∧
      (∀ v, va / pgsize ≤ v → v < va / pgsize + size / pgsize → translation s.mem pt v = none) ∧
      ∀ v < 2 ^ 27, translation t.mem pt v = mapRange (translation s.mem pt) (va / pgsize)
        (size / pgsize) (fun k ↦ mappedTo (perm.setWidth 64) (pa + k * pgsize)) v := by
  rw [mappages] at h
  split_ifs at h with hva hal h0
  · cases h
  · cases h
  · cases h
  rw [not_not] at hva hal
  have hval : va = va / pgsize * pgsize := by
    have hva' : va % 4096 = 0 := hva
    show va = va / 4096 * 4096
    omega
  rw [hval] at h
  generalize pageTurns = turns at h
  obtain ⟨ht, n, hlast, hlt, hnone, hmap⟩ := (mappagesFrom_ok hs (perm_lt perm)).of_ok h rfl
  -- the last page is where the range ends, as nothing has wrapped around
  have hlast' := hlast
  have hlt' := hlt
  rw [sub64, u64, pgsize_eq] at hlast'
  rw [pgsize_eq] at hlt'
  have hva' : va % 4096 = 0 := hva
  have hal' : size % 4096 = 0 := hal
  have hn : size / 4096 = n + 1 := by omega
  refine ⟨ht, hva, ?_, fun v hle hlt ↦ hnone v hle ?_, fun v hv ↦ ?_⟩
  · show va + size ≤ 274877906944
    omega
  · have hlt : v < va / 4096 + size / 4096 := hlt
    show v ≤ va / 4096 + n
    omega
  · rw [hmap v hv, show size / pgsize = n + 1 from hn]

/-- `mappages` of a range that is not mapped returns, with `0` if there is memory. -/
theorem mappages_returns {size : ℕ} {perm : BitVec 10} (hs : Tabled s 2 pt)
    (hva : va % pgsize = 0) (hal : size % pgsize = 0) (hpos : 0 < size) (hle : va + size ≤ maxva)
    (hnone : ∀ v, va / pgsize ≤ v → v < (va + size) / pgsize → translation s.mem pt v = none) :
    wp (mappages pt va size pa (perm.setWidth 64))
      (fun r t ↦ Tabled t 2 pt ∧ (r = 0 ∨ r = -1) ∧ (Ample s (2 * (size / pgsize)) → r = 0)) s := by
  have hva' : va % 4096 = 0 := hva
  have hal' : size % 4096 = 0 := hal
  have hle' : va + size ≤ 274877906944 := hle
  have hstart : va = va / pgsize * pgsize := by
    show va = va / 4096 * 4096
    omega
  obtain ⟨n, hn⟩ : ∃ n, size / pgsize = n + 1 := by
    refine ⟨size / 4096 - 1, ?_⟩
    show size / 4096 = size / 4096 - 1 + 1
    omega
  have hn' : size / 4096 = n + 1 := hn
  have hlast : sub64 (va + size) pgsize = (va / pgsize + n) * pgsize := by
    rw [sub64, u64, pgsize_eq]
    omega
  have hend : va / pgsize + n < 2 ^ 26 := by
    show va / 4096 + n < 2 ^ 26
    omega
  have hturns : n < pageTurns := by
    rw [pageTurns]
    omega
  rw [mappages, if_neg (not_not.2 hva), if_neg (not_not.2 hal), if_neg (by omega), hlast, hn]
  generalize pageTurns = turns at hturns
  rw [hstart, Nat.mul_div_cancel _ (by decide)]
  refine mappagesFrom_returns hs hend hturns (perm_lt perm) fun w hle hlt ↦ hnone w hle ?_
  have hlt' : w ≤ va / 4096 + n := hlt
  show w < (va + size) / 4096
  omega

/-- `uvmunmap` of a range. -/
theorem uvmunmap_spec {n : ℕ} {doFree : Bool} (hs : Tabled s 2 pt) (hva : va % pgsize = 0)
    (hle : va + n * pgsize ≤ maxva) (hfree : doFree = true → Freeable s pt (va / pgsize) n) :
    wp (uvmunmap pt va n doFree)
      (fun _ t ↦ Tabled t 2 pt ∧ ∀ v < 2 ^ 27,
        translation t.mem pt v = unmapRange (translation s.mem pt) (va / pgsize) n v) s := by
  have hva' : va % 4096 = 0 := hva
  have hle' : va + n * 4096 ≤ 274877906944 := hle
  have hstart : va = va / pgsize * pgsize := by
    show va = va / 4096 * 4096
    omega
  have hbound : u64 (va + n * pgsize) = (va / pgsize + n) * pgsize := by
    show (va + n * 4096) % 2 ^ 64 = (va / 4096 + n) * 4096
    omega
  have hend : va / pgsize + n ≤ 2 ^ 26 := by
    show va / 4096 + n ≤ 2 ^ 26
    omega
  have hturns : n < pageTurns := by
    rw [pageTurns]
    omega
  rw [uvmunmap, if_neg (not_not.2 hva), hbound]
  generalize pageTurns = turns at hturns
  nth_rewrite 2 [hstart]
  exact uvmunmapFrom_spec hs hend hturns hfree

/-- **Page tables are finite maps.** A successful `mappages` has added the range, each page with the
address that its entry has room for; with memory it succeeds. `walk` with `alloc` changes no
translation, and `uvmunmap` removes those of the range. -/
theorem pageTable_finiteMap (hs : Tabled s 2 pt) :
    (∀ va size pa (perm : BitVec 10) t, size < 2 ^ 64 →
      mappages pt va size pa (perm.setWidth 64) s = .ok (0, t) →
      Tabled t 2 pt ∧ va + size ≤ maxva ∧
      (∀ v < 2 ^ 26, translation t.mem pt v = mapRange (translation s.mem pt) (va / pgsize)
        (size / pgsize)
        (fun k ↦ (pgRoundDown (u64 (pa + k * pgsize)), perm.setWidth 64 ||| pteV)) v) ∧
      (pa % pgsize = 0 → pa + size ≤ 2 ^ 64 → ∀ k < size / pgsize,
        translation t.mem pt (va / pgsize + k) =
          some (pa + k * pgsize, perm.setWidth 64 ||| pteV))) ∧
    (∀ va size pa (perm : BitVec 10), va % pgsize = 0 → size % pgsize = 0 → 0 < size →
      va + size ≤ maxva →
      (∀ v, va / pgsize ≤ v → v < (va + size) / pgsize → translation s.mem pt v = none) →
      ∃ r t, mappages pt va size pa (perm.setWidth 64) s = .ok (r, t) ∧ Tabled t 2 pt ∧
        (r = 0 ∨ r = -1) ∧ (Ample s (2 * (size / pgsize)) → r = 0)) ∧
    (∀ va < maxva, ∃ r t, walk pt va true s = .ok (r, t) ∧ Tabled t 2 pt ∧
      ∀ v, translation t.mem pt v = translation s.mem pt v) ∧
    (∀ va n doFree, va % pgsize = 0 → va + n * pgsize ≤ maxva →
      (doFree = true → Freeable s pt (va / pgsize) n) →
      ∃ t, uvmunmap pt va n doFree s = .ok ((), t) ∧ Tabled t 2 pt ∧
        ∀ v < 2 ^ 26, translation t.mem pt v =
          unmapRange (translation s.mem pt) (va / pgsize) n v) := by
  refine ⟨fun va size pa perm t hsize h ↦ ?_, fun va size pa perm hva hal hpos hle hnone ↦ ?_,
    fun va hva ↦ ?_, fun va n doFree hva hle hfree ↦ ?_⟩
  · obtain ⟨ht, -, hle, -, hmap⟩ := mappages_ok hs hsize h
    refine ⟨ht, hle, fun v hv ↦ hmap v (by omega), fun hpa hend k hk ↦ ?_⟩
    have hpa' : pa % 4096 = 0 := hpa
    have hk' : k < size / 4096 := hk
    have hle' : va + size ≤ 274877906944 := hle
    rw [hmap _ (by show va / 4096 + k < 2 ^ 27; omega), mapRange, if_pos (by omega),
      Nat.add_sub_cancel_left, mappedTo]
    have hround : pgRoundDown (u64 (pa + k * pgsize)) = pa + k * pgsize := by
      show (pa + k * 4096) % 2 ^ 64 / 4096 * 4096 = pa + k * 4096
      omega
    rw [hround]
  · exact mappages_returns hs hva hal hpos hle hnone
  · obtain ⟨r, t, hrun, hext, -⟩ := walk_alloc_spec hs hva
    exact ⟨r, t, hrun, hext.tabled hs, fun v ↦ translation_congr (hext.entries _)⟩
  · obtain ⟨⟨⟩, t, hrun, ht, hmap⟩ := uvmunmap_spec hs hva hle hfree
    exact ⟨t, hrun, ht, fun v hv ↦ hmap v (by omega)⟩

omit [Image] in
/-- A page of zeros as a page table, beside ten free pages. -/
theorem tabled_tenFree : @Tabled smallImage tenFree 2 0x8000C000 := by
  let _ : Image := smallImage
  have hzeros : tenFree.mem 0x8000C000 = filled 0 := rfl
  refine ⟨isTable_of_zeros hzeros 2, fun pg ↦ ?_, isPage_of_mem_tenFree⟩
  have hnodup : tenFree.freelist.count pg ≤ 1 := List.nodup_iff_count_le_one.1 (by decide) pg
  rw [nodeCount_of_zeros hzeros]
  split_ifs with hpg
  · subst hpg
    decide
  · omega

omit [Image] in
/-- Nothing is mapped in it. -/
theorem translation_tenFree (v : ℕ) : translation tenFree.mem 0x8000C000 v = none :=
  translation_eq_none.2 (by rw [leaf, entry_of_zeros rfl, hasFlag_zero])

omit [Image] in
/-- The first page is mapped to the page at `0x80002000`. -/
theorem pageTable_finiteMap_tenFree : @Tabled smallImage tenFree 2 0x8000C000 ∧
    ∃ t, mappages 0x8000C000 0 4096 0x8000D000 (BitVec.setWidth 64 (6 : BitVec 10)) tenFree =
        .ok (0, t) ∧
      translation t.mem 0x8000C000 0 =
        some (0x8000D000, BitVec.setWidth 64 (6 : BitVec 10) ||| pteV) := by
  let _ : Image := smallImage
  obtain ⟨hok, hreturns, -, -⟩ := pageTable_finiteMap tabled_tenFree
  obtain ⟨r, t, hrun, -, -, hr⟩ := hreturns 0 4096 0x8000D000 6 (by decide) (by decide) (by decide)
    (by decide) fun v _ _ ↦ translation_tenFree v
  rw [hr ⟨rfl, by decide⟩] at hrun
  obtain ⟨-, -, -, haddr⟩ := hok _ _ _ _ t (by decide) hrun
  exact ⟨tabled_tenFree, t, hrun, haddr (by decide) (by decide) 0 (by decide)⟩

omit [Image] in
/-- An address that is not that of a page is not read back: `mappages` of the address `1` maps the
page at `0`. -/
theorem mappages_unaligned : @Tabled smallImage tenFree 2 0x8000C000 ∧
    ∃ t, mappages 0x8000C000 0 4096 1 6 tenFree = .ok (0, t) ∧
      translation t.mem 0x8000C000 0 = some (0, 7) := by
  let _ : Image := smallImage
  have hperm : BitVec.setWidth 64 (6 : BitVec 10) = (6 : Pte) := by decide
  have hreturns : wp (mappages 0x8000C000 0 4096 1 (BitVec.setWidth 64 (6 : BitVec 10)))
      _ tenFree :=
    mappages_returns tabled_tenFree (by decide) (by decide) (by decide) (by decide)
      fun v _ _ ↦ translation_tenFree v
  obtain ⟨r, t, hrun, -, -, hr⟩ := hreturns
  rw [hr ⟨rfl, by decide⟩] at hrun
  obtain ⟨-, -, -, -, hmap⟩ := mappages_ok tabled_tenFree (by decide) hrun
  rw [hperm] at hrun
  refine ⟨tabled_tenFree, t, hrun, ?_⟩
  rw [hmap 0 (by decide), mapRange, if_pos (by decide), hperm]
  decide

end Xv6

import Xv6.Vm.Walk

/-!
# The leaves of a page table

A page table read as what it is for: a function from page numbers to entries. `leaf m pt v` is the
entry for the virtual page `v`, whatever pages of the tree it takes to get there. The functions that
only look are functions of it (`wp_ismapped`, `wp_walkaddr`), and `mappages` for one page, the only
way the code uses it for user memory, sets one leaf or nothing (`mappages_spec`).

`walk` refuses addresses from `MAXVA` on, half of what three levels can hold; the tree has leaves
for `2 ^ 27` pages all the same, and `freewalk` looks at all of them.
-/

namespace Xv6

open Option Finset

/-- The number of pages below `TRAPFRAME`, the ones a user program can have. -/
@[irreducible]
def userPages : ℕ := trapframeVa / pgsize

theorem userPages_eq : userPages = 67108862 := by
  rw [userPages]
  rfl

/-- The entry for the virtual page `v`. -/
def leaf (m : Memory) (pt v : ℕ) : Pte := entry m 2 pt (v * pgsize)

section

variable {m m' : Memory} {s t : Phys} {pt v w va : ℕ}

theorem px_eq_px (k a b : ℕ) : px k a = px k b ↔
    a / 2 ^ (12 + 9 * k) % 512 = b / 2 ^ (12 + 9 * k) % 512 := by
  rw [px, px, Fin.ext_iff, Fin.val_ofNat, Fin.val_ofNat]

/-- Two addresses have one leaf exactly if they have one page number of `27` bits. -/
theorem samePath_iff (a b : ℕ) :
    SamePath 2 a b ↔ b / pgsize % 2 ^ 27 = a / pgsize % 2 ^ 27 := by
  have hlevels : SamePath 2 a b ↔ px 0 b = px 0 a ∧ px 1 b = px 1 a ∧ px 2 b = px 2 a := by
    rw [samePath_succ, samePath_succ]
    refine ⟨fun h ↦ ⟨h.2.2 0 le_rfl, h.2.1, h.1⟩, fun h ↦ ⟨h.2.2, h.2.1, fun k hk ↦ ?_⟩⟩
    rw [Nat.le_zero.1 hk]
    exact h.1
  rw [hlevels, px_eq_px, px_eq_px, px_eq_px]
  show b / 4096 % 512 = a / 4096 % 512 ∧ b / 2097152 % 512 = a / 2097152 % 512 ∧
    b / 1073741824 % 512 = a / 1073741824 % 512 ↔ b / 4096 % 134217728 = a / 4096 % 134217728
  omega

theorem slot_congr {l a : ℕ} (h : SamePath l va w) : slot m l a w = slot m l a va := by
  induction l generalizing a with
  | zero => rw [slot, slot, h 0 le_rfl]
  | succ l ih =>
    rw [samePath_succ] at h
    rw [slot, slot, h.1]
    exact congrArg _ (funext fun c ↦ ih h.2)

/-- The entry for an address is the leaf of its page. -/
theorem entry_eq_leaf (m : Memory) (pt va : ℕ) : entry m 2 pt va = leaf m pt (va / pgsize) := by
  have hpath : SamePath 2 (va / pgsize * pgsize) va := by
    rw [samePath_iff, Nat.mul_div_cancel _ (by decide)]
  rw [leaf, entry, entry, slot_congr hpath]

theorem Agrees.leaf_eq (h : Agrees m m' 2 pt) (v : ℕ) : leaf m' pt v = leaf m pt v :=
  h.entry_eq _

/-! ### Looking -/

theorem wp_walk {Q : Option (ℕ × Fin 512) → Phys → Prop} :
    wp (walk pt va false) Q s ↔ va < maxva ∧ Q (slot s.mem 2 pt va) s := by
  rw [walk, wp_ite, wp_panic, wp_walkFrom]
  have hneg : ¬va ≥ maxva ↔ va < maxva := not_le
  tauto

/-- What the code reads through a pointer that `walk` returned, if it is not null. -/
theorem leaf_of_slot {c : ℕ} {i : Fin 512} (h : slot s.mem 2 pt va = some (c, i)) :
    pte s.mem c i = leaf s.mem pt (va / pgsize) := by
  rw [← entry_eq_leaf, entry_eq_pte h]

theorem leaf_of_slot_none (h : slot s.mem 2 pt va = none) :
    leaf s.mem pt (va / pgsize) = 0 := by
  rw [← entry_eq_leaf, entry, h, elim_none]

theorem hasFlag_zero (f : Pte) : hasFlag 0 f = false := by
  simp [hasFlag]

/-- `ismapped`: the leaf is valid. -/
theorem wp_ismapped {Q : Bool → Phys → Prop} :
    wp (ismapped pt va) Q s ↔
      va < maxva ∧ Q (hasFlag (leaf s.mem pt (va / pgsize)) pteV) s := by
  rw [ismapped, wp_bind, wp_walk]
  refine and_congr_right fun _ ↦ ?_
  cases hp : slot s.mem 2 pt va with
  | none => rw [wp_pure, leaf_of_slot_none hp, hasFlag_zero]
  | some p =>
    obtain ⟨c, i⟩ := p
    rw [wp_bind, wp_loadPte, wp_pure, leaf_of_slot hp]

/-- What `walkaddr` returns. -/
def userPa (m : Memory) (pt va : ℕ) : ℕ :=
  if va < maxva ∧ hasFlag (leaf m pt (va / pgsize)) pteV ∧
      hasFlag (leaf m pt (va / pgsize)) pteU then
    pte2pa (leaf m pt (va / pgsize))
  else 0

/-- `walkaddr`: the page of a leaf that is valid and the user's. -/
theorem wp_walkaddr {Q : ℕ → Phys → Prop} :
    wp (walkaddr pt va) Q s ↔ Q (userPa s.mem pt va) s := by
  rw [walkaddr, userPa, wp_ite, wp_pure, wp_bind, wp_walk]
  rcases lt_or_ge va maxva with hva | hva
  · simp only [not_le.2 hva, false_imp_iff, not_false_eq_true, true_imp_iff, true_and, hva]
    cases hp : slot s.mem 2 pt va with
    | none => rw [wp_pure, leaf_of_slot_none hp, hasFlag_zero]; simp
    | some p =>
      obtain ⟨c, i⟩ := p
      rw [wp_bind, wp_loadPte, leaf_of_slot hp]
      cases hasFlag (leaf s.mem pt (va / pgsize)) pteV <;>
        cases hasFlag (leaf s.mem pt (va / pgsize)) pteU <;> simp
  · simp [hva, not_lt.2 hva]

end

/-! ### Setting a leaf -/

/-- From `s` to `t` the leaf of page `v` has become `e`; page-table pages may have been taken from
the free list for it, and nothing else has happened. -/
structure SetsLeaf (s t : Phys) (pt v : ℕ) (e : Pte) : Prop where
  table : IsTable t.mem 2 pt
  conserves : ∀ pg, nodeCount t.mem 2 pt pg + t.freelist.count pg =
    nodeCount s.mem 2 pt pg + s.freelist.count pg
  self : leaf t.mem pt v = e
  other : ∀ w < 2 ^ 27, w ≠ v → leaf t.mem pt w = leaf s.mem pt w
  frame : ∀ pg, nodeCount s.mem 2 pt pg = 0 → s.freelist.count pg = 0 → t.mem pg = s.mem pg
  suffix : t.freelist <:+ s.freelist

variable [Image] {s t : Phys} {pt v va pa : ℕ} {e perm : Pte}

/-- A store through the pointer that `walk` has returned sets the leaf. -/
theorem Extends.setsLeaf {p : ℕ × Fin 512} (hs : Tabled s 2 pt) (h : Extends s t 2 pt)
    (hva : va < maxva) (hp : slot t.mem 2 pt va = some p) :
    SetsLeaf s { t with mem := setPte t.mem p.1 p.2 e } pt (va / pgsize) e := by
  have ht := h.tabled hs
  have hset := setsEntry_setPte (e := e) (fun pg ↦ (Nat.le_add_right _ _).trans (ht.once pg)) hp
  have hnode : nodeCount t.mem 2 pt p.1 ≠ 0 := nodeCount_slot_ne_zero hp
  refine ⟨hset.table ht.table, fun pg ↦ ?_, ?_, fun w hw hne ↦ ?_, fun pg hn hf ↦ ?_, h.suffix⟩
  · rw [hset.nodes]
    exact h.conserves pg
  · rw [← entry_eq_leaf]
    exact hset.same va fun _ _ ↦ rfl
  · have hpath : ¬SamePath 2 va (w * pgsize) := by
      rw [samePath_iff, Nat.mul_div_cancel _ (by decide), Nat.mod_eq_of_lt hw, Nat.mod_eq_of_lt]
      · exact hne
      · show va / 4096 < 134217728
        have hlt : va < 274877906944 := hva
        omega
    rw [leaf, hset.other _ hpath, h.entries, leaf]
  · have hcons := h.conserves pg
    have hne : pg ≠ p.1 := by
      rintro rfl
      omega
    exact (setPte_of_ne _ _ _ _ hne).trans (h.frame pg hn hf)

/-- **`mappages` for one page**: it maps the page, or there was no memory for the page-table pages
that are missing. -/
theorem mappages_spec (hs : Tabled s 2 pt) (hva : va < maxva) (hal : va % pgsize = 0)
    (hnone : hasFlag (leaf s.mem pt (va / pgsize)) pteV = false) :
    wp (mappages pt va pgsize pa perm)
      (fun r t ↦ r = 0 ∧ SetsLeaf s t pt (va / pgsize) (pa2pte pa ||| perm ||| pteV) ∧
          Takes s t (missing s.mem 2 pt va) ∧ Fills s.mem t.mem 2 pt va ∨
        r = -1 ∧ Extends s t 2 pt ∧ ¬Avail s (missing s.mem 2 pt va)) s := by
  have hlt : va < 274877906944 := hva
  have hlast : sub64 (va + pgsize) pgsize = va := by
    rw [sub64, u64, pgsize_eq]
    omega
  rw [mappages, if_neg (not_not.2 hal), if_neg (by decide), if_neg (by decide), hlast, pageTurns,
    mappagesFrom, wp_bind, walk, if_neg (not_le.2 hva)]
  refine (walkFrom_alloc_spec hs).mono fun r t h ↦ ?_
  obtain ⟨hext, hslot, hfail, hok⟩ := h
  cases r with
  | none =>
    rw [wp_pure]
    exact .inr ⟨rfl, hext, hfail rfl⟩
  | some p =>
    obtain ⟨c, i⟩ := p
    have hp := hslot (c, i) rfl
    have hleaf : pte t.mem c i = leaf s.mem pt (va / pgsize) := by
      rw [leaf_of_slot hp, leaf, leaf, hext.entries]
    obtain ⟨htake, hfills⟩ := hok (some_ne_none _)
    have hone : ∀ pg, nodeCount t.mem 2 pt pg ≤ 1 := fun pg ↦
      (Nat.le_add_right _ _).trans ((hext.tabled hs).once pg)
    simp only [wp_bind, wp_loadPte, hleaf, hnone, Bool.false_eq_true, if_false, wp_storePte,
      if_true, wp_pure]
    refine .inl ⟨trivial, hext.setsLeaf hs hva hp, ⟨htake.avail, htake.fails⟩, fun w ↦ ?_⟩
    rw [← hfills w]
    exact missing_setPte hone hp w

/-! ### Counting the pages a user has -/

/-- Whether the entry `e` maps the page `pg`, as a number. -/
def mapsTo (e : Pte) (pg : ℕ) : ℕ := if hasFlag e pteV ∧ pte2pa e = pg then 1 else 0

/-- How often the page `pg` is mapped below `TRAPFRAME`. -/
def leafCount (m : Memory) (pt pg : ℕ) : ℕ := ∑ v : Fin userPages, mapsTo (leaf m pt v) pg

section

omit [Image]

variable {m m' : Memory} {pg : ℕ}

theorem mapsTo_of_valid (h : hasFlag e pteV = true) : mapsTo e (pte2pa e) = 1 :=
  if_pos ⟨h, rfl⟩

theorem mapsTo_of_not_valid (h : hasFlag e pteV = false) (pg : ℕ) : mapsTo e pg = 0 :=
  if_neg fun h' ↦ Bool.false_ne_true (h.symm.trans h'.1)

/-- What `mappages` stores maps the page it was given. -/
theorem mapsTo_pa2pte (ha : pa % pgsize = 0) (hpa : pa < 2 ^ 54) (hp : perm.toNat < 1024) (pg : ℕ) :
    mapsTo (pa2pte pa ||| perm ||| pteV) pg = if pa = pg then 1 else 0 := by
  have hflags : (perm ||| pteV).toNat < 1024 := by
    rw [BitVec.toNat_or]
    exact Nat.or_lt_two_pow (n := 10) hp (by decide)
  rw [mapsTo, hasFlag_or, BitVec.or_assoc, pte2pa_pa2pte_or ha hpa hflags]
  simp [hasFlag]

theorem leafCount_congr (h : ∀ v < userPages, leaf m' pt v = leaf m pt v) (pg : ℕ) :
    leafCount m' pt pg = leafCount m pt pg :=
  sum_congr rfl fun v _ ↦ by rw [h v v.2]

/-- Only the leaf of page `v` has changed. -/
theorem leafCount_add (hv : v < userPages)
    (h : ∀ w < userPages, w ≠ v → leaf m' pt w = leaf m pt w) (pg : ℕ) :
    leafCount m' pt pg + mapsTo (leaf m pt v) pg =
      leafCount m pt pg + mapsTo (leaf m' pt v) pg := by
  refine @sum_add_of_eq_elsewhere (Fin userPages) Pte ℕ _ _ _ (fun w ↦ leaf m pt w)
    (fun w ↦ leaf m' pt w) ⟨v, hv⟩ (fun w hw ↦ ?_) fun e ↦ mapsTo e pg
  exact h w w.2 fun heq ↦ hw (Fin.ext heq)

theorem mapsTo_le_leafCount (hv : v < userPages) : mapsTo (leaf m pt v) pg ≤ leafCount m pt pg := by
  have hle := single_le_sum (s := Finset.univ)
    (f := fun w : Fin userPages ↦ mapsTo (leaf m pt w) pg)
    (fun _ _ ↦ Nat.zero_le _) (mem_univ (⟨v, hv⟩ : Fin userPages))
  exact hle

theorem mapsTo_add_le_leafCount {w : ℕ} (hv : v < userPages) (hw : w < userPages) (hne : v ≠ w) :
    mapsTo (leaf m pt v) pg + mapsTo (leaf m pt w) pg ≤ leafCount m pt pg := by
  have hpair := sum_le_univ_sum_of_nonneg
    (s := {(⟨v, hv⟩ : Fin userPages), (⟨w, hw⟩ : Fin userPages)})
    (f := fun u : Fin userPages ↦ mapsTo (leaf m pt u) pg) (fun _ ↦ Nat.zero_le _)
  rwa [sum_pair fun h ↦ hne (Fin.mk.inj h)] at hpair

end

end Xv6

import Xv6.Library.SumElsewhere
import Xv6.Vm.PageTable

/-!
# What a page table is

A page table of `l + 1` levels is a tree of page-table pages laid out in memory. It is read off the
memory by recursion on the level:

* `nodeCount m l a pg` counts how often the page `pg` occurs among the page-table pages of the tree
  below `a`; counting, rather than collecting, makes "once" and "not at all" arithmetic;
* `slot m l a va` is where the entry for `va` is, and `entry m l a va` what it is, `0` if the tree
  has no page for it;
* `IsTable m l a` says that the valid entries above the last level are pointers, not mappings.

All of them depend on the contents of the tree's own pages only (`Agrees`), which is the frame
property every later argument rests on: pages of different owners do not disturb one another.
-/

namespace Xv6

open Option Finset

/-- The page-table page that entry `i` of the page `a` points to. -/
def subtable (m : Memory) (a : ℕ) (i : Fin 512) : Option ℕ :=
  if hasFlag (pte m a i) pteV then some (pte2pa (pte m a i)) else none

/-- The sum of `f` over the page-table pages that the page `a` points to. -/
def subtableSum (m : Memory) (a : ℕ) (f : ℕ → ℕ) : ℕ := ∑ i, (subtable m a i).elim 0 f

/-- How often `pg` occurs among the page-table pages of the tree below `a`. -/
def nodeCount (m : Memory) : ℕ → ℕ → ℕ → ℕ
  | 0, a, pg => if a = pg then 1 else 0
  | l + 1, a, pg => (if a = pg then 1 else 0) + subtableSum m a fun c ↦ nodeCount m l c pg

/-- Where the entry for `va` is. -/
def slot (m : Memory) : ℕ → ℕ → ℕ → Option (ℕ × Fin 512)
  | 0, a, va => some (a, px 0 va)
  | l + 1, a, va => (subtable m a (px (l + 1) va)).bind fun c ↦ slot m l c va

/-- The entry for `va`. -/
def entry (m : Memory) (l a va : ℕ) : Pte := (slot m l a va).elim 0 fun p ↦ pte m p.1 p.2

/-- The entries above the last level are pointers. -/
def IsTable (m : Memory) : ℕ → ℕ → Prop
  | 0, _ => True
  | l + 1, a => ∀ i c, subtable m a i = some c →
    hasFlag (pte m a i) (pteR ||| pteW ||| pteX) = false ∧ IsTable m l c

section

variable {m m' : Memory} {l a c pg va : ℕ} {i : Fin 512}

theorem le_subtableSum {f : ℕ → ℕ} (h : subtable m a i = some c) : f c ≤ subtableSum m a f := by
  have hle : (subtable m a i).elim 0 f ≤ subtableSum m a f :=
    single_le_sum (f := fun j ↦ (subtable m a j).elim 0 f)
      (fun _ _ ↦ Nat.zero_le _) (mem_univ i)
  rwa [h, elim_some] at hle

theorem add_le_subtableSum {f : ℕ → ℕ} {c' : ℕ} {j : Fin 512} (hij : i ≠ j)
    (hi : subtable m a i = some c) (hj : subtable m a j = some c') :
    f c + f c' ≤ subtableSum m a f := by
  have hpair := sum_le_univ_sum_of_nonneg (s := {i, j})
    (f := fun j ↦ (subtable m a j).elim 0 f) (fun _ ↦ Nat.zero_le _)
  rwa [sum_pair hij, hi, hj, elim_some, elim_some] at hpair

theorem subtableSum_congr {f g : ℕ → ℕ} (hs : ∀ i, subtable m' a i = subtable m a i)
    (hfg : ∀ i c, subtable m a i = some c → g c = f c) :
    subtableSum m' a g = subtableSum m a f := by
  refine sum_congr rfl fun i _ ↦ ?_
  rw [hs]
  cases hc : subtable m a i with
  | none => rfl
  | some c => exact hfg i c hc

/-- Only what is below entry `i` has changed. -/
theorem subtableSum_add {f g : ℕ → ℕ} (hs : ∀ j, j ≠ i → subtable m' a j = subtable m a j)
    (hfg : ∀ j, j ≠ i → ∀ c, subtable m a j = some c → g c = f c) :
    subtableSum m' a g + (subtable m a i).elim 0 f =
      subtableSum m a f + (subtable m' a i).elim 0 g := by
  refine @sum_add_of_eq_elsewhere (Fin 512) ℕ ℕ _ _ _ (fun j ↦ (subtable m a j).elim 0 f)
    (fun j ↦ (subtable m' a j).elim 0 g) i (fun j hj ↦ ?_) fun n ↦ n
  rw [hs j hj]
  cases hc : subtable m a j with
  | none => rfl
  | some c => exact hfg j hj c hc

theorem one_le_nodeCount_self : 1 ≤ nodeCount m l a a := by
  cases l with
  | zero => rw [nodeCount, if_pos rfl]
  | succ l =>
    rw [nodeCount, if_pos rfl]
    exact Nat.le_add_right 1 _

/-- A subtree's pages are pages of the tree, besides the root. -/
theorem nodeCount_child_le (h : subtable m a i = some c) (pg : ℕ) :
    (if a = pg then 1 else 0) + nodeCount m l c pg ≤ nodeCount m (l + 1) a pg := by
  rw [nodeCount]
  exact Nat.add_le_add_left (le_subtableSum (f := fun c ↦ nodeCount m l c pg) h) _

/-- The pages of two subtrees count separately. -/
theorem nodeCount_children_le {c' : ℕ} {j : Fin 512} (hij : i ≠ j) (hi : subtable m a i = some c)
    (hj : subtable m a j = some c') (pg : ℕ) :
    nodeCount m l c pg + nodeCount m l c' pg ≤ nodeCount m (l + 1) a pg := by
  rw [nodeCount]
  exact le_trans (add_le_subtableSum (f := fun c ↦ nodeCount m l c pg) hij hi hj)
    (Nat.le_add_left _ _)

/-- The memories `m` and `m'` agree on the pages of the tree below `a`. -/
def Agrees (m m' : Memory) (l a : ℕ) : Prop := ∀ pg, nodeCount m l a pg ≠ 0 → m' pg = m pg

theorem Agrees.subtable_eq (h : Agrees m m' l a) (i : Fin 512) :
    subtable m' a i = subtable m a i := by
  have ha : m' a = m a := h a (Nat.one_le_iff_ne_zero.1 one_le_nodeCount_self)
  rw [subtable, subtable, pte, pte, ha]

theorem Agrees.child (h : Agrees m m' (l + 1) a) (hc : subtable m a i = some c) :
    Agrees m m' l c := fun pg hpg ↦
  h pg (by have := nodeCount_child_le (l := l) hc pg; omega)

theorem Agrees.nodeCount_eq (h : Agrees m m' l a) (pg : ℕ) :
    nodeCount m' l a pg = nodeCount m l a pg := by
  induction l generalizing a with
  | zero => rw [nodeCount, nodeCount]
  | succ l ih =>
    rw [nodeCount, nodeCount]
    rw [subtableSum_congr h.subtable_eq fun i c hc ↦ ih (h.child hc)]

theorem Agrees.slot_eq (h : Agrees m m' l a) (va : ℕ) : slot m' l a va = slot m l a va := by
  induction l generalizing a with
  | zero => rw [slot, slot]
  | succ l ih =>
    rw [slot, slot, h.subtable_eq]
    cases hc : subtable m a (px (l + 1) va) with
    | none => rfl
    | some c => exact ih (h.child hc)

/-- The page that holds the entry for `va` belongs to the tree. -/
theorem nodeCount_slot_ne_zero {p : ℕ × Fin 512} (h : slot m l a va = some p) :
    nodeCount m l a p.1 ≠ 0 := by
  induction l generalizing a with
  | zero =>
    rw [slot, some_inj] at h
    rw [← h, nodeCount, if_pos rfl]
    exact one_ne_zero
  | succ l ih =>
    obtain ⟨c, hc, hslot⟩ := bind_eq_some_iff.1 h
    have hle := nodeCount_child_le (l := l) hc p.1
    have hne := ih hslot
    omega

theorem Agrees.entry_eq (h : Agrees m m' l a) (va : ℕ) : entry m' l a va = entry m l a va := by
  rw [entry, entry, h.slot_eq]
  cases hp : slot m l a va with
  | none => rfl
  | some p => simp only [elim_some, pte, h p.1 (nodeCount_slot_ne_zero hp)]

theorem Agrees.isTable (h : Agrees m m' l a) (ht : IsTable m l a) : IsTable m' l a := by
  induction l generalizing a with
  | zero => trivial
  | succ l ih =>
    intro i c hc
    have ha : m' a = m a := h a (Nat.one_le_iff_ne_zero.1 one_le_nodeCount_self)
    rw [h.subtable_eq] at hc
    rw [pte, ha]
    exact ⟨(ht i c hc).1, ih (h.child hc) (ht i c hc).2⟩

theorem entry_succ (h : subtable m a (px (l + 1) va) = some c) :
    entry m (l + 1) a va = entry m l c va := by
  rw [entry, slot, h, bind_some, entry]

theorem entry_succ_of_none (h : subtable m a (px (l + 1) va) = none) :
    entry m (l + 1) a va = 0 := by
  rw [entry, slot, h, bind_none, elim_none]

theorem entry_eq_pte {p : ℕ × Fin 512} (h : slot m l a va = some p) :
    entry m l a va = pte m p.1 p.2 := by
  rw [entry, h, elim_some]

/-! ### Changing one subtree -/

/-- The memories `m` and `m'` agree on the page `a` and the trees below it, but for entry `j` and
what is below it. -/
structure AgreesBut (m m' : Memory) (l a : ℕ) (j : Fin 512) : Prop where
  pte_eq : ∀ k, k ≠ j → pte m' a k = pte m a k
  agrees : ∀ k, k ≠ j → ∀ c, subtable m a k = some c → Agrees m m' l c

namespace AgreesBut

variable {j : Fin 512}

theorem subtable_eq (h : AgreesBut m m' l a j) {k : Fin 512} (hk : k ≠ j) :
    subtable m' a k = subtable m a k := by
  rw [subtable, subtable, h.pte_eq k hk]

theorem nodeCount_add (h : AgreesBut m m' l a j) (pg : ℕ) :
    nodeCount m' (l + 1) a pg + (subtable m a j).elim 0 (fun c ↦ nodeCount m l c pg) =
      nodeCount m (l + 1) a pg + (subtable m' a j).elim 0 fun c ↦ nodeCount m' l c pg := by
  have hsum := subtableSum_add (f := fun c ↦ nodeCount m l c pg)
    (g := fun c ↦ nodeCount m' l c pg) (i := j) (fun k hk ↦ h.subtable_eq hk)
    fun k hk c hc ↦ (h.agrees k hk c hc).nodeCount_eq pg
  rw [nodeCount, nodeCount]
  omega

theorem entry_eq (h : AgreesBut m m' l a j) {va : ℕ} (hj : px (l + 1) va ≠ j) :
    entry m' (l + 1) a va = entry m (l + 1) a va := by
  have hsub := h.subtable_eq hj
  cases hk : subtable m a (px (l + 1) va) with
  | none => rw [entry_succ_of_none hk, entry_succ_of_none (by rw [hsub, hk])]
  | some c =>
    rw [entry_succ hk, entry_succ (by rw [hsub, hk]), (h.agrees _ hj c hk).entry_eq]

theorem isTable (h : AgreesBut m m' l a j) (hm : IsTable m (l + 1) a)
    (hj : ∀ c, subtable m' a j = some c →
      hasFlag (pte m' a j) (pteR ||| pteW ||| pteX) = false ∧ IsTable m' l c) :
    IsTable m' (l + 1) a := by
  intro k c hc
  by_cases hk : k = j
  · subst hk
    exact hj c hc
  · rw [h.subtable_eq hk] at hc
    rw [h.pte_eq k hk]
    exact ⟨(hm k c hc).1, (h.agrees k hk c hc).isTable (hm k c hc).2⟩

end AgreesBut

/-! ### Empty tables -/

/-- A page of zeros is a page table without pages below it and without entries. -/
theorem subtable_of_zeros (h : m a = filled 0) (i : Fin 512) : subtable m a i = none := by
  rw [subtable, pte_of_zeros h]
  rfl

theorem nodeCount_of_zeros (h : m a = filled 0) (l pg : ℕ) :
    nodeCount m l a pg = if a = pg then 1 else 0 := by
  cases l with
  | zero => rw [nodeCount]
  | succ l => simp only [nodeCount, subtableSum, subtable_of_zeros h, elim_none,
      sum_const_zero, add_zero]

theorem entry_of_zeros (h : m a = filled 0) (l va : ℕ) : entry m l a va = 0 := by
  cases l with
  | zero => rw [entry, slot, elim_some, pte_of_zeros h]
  | succ l => exact entry_succ_of_none (subtable_of_zeros h _)

theorem isTable_of_zeros (h : m a = filled 0) (l : ℕ) : IsTable m l a := by
  cases l with
  | zero => trivial
  | succ l =>
    intro i c hc
    rw [subtable_of_zeros h] at hc
    exact absurd hc (by simp)

/-! ### Setting an entry -/

/-- `va` and `w` have the same index at every level up to `l`. -/
def SamePath (l va w : ℕ) : Prop := ∀ k ≤ l, px k w = px k va

theorem samePath_succ {w : ℕ} :
    SamePath (l + 1) va w ↔ px (l + 1) w = px (l + 1) va ∧ SamePath l va w := by
  refine ⟨fun h ↦ ⟨h _ le_rfl, fun k hk ↦ h k (hk.trans (Nat.le_succ l))⟩, fun h k hk ↦ ?_⟩
  rcases Nat.le_succ_iff.1 hk with hk | rfl
  · exact h.2 k hk
  · exact h.1

/-- From `m` to `m'` the entry for `va` has been set to `e`, and the tree has stayed. -/
structure SetsEntry (m m' : Memory) (l a va : ℕ) (e : Pte) : Prop where
  nodes : ∀ pg, nodeCount m' l a pg = nodeCount m l a pg
  table : IsTable m l a → IsTable m' l a
  same : ∀ w, SamePath l va w → entry m' l a w = e
  other : ∀ w, ¬SamePath l va w → entry m' l a w = entry m l a w

/-- A store to the slot of `va` is in one subtree, as no page occurs twice in the tree. -/
theorem agreesBut_setPte {p : ℕ × Fin 512} {e : Pte} (hone : ∀ pg, nodeCount m (l + 1) a pg ≤ 1)
    (h : slot m (l + 1) a va = some p) :
    ∃ d, subtable m a (px (l + 1) va) = some d ∧ slot m l d va = some p ∧
      (∀ pg, nodeCount m l d pg ≤ 1) ∧ (∀ k, pte (setPte m p.1 p.2 e) a k = pte m a k) ∧
      subtable (setPte m p.1 p.2 e) a (px (l + 1) va) = some d ∧
      AgreesBut m (setPte m p.1 p.2 e) l a (px (l + 1) va) := by
  obtain ⟨d, hd, hslot⟩ := bind_eq_some_iff.1 h
  have hp : nodeCount m l d p.1 ≠ 0 := nodeCount_slot_ne_zero hslot
  have hdle : ∀ pg, (if a = pg then 1 else 0) + nodeCount m l d pg ≤ 1 := fun pg ↦
    (nodeCount_child_le hd pg).trans (hone pg)
  have hap : a ≠ p.1 := fun heq ↦ by
    have hle := hdle p.1
    rw [if_pos heq] at hle
    omega
  have hpte : ∀ k, pte (setPte m p.1 p.2 e) a k = pte m a k := fun k ↦ by
    rw [pte, setPte_of_ne _ _ _ _ hap, pte]
  refine ⟨d, hd, hslot, fun pg ↦ (Nat.le_add_left _ _).trans (hdle pg), hpte,
    by rw [← hd, subtable, subtable, hpte], fun k _ ↦ hpte k, fun k hk c hc pg hpg ↦ ?_⟩
  refine setPte_of_ne _ _ _ _ ?_
  rintro rfl
  have hle := (nodeCount_children_le (l := l) hk hc hd p.1).trans (hone p.1)
  omega

/-- A store to the slot of `va` sets the entry for `va`. -/
theorem setsEntry_setPte {p : ℕ × Fin 512} {e : Pte} (hone : ∀ pg, nodeCount m l a pg ≤ 1)
    (h : slot m l a va = some p) : SetsEntry m (setPte m p.1 p.2 e) l a va e := by
  induction l generalizing a with
  | zero =>
    rw [slot, some_inj] at h
    subst h
    refine ⟨fun pg ↦ by rw [nodeCount, nodeCount], fun _ ↦ trivial, fun w hw ↦ ?_, fun w hw ↦ ?_⟩
    · rw [entry, slot, elim_some, hw 0 le_rfl, pte_setPte_self]
    · have hne : px 0 w ≠ px 0 va := fun heq ↦ hw fun k hk ↦ by
        rw [Nat.le_zero.1 hk, heq]
      rw [entry, slot, elim_some, pte_setPte_of_ne _ _ _ _ hne, entry, slot,
        elim_some]
  | succ l ih =>
    obtain ⟨d, hd, hslot, hone', hpte, hsub, hbut⟩ := agreesBut_setPte (e := e) hone h
    obtain ⟨hnodes, htable, hsame, hother⟩ := ih hone' hslot
    refine ⟨fun pg ↦ ?_, fun ht ↦ hbut.isTable ht fun c hc ↦ ?_, fun w hw ↦ ?_, fun w hw ↦ ?_⟩
    · have hadd := hbut.nodeCount_add pg
      rw [hd, hsub, elim_some, elim_some, hnodes] at hadd
      omega
    · rw [hsub, some_inj] at hc
      subst hc
      rw [hpte]
      exact ⟨(ht _ d hd).1, htable (ht _ d hd).2⟩
    · obtain ⟨hpx, hw⟩ := samePath_succ.1 hw
      rw [entry_succ (by rw [hpx, hsub]), hsame w hw]
    · by_cases hpx : px (l + 1) w = px (l + 1) va
      · rw [entry_succ (by rw [hpx, hsub]), entry_succ (by rw [hpx, hd]),
          hother w fun h ↦ hw (samePath_succ.2 ⟨hpx, h⟩)]
      · exact hbut.entry_eq hpx

/-! ### Page-table pages that are missing -/

variable {w : ℕ}

/-- How many page-table pages are missing on the way to the entry for `va`. -/
def missing (m : Memory) : ℕ → ℕ → ℕ → ℕ
  | 0, _, _ => 0
  | l + 1, a, va => (subtable m a (px (l + 1) va)).elim (l + 1) fun c ↦ missing m l c va

/-- The highest level on which two addresses have different indices, `0` for the lowest. -/
def parting (va w : ℕ) : ℕ → ℕ
  | 0 => 0
  | l + 1 => if px (l + 1) w = px (l + 1) va then parting va w l else l + 1

theorem missing_succ (h : subtable m a (px (l + 1) va) = some c) :
    missing m (l + 1) a va = missing m l c va := by
  rw [missing, h, elim_some]

theorem missing_succ_of_none (h : subtable m a (px (l + 1) va) = none) :
    missing m (l + 1) a va = l + 1 := by
  rw [missing, h, elim_none]

theorem missing_le : missing m l a va ≤ l := by
  induction l generalizing a with
  | zero => exact le_rfl
  | succ l ih =>
    cases h : subtable m a (px (l + 1) va) with
    | none => exact (missing_succ_of_none h).le
    | some c => exact (missing_succ h).le.trans (ih.trans (Nat.le_succ l))

theorem parting_le : parting va w l ≤ l := by
  induction l with
  | zero => exact le_rfl
  | succ l ih =>
    rw [parting]
    split_ifs
    · exact ih.trans (Nat.le_succ l)
    · exact le_rfl

theorem missing_of_zeros (h : m a = filled 0) : missing m l a va = l := by
  cases l with
  | zero => rfl
  | succ l => exact missing_succ_of_none (subtable_of_zeros h _)

theorem Agrees.missing_eq (h : Agrees m m' l a) (va : ℕ) :
    missing m' l a va = missing m l a va := by
  induction l generalizing a with
  | zero => rfl
  | succ l ih =>
    have hsub := h.subtable_eq (px (l + 1) va)
    cases hc : subtable m a (px (l + 1) va) with
    | none => rw [missing_succ_of_none hc, missing_succ_of_none (hsub.trans hc)]
    | some c => rw [missing_succ hc, missing_succ (hsub.trans hc), ih (h.child hc)]

theorem AgreesBut.missing_eq {j : Fin 512} (h : AgreesBut m m' l a j) (hw : px (l + 1) w ≠ j) :
    missing m' (l + 1) a w = missing m (l + 1) a w := by
  have hsub := h.subtable_eq hw
  cases hk : subtable m a (px (l + 1) w) with
  | none => rw [missing_succ_of_none hk, missing_succ_of_none (hsub.trans hk)]
  | some d => rw [missing_succ hk, missing_succ (hsub.trans hk), (h.agrees _ hw d hk).missing_eq]

/-- A store to an entry of the lowest level makes no difference. -/
theorem missing_setPte {p : ℕ × Fin 512} {e : Pte} (hone : ∀ pg, nodeCount m l a pg ≤ 1)
    (h : slot m l a va = some p) (w : ℕ) :
    missing (setPte m p.1 p.2 e) l a w = missing m l a w := by
  induction l generalizing a with
  | zero => rfl
  | succ l ih =>
    obtain ⟨d, hd, hslot, hone', -, hsub, hbut⟩ := agreesBut_setPte (e := e) hone h
    by_cases hpx : px (l + 1) w = px (l + 1) va
    · rw [missing_succ (by rw [hpx, hsub]), missing_succ (by rw [hpx, hd]), ih hone' hslot]
    · exact hbut.missing_eq hpx

/-- What a walk that makes page-table pages leaves missing. -/
def Fills (m m' : Memory) (l a va : ℕ) : Prop :=
  ∀ w, missing m' l a w = min (missing m l a w) (parting va w l)

/-- A walk below a page of the tree is a walk in the tree. -/
theorem Fills.lift (hbut : AgreesBut m m' l a (px (l + 1) va))
    (hd : subtable m a (px (l + 1) va) = some c) (hd' : subtable m' a (px (l + 1) va) = some c)
    (h : Fills m m' l c va) : Fills m m' (l + 1) a va := by
  intro w
  rw [parting]
  by_cases hpx : px (l + 1) w = px (l + 1) va
  · rw [if_pos hpx, missing_succ (by rw [hpx, hd']), missing_succ (by rw [hpx, hd]), h w]
  · rw [if_neg hpx, min_eq_left missing_le, hbut.missing_eq hpx]

end

end Xv6

import Xv6.Vm.Space

/-!
# How much memory a page takes

A page of memory takes one page of the free list for itself and one for each page-table page that is
`missing` on the way to its entry, and it is refused exactly if they are not available. The
page-table pages that it makes are there for later pages: `missing` after a walk is the least of
what it was and of the level on which the two addresses part (`parting`). For a set of pages, the
page-table pages are counted once (`demand`).
-/

namespace Xv6

open Function Finset

variable {s t u : Phys} {m m' : Memory} {l a c pt v w va : ℕ}

variable [Image]

omit [Image] in
theorem SameView.gains {e : Pte} (h : SameView s t pt) (h' : Gains t u pt v e) :
    Gains s u pt v e := by
  refine ⟨h'.self, fun x hx hne ↦ (h'.other x hx hne).trans (h.leaf_eq x), fun pg hpg ↦ ?_⟩
  rw [h'.contents pg (by rwa [leafCount_congr fun x _ ↦ h.leaf_eq x]), h.contents pg hpg]

namespace Space

variable {S : Estate} {M : Memory} {hand : List ℕ} {r : ℕ} {perm : Pte} {x : Page}

/-- `kalloc`: nothing, exactly if no page is available, or a page in hand. -/
theorem kalloc {Q : ℕ → Phys → Prop} (h : Space S M s pt hand)
    (hnull : ∀ t : Phys, Space S M t pt hand → SameView s t pt → ¬Avail s 1 → Q 0 t)
    (hpage : ∀ r, ∀ t : Phys, r ∈ s.freelist → t.freelist ⊆ s.freelist → IsPage r →
      Space S M t pt (r :: hand) → SameView s t pt → Agrees s.mem t.mem 2 pt → Takes s t 1 →
      Q r t) :
    wp Xv6.kalloc Q s := by
  refine kalloc_spec (fun t hm hf hno ↦ ?_) fun r rs t hfree hf hm htake ↦ ?_
  · have ht := h.rewrite (t := t) (g := hand) (fun pg hne ↦ absurd (by rw [hm]) hne)
      fun pg ↦ by rw [hf]
    exact hnull t ht.1 (.refl hm) hno
  · obtain ⟨hr, hnode, ht, hview⟩ := h.take_page hfree hf hm
    refine hpage r t (hfree ▸ List.mem_cons_self) ?_ hr ht hview (fun pg hpg ↦ ?_) htake
    · rw [hfree, hf]
      exact List.subset_cons_self r rs
    · rw [hm]
      refine update_of_ne ?_ _ _
      rintro rfl
      exact hpg hnode

/-- `mappages` of a page in hand; if it fails, the page is freed. -/
theorem map_hand {α : Type} {Q : α → Phys → Prop} {fail next : KM α}
    (h : Space S M s pt (r :: hand)) (hv : v < userPages) (hperm : perm.toNat < 1024)
    (hnone : hasFlag (leaf s.mem pt v) pteV = false)
    (hfail : ∀ t : Phys, Space S M t pt hand → SameView s t pt →
      ¬Avail s (missing s.mem 2 pt (v * pgsize)) → wp fail Q t)
    (hnext : ∀ t : Phys, Space S M t pt hand → Gains s t pt v (pa2pte r ||| perm ||| pteV) →
      t.mem r = s.mem r → t.freelist ⊆ s.freelist → Takes s t (missing s.mem 2 pt (v * pgsize)) →
      Fills s.mem t.mem 2 pt (v * pgsize) → wp next Q t) :
    wp (do
      let q ← Xv6.mappages pt (v * pgsize) pgsize r perm
      if q ≠ 0 then do
        Xv6.kfree r
        fail
      else next) Q s := by
  have hpage : v * pgsize / pgsize = v := Nat.mul_div_cancel _ (by decide)
  have hva : v * pgsize < trapframeVa := by
    rw [userPages_eq] at hv
    show v * 4096 < 274877898752
    omega
  rw [wp_bind]
  refine (h.mappages hva (Nat.mul_mod_left _ _) hperm (by rwa [hpage])).mono fun q t hq ↦ ?_
  rw [hpage] at hq
  rcases hq with ⟨rfl, ht, hgain, hmem, hsub, htake, hfills⟩ | ⟨rfl, ht, hview, hno⟩
  · rw [if_neg (not_not.2 rfl)]
    exact hnext t ht hgain hmem hsub htake hfills
  · rw [if_pos (by decide), wp_bind]
    exact ht.kfree fun u hu hview' ↦ hfail u hu (hview.trans hview') hno

/-- **How memory is given**: a page is taken from the free list, written and mapped. -/
theorem give_page {α : Type} {Q : α → Phys → Prop} {fail : KM α} {body : ℕ → KM α}
    (h : Space S M s pt hand) (next : ℕ → KM α) (hv : v < userPages) (hperm : perm.toNat < 1024)
    (hnone : hasFlag (leaf s.mem pt v) pteV = false)
    (hbody : ∀ r, ∀ t : Phys, Space S M t pt (r :: hand) →
      wp (do
        let q ← Xv6.mappages pt (v * pgsize) pgsize r perm
        if q ≠ 0 then do
          Xv6.kfree r
          fail
        else next r) Q { t with mem := update t.mem r x } → wp (body r) Q t)
    (hfail : ∀ t : Phys, Space S M t pt hand → SameView s t pt →
      ¬Avail s (missing s.mem 2 pt (v * pgsize) + 1) → wp fail Q t)
    (hnext : ∀ r, ∀ t : Phys, r ∈ s.freelist → IsPage r → Space S M t pt hand →
      Gains s t pt v (pa2pte r ||| perm ||| pteV) → t.mem r = x → t.freelist ⊆ s.freelist →
      Takes s t (missing s.mem 2 pt (v * pgsize) + 1) → Fills s.mem t.mem 2 pt (v * pgsize) →
      wp (next r) Q t) :
    wp (do
      let mem ← Xv6.kalloc
      if mem = 0 then fail else body mem) Q s := by
  rw [wp_bind]
  refine h.kalloc (fun t ht hview hno ↦ ?_) fun r t hmem hsub hr ht hview hagrees hone ↦ ?_
  · rw [if_pos rfl]
    exact hfail t ht hview fun h' ↦ hno (h'.mono (Nat.le_add_left 1 _))
  rw [if_neg hr.pos.ne']
  refine hbody r t ht ?_
  obtain ⟨hw, hview'⟩ := ht.store_hand (b := x)
  have hsame := hview.trans hview'
  have hagrees' : Agrees s.mem (update t.mem r x) 2 pt := fun pg hpg ↦ by
    rw [update_of_ne, hagrees pg hpg]
    rintro rfl
    have hstock := ht.stock pg
    have hle := S.le_one pg
    rw [List.count_cons_self, hagrees.nodeCount_eq] at hstock
    omega
  have hone' : Takes s { t with mem := update t.mem r x } 1 := ⟨hone.avail, hone.fails⟩
  have hmissing := hagrees'.missing_eq (v * pgsize)
  refine hw.map_hand hv hperm (by rw [← hnone, ← hsame.leaf_eq]) (fun u hu hview'' hno ↦ ?_)
    fun u hu hgain hmem' hsub' htake hfills ↦ ?_
  · refine hfail u hu (hsame.trans hview'') fun h' ↦ hno ?_
    rw [hmissing]
    exact (hone'.avail _).1 h'
  · refine hnext r u hmem hr hu (hsame.gains hgain) ?_ (fun _ hpg ↦ hsub (hsub' hpg))
      (hmissing ▸ hone'.trans htake) fun y ↦ ?_
    · rw [hmem']
      exact update_self _ _ _
    · rw [hfills y, hagrees'.missing_eq]

end Space

/-! ### Sets of pages -/

section

omit [Image]

/-- Groups that a set has an element with `p` in, counted once: those that are left when the group
of one element is settled. -/
theorem card_image_filter_erase {P : Finset ℕ} {f : ℕ → ℕ} {p q : ℕ → Prop} [DecidablePred p]
    [DecidablePred q] (hv : v ∈ P) (hq : ∀ w ∈ P, q w ↔ p w ∧ f w ≠ f v)
    (hp : ∀ w ∈ P, f w = f v → (p w ↔ p v)) :
    ((P.filter p).image f).card =
      (((P.erase v).filter q).image f).card + if p v then 1 else 0 := by
  have herase : ((P.erase v).filter q).image f = ((P.filter p).image f).erase (f v) := by
    ext x
    simp only [mem_image, mem_filter, mem_erase]
    constructor
    · rintro ⟨w, ⟨⟨-, hw⟩, hqw⟩, rfl⟩
      exact ⟨((hq w hw).1 hqw).2, w, ⟨hw, ((hq w hw).1 hqw).1⟩, rfl⟩
    · rintro ⟨hne, w, ⟨hw, hpw⟩, rfl⟩
      refine ⟨w, ⟨⟨?_, hw⟩, (hq w hw).2 ⟨hpw, hne⟩⟩, rfl⟩
      rintro rfl
      exact hne rfl
  rw [herase]
  split_ifs with hpv
  · exact (card_erase_add_one
      (mem_image.2 ⟨v, mem_filter.2 ⟨hv, hpv⟩, rfl⟩)).symm
  · rw [erase_eq_of_notMem, add_zero]
    intro hmem
    obtain ⟨w, hw, heq⟩ := mem_image.1 hmem
    rw [mem_filter] at hw
    exact hpv ((hp w hw.1 heq).1 hw.2)

/-- Page-table pages, by the page numbers whose entries they have or lead to. -/
theorem px_one_eq (hv : v < 2 ^ 27) (hw : w < 2 ^ 27) :
    (px 2 (w * pgsize) = px 2 (v * pgsize) ↔ w / 512 / 512 = v / 512 / 512) ∧
      (px 2 (w * pgsize) = px 2 (v * pgsize) ∧ px 1 (w * pgsize) = px 1 (v * pgsize) ↔
        w / 512 = v / 512) := by
  rw [px_eq_px, px_eq_px]
  show (w * 4096 / 1073741824 % 512 = v * 4096 / 1073741824 % 512 ↔ _) ∧
    (w * 4096 / 1073741824 % 512 = v * 4096 / 1073741824 % 512 ∧
      w * 4096 / 2097152 % 512 = v * 4096 / 2097152 % 512 ↔ _)
  omega

theorem missing_eq_two : missing m 2 pt va = 2 ↔ subtable m pt (px 2 va) = none := by
  cases h : subtable m pt (px 2 va) with
  | none => simp [missing_succ_of_none h]
  | some c =>
    have hle : missing m 1 c va ≤ 1 := missing_le
    rw [missing_succ h]
    simp only [reduceCtorEq, iff_false]
    omega

theorem missing_congr {x : ℕ} (h : px 2 x = px 2 va ∧ px 1 x = px 1 va) :
    missing m 2 pt x = missing m 2 pt va := by
  rw [missing, missing, h.1]
  cases subtable m pt (px 2 va) with
  | none => rfl
  | some c =>
    show missing m 1 c x = missing m 1 c va
    rw [missing, missing, h.2]
    rfl

/-- The number of pages it takes to give memory to every page of `P`: one for each, and the
page-table pages of the two lower levels that are missing. -/
def demand (m : Memory) (pt : ℕ) (P : Finset ℕ) : ℕ :=
  P.card + ((P.filter fun v ↦ missing m 2 pt (v * pgsize) ≠ 0).image (· / 512)).card +
    ((P.filter fun v ↦ missing m 2 pt (v * pgsize) = 2).image (· / 512 / 512)).card

theorem demand_singleton (m : Memory) (pt v : ℕ) :
    demand m pt {v} = missing m 2 pt (v * pgsize) + 1 := by
  have hle : missing m 2 pt (v * pgsize) ≤ 2 := missing_le
  rw [demand, filter_singleton, filter_singleton, card_singleton]
  split_ifs <;> simp <;> omega

/-- Giving memory to one page leaves the rest of the demand. -/
theorem demand_erase {P : Finset ℕ} (hP : ∀ w ∈ P, w < 2 ^ 27) (hv : v ∈ P)
    (h : Fills m m' 2 pt (v * pgsize)) :
    demand m pt P = demand m' pt (P.erase v) + (missing m 2 pt (v * pgsize) + 1) := by
  have hparting : ∀ w ∈ P, parting (v * pgsize) (w * pgsize) 2 =
      if w / 512 / 512 ≠ v / 512 / 512 then 2 else if w / 512 ≠ v / 512 then 1 else 0 := by
    intro w hw
    obtain ⟨htop, hboth⟩ := px_one_eq (hP v hv) (hP w hw)
    rw [parting, parting, parting]
    by_cases h2 : px 2 (w * pgsize) = px 2 (v * pgsize)
    · rw [if_pos h2, if_neg (not_not.2 (htop.1 h2))]
      by_cases h1 : px 1 (w * pgsize) = px 1 (v * pgsize)
      · rw [if_pos h1, if_neg (not_not.2 (hboth.1 ⟨h2, h1⟩))]
      · rw [if_neg h1, if_pos fun heq ↦ h1 (hboth.2 heq).2]
    · rw [if_neg h2, if_pos fun heq ↦ h2 (htop.2 heq)]
  have hlow := card_image_filter_erase (f := (· / 512))
    (p := fun w ↦ missing m 2 pt (w * pgsize) ≠ 0) (q := fun w ↦ missing m' 2 pt (w * pgsize) ≠ 0)
    hv (fun w hw ↦ ?_) fun w hw heq ↦ ?_
  rotate_left
  · rw [h, hparting w hw]
    split_ifs <;> omega
  · rw [missing_congr ((px_one_eq (hP v hv) (hP w hw)).2.2 heq)]
  have hhigh := card_image_filter_erase (f := (· / 512 / 512))
    (p := fun w ↦ missing m 2 pt (w * pgsize) = 2) (q := fun w ↦ missing m' 2 pt (w * pgsize) = 2)
    hv (fun w hw ↦ ?_) fun w hw heq ↦ ?_
  rotate_left
  · have hle : missing m 2 pt (w * pgsize) ≤ 2 := missing_le
    rw [h, hparting w hw]
    split_ifs <;> omega
  · rw [missing_eq_two, missing_eq_two, (px_one_eq (hP v hv) (hP w hw)).1.2 heq]
  have hcard := card_erase_add_one hv
  have hle : missing m 2 pt (v * pgsize) ≤ 2 := missing_le
  rw [demand, demand, hlow, hhigh]
  split_ifs <;> omega

/-- A smaller set has a smaller demand. -/
theorem demand_mono {P R : Finset ℕ} (h : P ⊆ R) : demand m pt P ≤ demand m pt R :=
  Nat.add_le_add (Nat.add_le_add (card_le_card h)
    (card_le_card (image_subset_image (filter_subset_filter _ h))))
    (card_le_card (image_subset_image (filter_subset_filter _ h)))

theorem demand_congr {P : Finset ℕ}
    (h : ∀ v ∈ P, missing m' 2 pt (v * pgsize) = missing m 2 pt (v * pgsize)) :
    demand m' pt P = demand m pt P := by
  rw [demand, demand, filter_congr fun v hv ↦ by rw [h v hv],
    filter_congr (p := fun v ↦ missing m' 2 pt (v * pgsize) = 2) fun v hv ↦ by rw [h v hv]]

end

end Xv6

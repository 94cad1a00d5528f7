import Xv6.Vm.Supply
import Xv6.Vm.View

/-!
# Page faults

`vmfault` gives memory to a page that has none, and the program cannot tell: its view stays
(`Space.vmfault`). The copies between kernel and user go page by page through `walkaddr` and
`vmfault`; what their loops need from one turn is collected in `Pager`, so that the loops are run
through once (`Pager.copyin`, `Pager.copyout`) for whatever is assumed about memory.
-/

namespace Xv6

open Function Option Finset

/-- From `s` to `t` nothing has happened that the program could see, and nothing at the top of the
address space. -/
structure SameUser (s t : Phys) (pt sz : ℕ) : Prop where
  view : completed t.mem pt sz = completed s.mem pt sz
  kept : ∀ v < userPages, hasFlag (leaf s.mem pt v) pteV = true →
    leaf t.mem pt v = leaf s.mem pt v
  top : ∀ v, userPages ≤ v → v < 2 ^ 27 → leaf t.mem pt v = leaf s.mem pt v

/-- From `s` to `t` the program's pages and permissions have stayed, but not what is in them. -/
structure SameShape (s t : Phys) (pt sz : ℕ) : Prop where
  flags : ∀ v, (completed t.mem pt sz v).map Prod.fst = (completed s.mem pt sz v).map Prod.fst
  top : ∀ v, userPages ≤ v → v < 2 ^ 27 → leaf t.mem pt v = leaf s.mem pt v

/-- The user's page `v` is in the physical page `pa`. -/
structure Reaches (m : Memory) (pt v pa : ℕ) : Prop where
  lt : v < userPages
  valid : hasFlag (leaf m pt v) pteV = true
  user : hasFlag (leaf m pt v) pteU = true
  pa_eq : pte2pa (leaf m pt v) = pa

variable {s t u : Phys} {pt sz v va pa r : ℕ}

/-- `walk` finds the entry of a page that is reached. -/
theorem Reaches.slot (h : Reaches s.mem pt (va / pgsize) pa) :
    ∃ c i, Xv6.slot s.mem 2 pt (pgRoundDown va) = some (c, i) ∧
      pte s.mem c i = leaf s.mem pt (va / pgsize) := by
  have hdown : pgRoundDown va / pgsize = va / pgsize := Nat.mul_div_cancel _ (by decide)
  cases hp : Xv6.slot s.mem 2 pt (pgRoundDown va) with
  | some p => exact ⟨p.1, p.2, rfl, hdown ▸ leaf_of_slot hp⟩
  | none =>
    have hzero := leaf_of_slot_none hp
    rw [hdown] at hzero
    exact absurd h.valid (by rw [hzero, hasFlag_zero]; exact Bool.false_ne_true)

theorem SameUser.refl : SameUser s s pt sz := ⟨rfl, fun _ _ _ ↦ rfl, fun _ _ _ ↦ rfl⟩

theorem SameUser.trans (h : SameUser s t pt sz) (h' : SameUser t u pt sz) :
    SameUser s u pt sz where
  view := h'.view.trans h.view
  kept v hv hV := by rw [h'.kept v hv (by rwa [h.kept v hv hV]), h.kept v hv hV]
  top v hv hlt := (h'.top v hv hlt).trans (h.top v hv hlt)

theorem SameUser.sameShape (h : SameUser s t pt sz) : SameShape s t pt sz :=
  ⟨fun v ↦ by rw [h.view], h.top⟩

theorem SameShape.trans (h : SameShape s t pt sz) (h' : SameShape t u pt sz) :
    SameShape s u pt sz :=
  ⟨fun v ↦ (h'.flags v).trans (h.flags v), fun v hv hlt ↦ (h'.top v hv hlt).trans (h.top v hv hlt)⟩

theorem leafCount_ne_zero {m : Memory} (hv : v < userPages)
    (hV : hasFlag (leaf m pt v) pteV = true) : leafCount m pt (pte2pa (leaf m pt v)) ≠ 0 := by
  have hle : mapsTo (leaf m pt v) (pte2pa (leaf m pt v)) ≤
    leafCount m pt (pte2pa (leaf m pt v)) := mapsTo_le_leafCount hv
  rw [mapsTo_of_valid hV] at hle
  omega

/-- Where the leaf and the contents of what it maps are the same, so is the view. -/
theorem mapped_congr {m m' : Memory} (hleaf : leaf m' pt v = leaf m pt v)
    (hmem : v < userPages → hasFlag (leaf m pt v) pteV = true →
      m' (pte2pa (leaf m pt v)) = m (pte2pa (leaf m pt v))) :
    mapped m' pt v = mapped m pt v := by
  rw [mapped, mapped, hleaf]
  by_cases h : v < userPages ∧ hasFlag (leaf m pt v) pteV
  · rw [if_pos h, if_pos h, hmem h.1 h.2]
  · rw [if_neg h, if_neg h]

theorem completed_congr {m m' : Memory} (h : mapped m' pt v = mapped m pt v) :
    completed m' pt sz v = completed m pt sz v := by rw [completed, completed, h]

theorem SameView.mapped_eq (h : SameView s t pt) : mapped t.mem pt = mapped s.mem pt :=
  funext fun v ↦ mapped_congr (h.leaf_eq v) fun hv hV ↦ h.contents _ (leafCount_ne_zero hv hV)

theorem SameView.sameUser (h : SameView s t pt) : SameUser s t pt sz :=
  ⟨funext fun v ↦ completed_congr (congrFun h.mapped_eq v), fun v _ _ ↦ h.leaf_eq v,
    fun v _ _ ↦ h.leaf_eq v⟩

variable [Image]

/-- A page of zeros is mapped where the view has one already. -/
theorem Gains.sameUser (hsz : sz ≤ trapframeVa)
    (h : Gains s t pt v (pa2pte r ||| (pteW ||| pteU ||| pteR) ||| pteV)) (hr : IsPage r)
    (hv : v < pagesOf sz) (hV : hasFlag (leaf s.mem pt v) pteV = false) (hz : t.mem r = filled 0) :
    SameUser s t pt sz ∧ Reaches t.mem pt v r := by
  have hvu : v < userPages := lt_of_lt_of_le hv (pagesOf_le hsz)
  have hreaches : Reaches t.mem pt v r := by
    have hpa : pte2pa (pa2pte r ||| (pteW ||| pteU ||| pteR) ||| pteV) = r := by
      rw [BitVec.or_assoc]
      exact pte2pa_pa2pte_or hr.1 (lt_trans hr.lt (by decide)) (by decide)
    refine ⟨hvu, ?_, ?_, by rw [h.self, hpa]⟩ <;> rw [h.self, BitVec.or_assoc, hasFlag_or] <;>
      exact Bool.or_eq_true_iff.2 (.inr (by decide))
  refine ⟨⟨funext fun w ↦ ?_, fun w hw hV' ↦ h.other w ?_ ?_,
    fun w hw hlt ↦ h.other w hlt (by omega)⟩, hreaches⟩
  rotate_left
  · rw [userPages_eq] at hw
    omega
  · rintro rfl
    exact Bool.false_ne_true (hV.symm.trans hV')
  rcases lt_or_ge w userPages with hw | hw
  · by_cases hwv : w = v
    · subst hwv
      rw [completed_of_valid hvu hreaches.valid, completed_of_not_valid hV, if_pos hv,
        hreaches.pa_eq, hz, h.self, BitVec.or_assoc, pteFlags_pa2pte_or (by decide)]
      rfl
    · refine completed_congr (mapped_congr (h.other w ?_ hwv) fun _ hV' ↦
        h.contents _ (leafCount_ne_zero hw hV'))
      rw [userPages_eq] at hw
      omega
  · rw [completed_of_top hsz hw, completed_of_top hsz hw]

variable {S : Estate} {M : Memory} {hand : List ℕ}

omit [Image] in
theorem Ample.mono {n k : ℕ} (h : Ample s n) (hk : k ≤ n) : Ample s k :=
  ⟨h.1, hk.trans h.2⟩

/-- `vmfault` at a page below the size that has no memory. -/
theorem Space.vmfault_page {Q : ℕ → Phys → Prop} (h : Space S M s pt hand) (hsz : sz ≤ trapframeVa)
    (hva : va < sz) (hV : hasFlag (leaf s.mem pt (va / pgsize)) pteV = false)
    (hfail : ∀ t : Phys, Space S M t pt hand → SameView s t pt →
      ¬Avail s (missing s.mem 2 pt (pgRoundDown va) + 1) → Q 0 t)
    (hpage : ∀ r, ∀ t : Phys, IsPage r → Space S M t pt hand →
      Gains s t pt (va / pgsize) (pa2pte r ||| (pteW ||| pteU ||| pteR) ||| pteV) →
      t.mem r = filled 0 → Takes s t (missing s.mem 2 pt (pgRoundDown va) + 1) →
      Fills s.mem t.mem 2 pt (pgRoundDown va) → Q r t) :
    wp (Xv6.vmfault pt sz pt va) Q s := by
  have hlt : va < 274877898752 := lt_of_lt_of_le hva hsz
  have hdown : pgRoundDown va / pgsize = va / pgsize := Nat.mul_div_cancel _ (by decide)
  rw [Xv6.vmfault, if_neg (not_le.2 hva), wp_bind, wp_ismapped, hdown, hV]
  refine ⟨show va / 4096 * 4096 < 274877906944 by omega, ?_⟩
  rw [if_neg Bool.false_ne_true]
  refine h.give_page (x := filled 0) pure (by rw [userPages_eq, pgsize_eq]; omega) (by decide) hV
    (fun r t _ ht ↦ ?_) (fun t ht hview hno ↦ wp_pure.2 (hfail t ht hview hno))
    fun r t _ hr ht hgain hz _ htake hfills ↦ wp_pure.2 (hpage r t hr ht hgain hz htake hfills)
  rwa [wp_bind, wp_memset]

/-- **`vmfault`** keeps the view, and it fails only for an address beyond the size, for a page that
is there, or without memory. -/
theorem Space.vmfault (h : Space S M s pt hand) (hsz : sz ≤ trapframeVa) :
    wp (Xv6.vmfault pt sz pt va)
      (fun r t ↦ Space S M t pt hand ∧ SameUser s t pt sz ∧
        (r = 0 → t = s ∧ (va < sz → hasFlag (leaf s.mem pt (va / pgsize)) pteV = true) ∨
          va < sz ∧ hasFlag (leaf s.mem pt (va / pgsize)) pteV = false ∧ ∀ n, ¬Ample s (n + 3)) ∧
        (r ≠ 0 → Reaches t.mem pt (va / pgsize) r ∧
          va < sz ∧ hasFlag (leaf s.mem pt (va / pgsize)) pteV = false ∧
          ∀ n, Ample s (n + 3) → Ample t n)) s := by
  rcases lt_or_ge va sz with hva | hge
  swap
  · rw [Xv6.vmfault, if_pos hge, wp_pure]
    exact ⟨h, .refl, fun _ ↦ .inl ⟨rfl, fun hlt ↦ absurd hge (not_le.2 hlt)⟩,
      fun h0 ↦ absurd rfl h0⟩
  have hlt : va < 274877898752 := lt_of_lt_of_le hva hsz
  cases hV : hasFlag (leaf s.mem pt (va / pgsize)) pteV with
  | true =>
    have hdown : pgRoundDown va / pgsize = va / pgsize := Nat.mul_div_cancel _ (by decide)
    rw [Xv6.vmfault, if_neg (not_le.2 hva), wp_bind, wp_ismapped, hdown, hV,
      if_pos rfl, wp_pure]
    exact ⟨show va / 4096 * 4096 < 274877906944 by omega, h, .refl, fun _ ↦ .inl ⟨rfl, fun _ ↦ rfl⟩,
      fun h0 ↦ absurd rfl h0⟩
  | false =>
    have hthree : missing s.mem 2 pt (pgRoundDown va) + 1 ≤ 3 := Nat.succ_le_succ missing_le
    refine h.vmfault_page hsz hva hV (fun t ht hview hno ↦ ?_)
      fun r t hr ht hgain hz htake _ ↦ ?_
    · exact ⟨ht, hview.sameUser, fun _ ↦ .inr ⟨hva, rfl, not_ample hno hthree⟩,
        fun h0 ↦ absurd rfl h0⟩
    · obtain ⟨hsame, hreach⟩ := hgain.sameUser hsz hr
        ((lt_pagesOf hsz).2 (show va / 4096 * 4096 < sz by omega)) hV hz
      exact ⟨ht, hsame, fun h0 ↦ absurd h0 hr.pos.ne', fun _ ↦
        ⟨hreach, hva, rfl, fun _ ↦ htake.ample hthree⟩⟩

/-- What is in hand can be left out of account. -/
theorem Space.aside (h : Space S M s pt hand) : ∃ S' : Estate, Space S' s.mem s pt [] := by
  refine ⟨⟨fun pg ↦ nodeCount s.mem 2 pt pg + leafCount s.mem pt pg + s.freelist.count pg,
    fun pg ↦ ?_, fun pg hpg ↦ S.isPage pg ?_⟩, h.table, fun _ ↦ add_zero _,
    fun _ _ ↦ rfl⟩
  · have hstock := h.stock pg
    have hle := S.le_one pg
    omega
  · have hstock := h.stock pg
    omega

/-- **How much memory a page fault takes**: a page, and the page-table pages that are missing. No
other leaf changes, and no page but page-table pages and free pages. -/
theorem Space.vmfault_exact (h : Space S M s pt hand) (hsz : sz ≤ trapframeVa) (hva : va < sz)
    (hV : hasFlag (leaf s.mem pt (va / pgsize)) pteV = false) :
    wp (Xv6.vmfault pt sz pt va)
      (fun r t ↦ (r = 0 → ¬Avail s (missing s.mem 2 pt (pgRoundDown va) + 1)) ∧
        (r ≠ 0 → Takes s t (missing s.mem 2 pt (pgRoundDown va) + 1) ∧
          Fills s.mem t.mem 2 pt (pgRoundDown va) ∧
          leaf t.mem pt (va / pgsize) = pa2pte r ||| (pteW ||| pteU ||| pteR) ||| pteV) ∧
        (∀ w < 2 ^ 27, w ≠ va / pgsize → leaf t.mem pt w = leaf s.mem pt w) ∧
        ∀ pg, nodeCount s.mem 2 pt pg = 0 → s.freelist.count pg = 0 → t.mem pg = s.mem pg) s := by
  obtain ⟨S', h'⟩ := h.aside
  have hframe : ∀ {t : Phys}, Space S' s.mem t pt [] →
      (∀ pg, leafCount s.mem pt pg ≠ 0 → t.mem pg = s.mem pg) →
      ∀ pg, nodeCount s.mem 2 pt pg = 0 → s.freelist.count pg = 0 → t.mem pg = s.mem pg := by
    intro t ht hcontents pg hn hc
    by_cases hl : leafCount s.mem pt pg = 0
    · refine ht.frame pg ?_
      rw [← h'.stock pg, hn, hc, hl, List.count_nil]
    · exact hcontents pg hl
  refine h'.vmfault_page hsz hva hV (fun t ht hview hno ↦ ?_)
    fun r t hr ht hgain _ htake hfills ↦ ?_
  · exact ⟨fun _ ↦ hno, fun h0 ↦ absurd rfl h0, fun w _ _ ↦ hview.leaf_eq w,
      hframe ht hview.contents⟩
  · exact ⟨fun h0 ↦ absurd h0 hr.pos.ne', fun _ ↦ ⟨htake, hfills, hgain.self⟩, hgain.other,
      hframe ht hgain.contents⟩

/-! ### Writing to a user page -/

/-- The user's pages are different from one another and from the page-table pages, and what is
mapped above them is not the user's. -/
structure Coherent (m : Memory) (pt : ℕ) : Prop where
  ne_zero : ∀ v < userPages, hasFlag (leaf m pt v) pteV = true → pte2pa (leaf m pt v) ≠ 0
  apart : ∀ v < userPages, hasFlag (leaf m pt v) pteV = true →
    nodeCount m 2 pt (pte2pa (leaf m pt v)) = 0
  once : ∀ v < userPages, ∀ w < userPages, hasFlag (leaf m pt v) pteV = true →
    hasFlag (leaf m pt w) pteV = true → pte2pa (leaf m pt v) = pte2pa (leaf m pt w) → v = w
  guarded : ∀ v, userPages ≤ v → v < 2 ^ 26 → hasFlag (leaf m pt v) pteV = true →
    hasFlag (leaf m pt v) pteU = false

section

omit [Image]

variable {m : Memory}

theorem Reaches.page (h : Reaches m pt v pa) :
    (completed m pt sz).page v = some (pteFlags (leaf m pt v), m pa) := by
  rw [View.page, completed_of_valid h.lt h.valid, h.pa_eq, filter_some,
    hasFlag_pteFlags (by decide), h.user, if_pos rfl]

/-- A store to a user page changes that page of the view, and no leaf. -/
theorem Coherent.store (h : Coherent m pt) (sz : ℕ) (hr : Reaches m pt v pa) (b : Page) :
    (∀ w, leaf (update m pa b) pt w = leaf m pt w) ∧
      Coherent (update m pa b) pt ∧
      completed (update m pa b) pt sz =
        update (completed m pt sz) v (some (pteFlags (leaf m pt v), b)) := by
  have hagrees : Agrees m (update m pa b) 2 pt := fun pg hpg ↦ by
    refine update_of_ne ?_ _ _
    rintro rfl
    exact hpg (hr.pa_eq ▸ h.apart v hr.lt hr.valid)
  have hleaf := hagrees.leaf_eq
  refine ⟨hleaf, ⟨?_, ?_, ?_, ?_⟩, funext fun w ↦ ?_⟩
  · intro w hw hV
    rw [hleaf] at hV ⊢
    exact h.ne_zero w hw hV
  · intro w hw hV
    rw [hleaf] at hV ⊢
    rw [hagrees.nodeCount_eq]
    exact h.apart w hw hV
  · intro w hw x hx hV hV'
    rw [hleaf] at hV hV' ⊢
    rw [hleaf]
    exact h.once w hw x hx hV hV'
  · intro w hw hlt hV
    rw [hleaf] at hV ⊢
    exact h.guarded w hw hlt hV
  · by_cases hwv : w = v
    · subst hwv
      rw [completed_of_valid hr.lt (by rw [hleaf]; exact hr.valid), hleaf, hr.pa_eq,
        update_self, update_self]
    · rw [update_of_ne hwv]
      refine completed_congr (mapped_congr (hleaf w) fun hw hV ↦
        update_of_ne (fun heq ↦ hwv ?_) _ _)
      exact h.once w hw v hr.lt hV hr.valid (heq.trans hr.pa_eq.symm)

theorem Coherent.sameShape_store (h : Coherent s.mem pt) (hr : Reaches s.mem pt v pa) (b : Page) :
    SameShape s { s with mem := update s.mem pa b } pt sz := by
  obtain ⟨hleaf, -, hview⟩ := h.store sz hr b
  refine ⟨fun w ↦ ?_, fun w _ _ ↦ hleaf w⟩
  rw [hview]
  by_cases hwv : w = v
  · subst hwv
    rw [update_self, completed_of_valid hr.lt hr.valid, map_some, map_some]
  · rw [update_of_ne hwv]

end

/-! ### The loops -/

/-- What a loop that copies page by page up to the address `e` needs: an invariant `I`, indexed by
the page it has come to, that is kept by one turn of `walkaddr` and `vmfault` and by a store. If
memory is `sure`, a page that cannot be reached is not in the view. -/
structure Pager (pt sz e : ℕ) (sure : Prop) (I : ℕ → Phys → Prop) : Prop where
  size : sz ≤ trapframeVa
  coherent : ∀ v s, I v s → Coherent s.mem pt
  turn : ∀ v s, I v s → v * pgsize < e → wp (walkOrFault pt sz pt (v * pgsize))
    (fun pa t ↦ I (v + 1) t ∧ SameUser s t pt sz ∧ (pa ≠ 0 → Reaches t.mem pt v pa) ∧
      (pa = 0 → sure → (completed s.mem pt sz).page v = none)) s
  store : ∀ v s w pa b, I v s → Reaches s.mem pt w pa →
    I v { s with mem := update s.mem pa b }

namespace Pager

variable {e : ℕ} {sure : Prop} {I : ℕ → Phys → Prop}

omit [Image] in
/-- The next page, when the last one was the user's. -/
theorem next_va (hv : va / pgsize < userPages) :
    u64 (pgRoundDown va + pgsize) = pgRoundDown va + pgsize ∧
      (pgRoundDown va + pgsize) / pgsize = va / pgsize + 1 := by
  rw [userPages_eq, pgsize_eq] at hv
  have hdown : pgRoundDown va = va / 4096 * 4096 := rfl
  rw [hdown, u64, pgsize_eq]
  omega

omit [Image] in
/-- One turn copies something, and what is left begins with the next page. -/
theorem chunk_pos {len : ℕ} (hlen : 0 < len) (he : va + len ≤ e) :
    0 < View.chunk va len ∧ pgRoundDown va < e ∧
      (0 < len - View.chunk va len → pgRoundDown va + pgsize + (len - View.chunk va len) ≤ e) := by
  have hdown : pgRoundDown va = va / 4096 * 4096 := rfl
  rw [View.chunk, hdown, pgsize_eq]
  omega

theorem copyinFrom (P : Pager pt sz e sure I) {turns len : ℕ} (hI : I (va / pgsize) s)
    (hturns : len ≤ turns) (he : 0 < len → va + len ≤ e) :
    wp (Xv6.copyinFrom pt sz pt turns va len)
      (fun r t ↦ (∃ v, I v t) ∧ SameUser s t pt sz ∧
        (sure → r = (completed s.mem pt sz).copyin turns va len)) s := by
  induction turns generalizing s va len with
  | zero =>
    rw [Xv6.copyinFrom, if_neg (by omega), wp_pure]
    exact ⟨⟨_, hI⟩, .refl, fun _ ↦ rfl⟩
  | succ turns ih =>
    rw [Xv6.copyinFrom, wp_ite]
    refine ⟨fun hlen ↦ ?_, fun hlen ↦ ?_⟩
    · obtain ⟨hpos, hdown, hleft⟩ := chunk_pos hlen (he hlen)
      rw [wp_bind]
      refine (P.turn _ s hI hdown).mono fun pa t ht ↦ ?_
      obtain ⟨hIt, hsame, hreach, hnone⟩ := ht
      rw [wp_ite]
      refine ⟨fun h0 ↦ ?_, fun h0 ↦ ?_⟩
      · rw [wp_pure]
        refine ⟨⟨_, hIt⟩, hsame, fun hs ↦ ?_⟩
        rw [View.copyin, if_pos hlen, hnone h0 hs]
      · have hr := hreach h0
        have hva := next_va hr.lt
        rw [wp_bind, wp_loadPage, wp_bind, hva.1]
        have hpage : (completed s.mem pt sz).page (va / pgsize) =
            some (pteFlags (leaf t.mem pt (va / pgsize)), t.mem pa) := hsame.view ▸ hr.page
        refine (ih (by rw [hva.2]; exact hIt) (by omega) hleft).mono fun q u hq ↦ ?_
        obtain ⟨hIu, hsame', hq⟩ := hq
        rw [wp_pure]
        refine ⟨hIu, hsame.trans hsame', fun hs ↦ ?_⟩
        rw [View.copyin, if_pos hlen, hpage, ← hsame.view, ← hq hs]
        rfl
    · rw [wp_pure]
      refine ⟨⟨_, hI⟩, .refl, fun _ ↦ ?_⟩
      rw [View.copyin, if_neg hlen]

theorem copyoutFrom (P : Pager pt sz e sure I) {turns len : ℕ} {src : ℕ → BitVec 8}
    (hI : I (va / pgsize) s) (hturns : len ≤ turns) (he : 0 < len → va + len ≤ e) :
    wp (Xv6.copyoutFrom pt sz pt turns va src len)
      (fun r t ↦ (∃ v, I v t) ∧ SameShape s t pt sz ∧
        (sure → (r, completed t.mem pt sz) = (completed s.mem pt sz).copyout turns va src len))
      s := by
  induction turns generalizing s va src len with
  | zero =>
    rw [Xv6.copyoutFrom, if_neg (by omega), wp_pure]
    exact ⟨⟨_, hI⟩, SameUser.refl.sameShape, fun _ ↦ rfl⟩
  | succ turns ih =>
    rw [Xv6.copyoutFrom, wp_ite]
    refine ⟨fun hlen ↦ ?_, fun hlen ↦ ?_⟩
    · obtain ⟨hpos, hdown, hleft⟩ := chunk_pos hlen (he hlen)
      rw [wp_ite]
      refine ⟨fun hge ↦ ?_, fun hlt ↦ ?_⟩
      · have htop : userPages ≤ va / pgsize := by
          have hge' : 274877906944 ≤ va / 4096 * 4096 := hge
          rw [userPages_eq, pgsize_eq]
          omega
        rw [wp_pure]
        refine ⟨⟨_, hI⟩, SameUser.refl.sameShape, fun _ ↦ ?_⟩
        rw [View.copyout, if_pos hlen, View.page, completed_of_top P.size htop, filter_none]
      rw [wp_bind]
      refine (P.turn _ s hI hdown).mono fun pa t ht ↦ ?_
      obtain ⟨hIt, hsame, hreach, hnone⟩ := ht
      rw [wp_ite]
      refine ⟨fun h0 ↦ ?_, fun h0 ↦ ?_⟩
      · rw [wp_pure]
        refine ⟨⟨_, hIt⟩, hsame.sameShape, fun hs ↦ ?_⟩
        rw [View.copyout, if_pos hlen, hnone h0 hs, hsame.view]
      · have hr := hreach h0
        have hva := next_va hr.lt
        have hpage : (completed s.mem pt sz).page (va / pgsize) =
            some (pteFlags (leaf t.mem pt (va / pgsize)), t.mem pa) := hsame.view ▸ hr.page
        obtain ⟨c, i, hp, hleaf⟩ := hr.slot
        rw [wp_bind, wp_walk, hp]
        refine ⟨Nat.lt_of_not_le hlt, ?_⟩
        rw [wp_bind, wp_loadPte, hleaf, wp_ite]
        refine ⟨fun hW ↦ ?_, fun hW ↦ ?_⟩
        · rw [wp_pure]
          refine ⟨⟨_, hIt⟩, hsame.sameShape, fun _ ↦ ?_⟩
          rw [View.copyout, if_pos hlen, hpage, hsame.view]
          simp only [hasFlag_pteFlags (f := pteW) (by decide)]
          rw [if_neg (by simpa using hW)]
        · obtain ⟨-, -, hview⟩ := (P.coherent _ t hIt).store sz hr
            (putBytes (t.mem pa) (va - pgRoundDown va) (View.chunk va len) src)
          have hIs := P.store _ t _ pa
            (putBytes (t.mem pa) (va - pgRoundDown va) (View.chunk va len) src) hIt hr
          rw [wp_bind, wp_loadPage, wp_bind, wp_storePage, hva.1]
          refine (ih (by rw [hva.2]; exact hIs) (by omega) hleft).mono fun q u hq ↦ ?_
          obtain ⟨hIu, hshape, hq⟩ := hq
          refine ⟨hIu, (hsame.sameShape.trans ((P.coherent _ t hIt).sameShape_store hr _)).trans
            hshape, fun hs ↦ ?_⟩
          rw [hq hs, View.copyout, if_pos hlen, hpage]
          simp only [hasFlag_pteFlags (f := pteW) (by decide)]
          rw [if_pos (by simpa using hW), ← hsame.view, ← hview]
          rfl
    · rw [wp_pure]
      refine ⟨⟨_, hI⟩, SameUser.refl.sameShape, fun _ ↦ ?_⟩
      rw [View.copyout, if_neg hlen]

end Pager

/-! ### The loops in an address space -/

section

omit [Image]

variable {m : Memory}

theorem page_eq_none_of_not_user (hv : v < userPages) (hV : hasFlag (leaf m pt v) pteV = true)
    (hU : hasFlag (leaf m pt v) pteU = false) : (completed m pt sz).page v = none := by
  rw [View.page, completed_of_valid hv hV, filter_some, hasFlag_pteFlags (by decide), hU,
    if_neg Bool.false_ne_true]

theorem page_eq_none_of_not_valid (hv : pagesOf sz ≤ v) (hV : hasFlag (leaf m pt v) pteV = false) :
    (completed m pt sz).page v = none := by
  rw [View.page, completed_of_not_valid hV, if_neg (not_lt.2 hv), filter_none]

/-- What `walkaddr` finds is a page of the user's. -/
theorem Coherent.reaches (h : Coherent m pt) (hne : userPa m pt (v * pgsize) ≠ 0) :
    Reaches m pt v (userPa m pt (v * pgsize)) := by
  rw [userPa, Nat.mul_div_cancel _ (by decide)] at hne ⊢
  split_ifs at hne ⊢ with hc
  · obtain ⟨hlt, hV, hU⟩ := hc
    refine ⟨?_, hV, hU, rfl⟩
    refine Nat.lt_of_not_le fun hge ↦ Bool.false_ne_true ((h.guarded v hge ?_ hV).symm.trans hU)
    have hlt' : v * 4096 < 274877906944 := hlt
    omega
  · exact absurd rfl hne

/-- Where `walkaddr` finds nothing, a mapped page is not the user's. -/
theorem Coherent.not_user (h : Coherent m pt) (h0 : userPa m pt (v * pgsize) = 0)
    (hv : v < userPages) (hV : hasFlag (leaf m pt v) pteV = true) :
    hasFlag (leaf m pt v) pteU = false := by
  refine Bool.eq_false_iff.2 fun hU ↦ h.ne_zero v hv hV ?_
  rw [userPa, Nat.mul_div_cancel _ (by decide), if_pos] at h0
  · exact h0
  · refine ⟨?_, hV, hU⟩
    rw [userPages_eq] at hv
    show v * 4096 < 274877906944
    omega

end

/-- The pages from `v` up to the address `e` that are below the size and have no memory. -/
def lazyPages (m : Memory) (pt sz v e : ℕ) : Finset ℕ :=
  (Finset.range (pagesOf sz)).filter fun w ↦
    hasFlag (leaf m pt w) pteV = false ∧ v ≤ w ∧ w * pgsize < e

omit [Image] in
/-- Coming past a page without memory leaves one page less. -/
theorem SameUser.card_lazyPages {e : ℕ} (h : SameUser s t pt sz) (hsz : sz ≤ trapframeVa)
    (he : v * pgsize < e) (hlt : v * pgsize < sz) (hV : hasFlag (leaf s.mem pt v) pteV = false) :
    (lazyPages t.mem pt sz (v + 1) e).card + 1 ≤ (lazyPages s.mem pt sz v e).card := by
  have hmem : v ∈ lazyPages s.mem pt sz v e := by
    rw [lazyPages, mem_filter, mem_range, lt_pagesOf hsz]
    exact ⟨hlt, hV, le_rfl, he⟩
  rw [← card_erase_add_one hmem]
  refine Nat.add_le_add_right (card_le_card fun w hw ↦ ?_) 1
  rw [lazyPages, mem_filter, mem_range] at hw
  obtain ⟨hw, hV', hle, hwe⟩ := hw
  rw [mem_erase, lazyPages, mem_filter, mem_range]
  refine ⟨by omega, hw, Bool.eq_false_iff.2 fun hV'' ↦ ?_, by omega, hwe⟩
  rw [h.kept w (lt_of_lt_of_le hw (pagesOf_le hsz)) hV'', hV''] at hV'
  exact Bool.false_ne_true hV'.symm

/-- The address space is in order, and if memory is `sure`, then there is memory for every page that
is still to come: the page itself and a page-table page for each of two levels. -/
structure Supplied (S : Estate) (M : Memory) (hand : List ℕ) (pt sz e : ℕ) (sure : Prop) (v : ℕ)
    (s : Phys) : Prop where
  space : Space S M s pt hand
  guarded : ∀ w, userPages ≤ w → w < 2 ^ 26 → hasFlag (leaf s.mem pt w) pteV = true →
    hasFlag (leaf s.mem pt w) pteU = false
  ample : sure → Ample s (3 * (lazyPages s.mem pt sz v e).card)

theorem Supplied.coherent {e : ℕ} {sure : Prop} (h : Supplied S M hand pt sz e sure v s) :
    Coherent s.mem pt := by
  refine ⟨fun w hw hV ↦ (h.space.leaf_page hw hV).1.pos.ne', fun w hw hV ↦ ?_,
    fun w hw x hx hV hV' heq ↦ ?_, h.guarded⟩
  · have hone := h.space.leaf_page hw hV
    have hstock := h.space.stock (pte2pa (leaf s.mem pt w))
    omega
  · by_contra hne
    have hone := h.space.leaf_page hw hV
    have htwo : mapsTo (leaf s.mem pt w) (pte2pa (leaf s.mem pt w)) +
        mapsTo (leaf s.mem pt x) (pte2pa (leaf s.mem pt w)) ≤
          leafCount s.mem pt (pte2pa (leaf s.mem pt w)) := mapsTo_add_le_leafCount hw hx hne
    rw [mapsTo_of_valid hV, heq, mapsTo_of_valid hV', ← heq] at htwo
    omega

/-- Passing a page keeps the supply for those that are still to come. -/
theorem Supplied.succ {e : ℕ} {sure : Prop} (h : Supplied S M hand pt sz e sure v s) :
    Supplied S M hand pt sz e sure (v + 1) s := by
  have hsub : lazyPages s.mem pt sz (v + 1) e ⊆ lazyPages s.mem pt sz v e := fun w hw ↦ by
    rw [lazyPages, mem_filter] at hw ⊢
    exact ⟨hw.1, hw.2.1, by omega, hw.2.2.2⟩
  exact ⟨h.space, h.guarded, fun hs ↦ (h.ample hs).mono
    (Nat.mul_le_mul_left 3 (card_le_card hsub))⟩

/-- `vmfault` at the page that comes next. -/
theorem Supplied.vmfault {e : ℕ} {sure : Prop} (h : Supplied S M hand pt sz e sure v s)
    (hsz : sz ≤ trapframeVa) (he : v * pgsize < e) :
    wp (Xv6.vmfault pt sz pt (v * pgsize))
      (fun r t ↦ Supplied S M hand pt sz e sure (v + 1) t ∧ SameUser s t pt sz ∧
        (r ≠ 0 → Reaches t.mem pt v r) ∧
        (r = 0 → sure → t = s ∧ (v * pgsize < sz → hasFlag (leaf s.mem pt v) pteV = true))) s := by
  refine (h.space.vmfault hsz).mono fun r t hr ↦ ?_
  rw [Nat.mul_div_cancel _ (by decide)] at hr
  obtain ⟨ht, hsame, hzero, hpage⟩ := hr
  have hguarded : ∀ w, userPages ≤ w → w < 2 ^ 26 → hasFlag (leaf t.mem pt w) pteV = true →
      hasFlag (leaf t.mem pt w) pteU = false := fun w hw hlt hV ↦ by
    rw [hsame.top w hw (by omega)] at hV ⊢
    exact h.guarded w hw hlt hV
  by_cases hr0 : r = 0
  · rcases hzero hr0 with ⟨rfl, hvalid⟩ | ⟨hlt, hV, hno⟩
    · exact ⟨h.succ, hsame, fun hne ↦ absurd hr0 hne, fun _ _ ↦ ⟨rfl, hvalid⟩⟩
    · -- the page is one of those there was memory for
      have hle := hsame.card_lazyPages hsz he hlt hV
      have hnot : ¬sure := fun hs ↦ hno 0 ((h.ample hs).mono (by omega))
      exact ⟨⟨ht, hguarded, fun hs ↦ absurd hs hnot⟩, hsame, fun hne ↦ absurd hr0 hne,
        fun _ hs ↦ absurd hs hnot⟩
  · obtain ⟨hreach, hlt, hV, hample⟩ := hpage hr0
    have hle := hsame.card_lazyPages hsz he hlt hV
    refine ⟨⟨ht, hguarded, fun hs ↦ hample _ ((h.ample hs).mono ?_)⟩, hsame, fun _ ↦ hreach,
      fun h0' ↦ absurd h0' hr0⟩
    omega

omit [Image] in
/-- Where neither `walkaddr` nor `vmfault` finds a page, the view has none. -/
theorem Coherent.page_eq_none {m : Memory} (h : Coherent m pt) (hsz : sz ≤ trapframeVa)
    (h0 : userPa m pt (v * pgsize) = 0)
    (hvalid : v * pgsize < sz → hasFlag (leaf m pt v) pteV = true) :
    (completed m pt sz).page v = none := by
  rcases lt_or_ge v userPages with hv | hv
  · cases hV : hasFlag (leaf m pt v) pteV with
    | true => exact page_eq_none_of_not_user hv hV (h.not_user h0 hv hV)
    | false =>
      refine page_eq_none_of_not_valid (Nat.le_of_not_lt fun hlt ↦ ?_) hV
      exact Bool.false_ne_true (hV.symm.trans (hvalid ((lt_pagesOf hsz).1 hlt)))
  · rw [View.page, completed_of_top hsz hv, filter_none]

/-- **The loops keep an address space in order**, and with enough memory they do what the view
says. -/
theorem supplied_pager {e : ℕ} {sure : Prop} (hsz : sz ≤ trapframeVa) :
    Pager pt sz e sure (Supplied S M hand pt sz e sure) := by
  refine ⟨hsz, fun v s h ↦ h.coherent, fun v s h he ↦ ?_, fun v s w pa b h hr ↦ ?_⟩
  · rw [walkOrFault, wp_bind, wp_walkaddr, wp_ite]
    refine ⟨fun h0 ↦ ?_, fun h0 ↦ ?_⟩
    · refine (h.vmfault hsz he).mono fun r t ht ↦ ?_
      obtain ⟨hsup, hsame, hreach, hzero⟩ := ht
      exact ⟨hsup, hsame, hreach, fun hr0 hs ↦
        h.coherent.page_eq_none hsz h0 (hzero hr0 hs).2⟩
    · rw [wp_pure]
      exact ⟨h.succ, .refl, fun _ ↦ h.coherent.reaches h0, fun h0' ↦ absurd h0' h0⟩
  · have hspace := h.space.rewrite (t := { s with mem := update s.mem pa b }) (g := hand)
      (fun pg hne ↦ ?_) fun _ ↦ rfl
    · refine ⟨hspace.1, fun w hw hlt hV ↦ ?_, fun hs ↦ ?_⟩
      · rw [hspace.2] at hV ⊢
        exact h.guarded w hw hlt hV
      · have hlazy : lazyPages (update s.mem pa b) pt sz v e = lazyPages s.mem pt sz v e :=
          filter_congr fun w _ ↦ by rw [hspace.2]
        exact ⟨(h.ample hs).1, by rw [hlazy]; exact (h.ample hs).2⟩
    · obtain rfl : pg = pa := not_not.1 fun h' ↦ hne (update_of_ne h' _ _)
      have hone := h.space.leaf_page hr.lt hr.valid
      rw [hr.pa_eq] at hone
      have hstock := h.space.stock pg
      exact ⟨by omega, by omega⟩

end Xv6

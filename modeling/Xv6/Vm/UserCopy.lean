import Xv6.Vm.Lazy

/-!
# What the copies between kernel and user touch

`copyout` and `copyin` go page by page, and each page is looked up, given memory, or refused when
the loop comes to it. `Copyable` says of a page of the range, in the state before the call, whether
it will be refused: a mapped page if its flags do not allow the copy, a page below the size that has
no memory if the memory for it, after that for the pages before it, is not available. One turn of a
loop is one statement (`Turn`), and the two loops are run through with it: they return `0` exactly
if every page of the range is copyable, and otherwise they have copied whole pieces up to the first
page that is not.

What is written is user memory as the process sees it (`userByte`). In physical memory the pages
that change are pages the user can write, page-table pages of the process, and free pages.
-/

namespace Xv6

open Function Option Finset

variable {s t u : Phys} {m m' : Memory} {pt sz v w x va pa e : ℕ}

/-! ### Bytes -/

/-- The byte at a user address, with zeros in the pages that have no memory yet. -/
def userByte (m : Memory) (pt sz a : ℕ) : Option (BitVec 8) :=
  (completed m pt sz (a / pgsize)).map fun p ↦ byteAt p.2 (a % pgsize)

theorem userByte_congr (h : completed m' pt sz = completed m pt sz) (a : ℕ) :
    userByte m' pt sz a = userByte m pt sz a := by
  rw [userByte, userByte, h]

/-! ### Pages that are not mapped -/

theorem mem_lazyPages : w ∈ lazyPages m pt sz v e ↔
    w < pagesOf sz ∧ hasFlag (leaf m pt w) pteV = false ∧ v ≤ w ∧ w * pgsize < e := by
  rw [lazyPages, mem_filter, mem_range]

theorem lazyPages_of_valid (hV : hasFlag (leaf m pt v) pteV = true) :
    lazyPages m pt sz (v + 1) e = lazyPages m pt sz v e := by
  ext w
  rw [mem_lazyPages, mem_lazyPages]
  refine and_congr_right fun _ ↦ and_congr_right fun hw ↦ and_congr_left fun _ ↦ ?_
  have hne : w ≠ v := by
    rintro rfl
    exact Bool.false_ne_true (hw.symm.trans hV)
  omega

theorem lazyPages_erase (hsz : sz ≤ trapframeVa)
    (hleaf : ∀ w < 2 ^ 27, w ≠ v → leaf m' pt w = leaf m pt w) :
    lazyPages m' pt sz (v + 1) e = (lazyPages m pt sz v e).erase v := by
  have hpages := pagesOf_le hsz
  rw [userPages_eq] at hpages
  ext w
  rw [mem_erase, mem_lazyPages, mem_lazyPages]
  constructor
  · rintro ⟨hw, hV, hle, he⟩
    rw [hleaf w (by omega) (by omega)] at hV
    exact ⟨by omega, hw, hV, by omega, he⟩
  · rintro ⟨hne, hw, hV, hle, he⟩
    rw [← hleaf w (by omega) hne] at hV
    exact ⟨hw, hV, by omega, he⟩

theorem lazyPages_self (hsz : sz ≤ trapframeVa) (hV : hasFlag (leaf m pt v) pteV = false)
    (hlt : v * pgsize < sz) : lazyPages m pt sz v ((v + 1) * pgsize) = {v} := by
  ext w
  rw [mem_lazyPages, mem_singleton, Nat.mul_lt_mul_right (by decide)]
  constructor
  · rintro ⟨-, -, hle, hw⟩
    omega
  · rintro rfl
    exact ⟨(lt_pagesOf hsz).2 hlt, hV, le_rfl, Nat.lt_succ_self w⟩

/-! ### Pages that can be copied -/

/-- The page `x` will be copied to (`write`) or from, when a loop that has begun with the page `v`
comes to it: it is below `MAXVA`, and it is mapped and the flags allow it, or it is not mapped but
below the size, and there is memory for it and for such pages before it. -/
def Copyable (write : Bool) (s : Phys) (pt sz v x : ℕ) : Prop :=
  x < 2 ^ 26 ∧
    ((hasFlag (leaf s.mem pt x) pteV = true ∧ hasFlag (leaf s.mem pt x) pteU = true ∧
        (write = true → hasFlag (leaf s.mem pt x) pteW = true)) ∨
      (hasFlag (leaf s.mem pt x) pteV = false ∧ x * pgsize < sz ∧
        Avail s (demand s.mem pt (lazyPages s.mem pt sz v ((x + 1) * pgsize)))))

theorem copyable_of_valid {write : Bool} (hx : x < 2 ^ 26)
    (hV : hasFlag (leaf s.mem pt x) pteV = true) :
    Copyable write s pt sz v x ↔ hasFlag (leaf s.mem pt x) pteU = true ∧
      (write = true → hasFlag (leaf s.mem pt x) pteW = true) := by
  refine ⟨fun h ↦ ?_, fun h ↦ ⟨hx, .inl ⟨hV, h⟩⟩⟩
  rcases h.2 with h | h
  · exact h.2
  · exact absurd (hV.symm.trans h.1) (by decide)

theorem Copyable.read {write : Bool} (h : Copyable write s pt sz v x) :
    Copyable false s pt sz v x :=
  ⟨h.1, h.2.imp (fun h ↦ ⟨h.1, h.2.1, nofun⟩) id⟩

/-- What a page is does not depend on the contents of user memory. -/
theorem copyable_congr {write : Bool} (hleaf : ∀ w, leaf t.mem pt w = leaf s.mem pt w)
    (hmissing : ∀ a, missing t.mem 2 pt a = missing s.mem 2 pt a)
    (hfree : t.freelist = s.freelist) (hfails : t.fails = s.fails) :
    Copyable write t pt sz v x ↔ Copyable write s pt sz v x := by
  have hlazy : lazyPages t.mem pt sz v ((x + 1) * pgsize) =
      lazyPages s.mem pt sz v ((x + 1) * pgsize) := by
    ext w
    rw [mem_lazyPages, mem_lazyPages, hleaf]
  rw [Copyable, Copyable, hleaf, hlazy, demand_congr fun w _ ↦ hmissing _,
    Avail.congr hfree hfails]

/-- A mapped page makes no difference to those behind it. -/
theorem copyable_succ_of_valid {write : Bool} (hV : hasFlag (leaf s.mem pt v) pteV = true) :
    Copyable write s pt sz (v + 1) x ↔ Copyable write s pt sz v x := by
  rw [Copyable, Copyable, lazyPages_of_valid hV]

/-- The memory for a page has been taken, and the page-table pages that it shares with those behind
it are there. -/
theorem copyable_succ_of_fills {write : Bool} (hsz : sz ≤ trapframeVa) (hlt : v * pgsize < sz)
    (hV : hasFlag (leaf s.mem pt v) pteV = false)
    (htake : Takes s t (missing s.mem 2 pt (v * pgsize) + 1))
    (hfills : Fills s.mem t.mem 2 pt (v * pgsize))
    (hleaf : ∀ w < 2 ^ 27, w ≠ v → leaf t.mem pt w = leaf s.mem pt w) (hx : v < x) :
    Copyable write t pt sz (v + 1) x ↔ Copyable write s pt sz v x := by
  refine and_congr_right fun hx' ↦ ?_
  have hpages := pagesOf_le hsz
  rw [userPages_eq] at hpages
  have hmem : v ∈ lazyPages s.mem pt sz v ((x + 1) * pgsize) :=
    mem_lazyPages.2 ⟨(lt_pagesOf hsz).2 hlt, hV, le_rfl,
      Nat.mul_lt_mul_of_pos_right (by omega) (by decide)⟩
  have hdemand := demand_erase (P := lazyPages s.mem pt sz v ((x + 1) * pgsize))
    (fun w hw ↦ by
      have hlt := (mem_lazyPages.1 hw).1
      omega) hmem hfills
  rw [hleaf x (by omega) (by omega), lazyPages_erase hsz hleaf, hdemand, htake.avail]

/-! ### One turn -/

variable [Image] {S : Estate} {M : Memory} {hand : List ℕ}

omit [Image] in
/-- The physical pages that a copy may change: pages that the user can write, page-table pages of
the process, and free pages. -/
def Touchable (s : Phys) (pt pg : ℕ) : Prop :=
  nodeCount s.mem 2 pt pg ≠ 0 ∨ s.freelist.count pg ≠ 0 ∨
    ∃ v < userPages, hasFlag (leaf s.mem pt v) pteV = true ∧ hasFlag (leaf s.mem pt v) pteU = true ∧
      hasFlag (leaf s.mem pt v) pteW = true ∧ pte2pa (leaf s.mem pt v) = pg

/-- What a turn of a loop at the page `v` does up to where it has the page, with `pa` its physical
page, or `0`. -/
structure Turn (s t : Phys) (pt sz v pa : ℕ) : Prop where
  kept : ∀ w < 2 ^ 27, w ≠ v → leaf t.mem pt w = leaf s.mem pt w
  frame : ∀ pg, nodeCount s.mem 2 pt pg = 0 → s.freelist.count pg = 0 → t.mem pg = s.mem pg
  refused : pa = 0 → ¬Copyable false s pt sz v v
  readable : pa ≠ 0 → Copyable false s pt sz v v
  writable : pa ≠ 0 → (hasFlag (leaf t.mem pt v) pteW = true ↔ Copyable true s pt sz v v)
  next : pa ≠ 0 → ∀ write x, v < x →
    (Copyable write t pt sz (v + 1) x ↔ Copyable write s pt sz v x)

omit [Image] in
/-- Nothing happens at a page that is refused. -/
theorem Turn.of_refused (h : ¬Copyable false s pt sz v v) : Turn s s pt sz v 0 :=
  ⟨fun _ _ _ ↦ rfl, fun _ _ _ ↦ rfl, fun _ ↦ h, fun h0 ↦ absurd rfl h0, fun h0 ↦ absurd rfl h0,
    fun h0 ↦ absurd rfl h0⟩

omit [Image] in
/-- A page that is mapped for the user. -/
theorem Turn.of_reaches (hpa : pa ≠ 0) (h : Reaches s.mem pt v pa) : Turn s s pt sz v pa := by
  have hlt : v < 2 ^ 26 := by
    have hv := h.lt
    rw [userPages_eq] at hv
    omega
  have hread : Copyable false s pt sz v v := (copyable_of_valid hlt h.valid).2 ⟨h.user, nofun⟩
  have hwrite : Copyable true s pt sz v v ↔ hasFlag (leaf s.mem pt v) pteW = true := by
    rw [copyable_of_valid hlt h.valid]
    exact ⟨fun hc ↦ hc.2 rfl, fun hW ↦ ⟨h.user, fun _ ↦ hW⟩⟩
  exact ⟨fun _ _ _ ↦ rfl, fun _ _ _ ↦ rfl, fun h0 ↦ absurd h0 hpa, fun _ ↦ hread,
    fun _ ↦ hwrite.symm,
    fun _ write x _ ↦ copyable_succ_of_valid h.valid⟩

/-- A mapped page that `walkaddr` does not find is not copyable. -/
theorem Supplied.not_copyable {y : ℕ} (h : Supplied S M hand pt sz e False y s)
    (h0 : userPa s.mem pt (v * pgsize) = 0) (hV : hasFlag (leaf s.mem pt v) pteV = true) :
    ¬Copyable false s pt sz v v := by
  intro hc
  have hU := ((copyable_of_valid hc.1 hV).1 hc).1
  rcases lt_or_ge v userPages with hv | hv
  · exact Bool.false_ne_true ((h.coherent.not_user h0 hv hV).symm.trans hU)
  · exact Bool.false_ne_true ((h.guarded v hv hc.1 hV).symm.trans hU)

/-- **One turn**: the page is there, or it gets memory, or it is refused. -/
theorem Supplied.turn {y : ℕ} (h : Supplied S M hand pt sz e False y s) (hsz : sz ≤ trapframeVa) :
    wp (walkOrFault pt sz pt (v * pgsize)) (fun pa t ↦ Turn s t pt sz v pa) s := by
  rw [walkOrFault, wp_bind, wp_walkaddr, wp_ite, wp_pure]
  refine ⟨fun h0 ↦ ?_, fun h0 ↦ .of_reaches h0 (h.coherent.reaches h0)⟩
  rcases lt_or_ge (v * pgsize) sz with hlt | hge
  swap
  · rw [Xv6.vmfault, if_pos hge, wp_pure]
    refine .of_refused fun hc ↦ ?_
    cases hV : hasFlag (leaf s.mem pt v) pteV with
    | true => exact h.not_copyable h0 hV hc
    | false =>
      rcases hc.2 with hc | hc
      · exact Bool.false_ne_true (hV.symm.trans hc.1)
      · exact absurd hc.2.1 (not_lt.2 hge)
  have hdown : pgRoundDown (v * pgsize) = v * pgsize := by
    rw [pgRoundDown, Nat.mul_div_cancel _ (by decide)]
  have hdiv : v * pgsize / pgsize = v := Nat.mul_div_cancel _ (by decide)
  have hmax : v * pgsize < maxva := lt_trans (lt_of_lt_of_le hlt hsz) (by decide)
  cases hV : hasFlag (leaf s.mem pt v) pteV with
  | true =>
    rw [Xv6.vmfault, if_neg (not_le.2 hlt), wp_bind, wp_ismapped, hdown, hdiv, hV, if_pos rfl,
      wp_pure]
    exact ⟨hmax, .of_refused (h.not_copyable h0 hV)⟩
  | false =>
    refine (h.space.vmfault_exact hsz hlt (by rwa [hdiv])).mono fun r t ht ↦ ?_
    rw [hdown, hdiv] at ht
    obtain ⟨hzero, hpage, hleaf, hframe⟩ := ht
    have hv : v < 2 ^ 26 := by
      have hlt' : v * 4096 < 274877906944 := hmax
      omega
    have hself : ∀ write, Copyable write s pt sz v v ↔
        Avail s (missing s.mem 2 pt (v * pgsize) + 1) := by
      intro write
      have hneed : demand s.mem pt (lazyPages s.mem pt sz v ((v + 1) * pgsize)) =
          missing s.mem 2 pt (v * pgsize) + 1 := by
        rw [lazyPages_self hsz hV hlt, demand_singleton]
      refine ⟨fun hc ↦ ?_, fun ha ↦ ⟨hv, .inr ⟨hV, hlt, by rwa [hneed]⟩⟩⟩
      rcases hc.2 with hc | hc
      · exact absurd (hV.symm.trans hc.1) (by decide)
      · rw [← hneed]
        exact hc.2.2
    refine ⟨hleaf, hframe, fun h0 hc ↦ hzero h0 ((hself _).1 hc), fun hne ↦ ?_, fun hne ↦ ?_,
      fun hne write x hx ↦ ?_⟩
    · exact (hself _).2 (by simpa using ((hpage hne).1.avail 0).2 Avail.zero)
    · refine iff_of_true ?_ ((hself _).2 (by simpa using ((hpage hne).1.avail 0).2 Avail.zero))
      rw [(hpage hne).2.2, BitVec.or_assoc, hasFlag_or]
      exact Bool.or_eq_true_iff.2 (.inr (by decide))
    · exact copyable_succ_of_fills hsz hlt hV (hpage hne).1 (hpage hne).2.1 hleaf hx

section

variable {pg : ℕ} (hs : Space S M s pt hand) (ht : Space S M t pt hand)
  (hkept : ∀ v < userPages, hasFlag (leaf s.mem pt v) pteV = true →
    leaf t.mem pt v = leaf s.mem pt v)

include hkept

omit [Image] in
/-- A page that was mapped is mapped still. -/
theorem exists_mapsTo_of_kept (hne : leafCount s.mem pt pg ≠ 0) : ∃ v < userPages,
    hasFlag (leaf s.mem pt v) pteV = true ∧ mapsTo (leaf t.mem pt v) pg = 1 := by
  obtain ⟨v, -, hv⟩ := exists_ne_zero_of_sum_ne_zero hne
  rw [mapsTo] at hv
  split_ifs at hv with hc
  · exact ⟨v, v.2, hc.1, by rw [hkept v v.2 hc.1, mapsTo, if_pos hc]⟩
  · exact absurd rfl hv

include hs ht

/-- A page that is a page-table page or free later was so before. -/
theorem Space.spare_of_later (h : nodeCount t.mem 2 pt pg ≠ 0 ∨ t.freelist.count pg ≠ 0) :
    nodeCount s.mem 2 pt pg ≠ 0 ∨ s.freelist.count pg ≠ 0 := by
  have hstock := hs.stock pg
  have hstock' := ht.stock pg
  have hle := S.le_one pg
  have hleaf : leafCount s.mem pt pg = 0 := by
    by_contra hne
    obtain ⟨v, hv, -, hone⟩ := exists_mapsTo_of_kept hkept hne
    have hle' : mapsTo (leaf t.mem pt v) pg ≤ leafCount t.mem pt pg := mapsTo_le_leafCount hv
    omega
  omega

/-- What can be touched later could be touched before. -/
theorem Touchable.of_later (h : Touchable t pt pg) : Touchable s pt pg := by
  have hspare : nodeCount s.mem 2 pt pg ≠ 0 ∨ s.freelist.count pg ≠ 0 → Touchable s pt pg :=
    fun h ↦ h.imp_right .inl
  rcases h with hnode | hfree | ⟨v, hv, hV, hU, hW, hpa⟩
  · exact hspare (hs.spare_of_later ht hkept (.inl hnode))
  · exact hspare (hs.spare_of_later ht hkept (.inr hfree))
  · by_cases hsV : hasFlag (leaf s.mem pt v) pteV = true
    · rw [hkept v hv hsV] at hU hW hpa
      exact .inr (.inr ⟨v, hv, hsV, hU, hW, hpa⟩)
    · have hstock := hs.stock pg
      have hstock' := ht.stock pg
      have hone := (ht.leaf_page hv hV).2.1
      have hvt : mapsTo (leaf t.mem pt v) pg = 1 := by rw [← hpa, mapsTo_of_valid hV]
      have hle : mapsTo (leaf t.mem pt v) pg ≤ leafCount t.mem pt pg := mapsTo_le_leafCount hv
      rw [hpa] at hone
      refine hspare ?_
      have hleaf : leafCount s.mem pt pg = 0 := by
        by_contra hne
        obtain ⟨w, hw, hwV, hwt⟩ := exists_mapsTo_of_kept hkept hne
        have hvw : v ≠ w := by
          rintro rfl
          exact hsV hwV
        have htwo : mapsTo (leaf t.mem pt v) pg + mapsTo (leaf t.mem pt w) pg ≤
          leafCount t.mem pt pg := mapsTo_add_le_leafCount hv hw hvw
        omega
      omega

end

/-! ### `copyout` -/

/-- What `copyout` of `len` bytes to `va` has done when it returns `r`, having copied `k` of them.
-/
structure CopiedOut (s t : Phys) (pt sz va len : ℕ) (src : ℕ → BitVec 8) (r : ℤ) (k : ℕ) :
    Prop where
  result : r = 0 ∧ k = len ∨ r = -1 ∧ k < len ∧ (k = 0 ∨ (va + k) % pgsize = 0)
  exact : r = 0 ↔ ∀ a, va ≤ a → a < va + len → Copyable true s pt sz (va / pgsize) (a / pgsize)
  bytes : ∀ a, userByte t.mem pt sz a =
    if va ≤ a ∧ a < va + k then some (src (a - va)) else userByte s.mem pt sz a
  kept : ∀ v < 2 ^ 27, hasFlag (leaf s.mem pt v) pteV = true → leaf t.mem pt v = leaf s.mem pt v
  frame : ∀ pg, t.mem pg ≠ s.mem pg → Touchable s pt pg

omit [Image] in
/-- The copy stops before the first byte. -/
theorem CopiedOut.stop {len : ℕ} {src : ℕ → BitVec 8} (hlen : 0 < len)
    (hview : completed t.mem pt sz = completed s.mem pt sz)
    (hkept : ∀ v < 2 ^ 27, hasFlag (leaf s.mem pt v) pteV = true →
      leaf t.mem pt v = leaf s.mem pt v)
    (hframe : ∀ pg, nodeCount s.mem 2 pt pg = 0 → s.freelist.count pg = 0 → t.mem pg = s.mem pg)
    (hnot : ¬Copyable true s pt sz (va / pgsize) (va / pgsize)) :
    CopiedOut s t pt sz va len src (-1) 0 where
  result := .inr ⟨rfl, hlen, .inl rfl⟩
  exact := iff_of_false (by decide) fun h ↦ hnot (h va le_rfl (by omega))
  bytes a := by rw [if_neg (by omega), userByte_congr hview]
  kept := hkept
  frame pg hne := by
    by_cases hn : nodeCount s.mem 2 pt pg = 0
    · by_cases hf : s.freelist.count pg = 0
      · exact absurd (hframe pg hn hf) hne
      · exact .inr (.inl hf)
    · exact .inl hn

omit [Image] in
/-- The leaves that were valid stay over a turn. -/
theorem Turn.kept_valid (h : Turn s t pt sz v pa) (hsame : SameUser s t pt sz) :
    ∀ w < 2 ^ 27, hasFlag (leaf s.mem pt w) pteV = true → leaf t.mem pt w = leaf s.mem pt w := by
  intro w hw hV
  by_cases hwv : w = v
  · rcases lt_or_ge w userPages with hlt | hge
    · exact hsame.kept w hlt hV
    · exact hsame.top w hge hw
  · exact h.kept w hw hwv

omit [Image] in
/-- The bytes after a piece has been copied to a page. -/
theorem Coherent.userByte_store {n : ℕ} {src : ℕ → BitVec 8} (h : Coherent m pt)
    (hr : Reaches m pt (va / pgsize) pa) (hn : va - pgRoundDown va + n ≤ 4096) (a : ℕ) :
    userByte (update m pa (putBytes (m pa) (va - pgRoundDown va) n src)) pt sz a =
      if va ≤ a ∧ a < va + n then some (src (a - va)) else userByte m pt sz a := by
  have hoff : va - pgRoundDown va = va % 4096 := by
    show va - va / 4096 * 4096 = va % 4096
    omega
  rw [hoff] at hn ⊢
  rw [userByte, (h.store sz hr _).2.2]
  by_cases ha : a / pgsize = va / pgsize
  · have ha' : a / 4096 = va / 4096 := ha
    have hmod : a % pgsize = a % 4096 := rfl
    rw [ha, update_self, map_some, byteAt_putBytes _ _ hn, hmod, userByte, ha,
      completed_of_valid hr.lt hr.valid, map_some, hr.pa_eq, hmod]
    by_cases hin : va ≤ a ∧ a < va + n
    · rw [if_pos (by omega), if_pos hin, show a % 4096 - va % 4096 = a - va by omega]
    · rw [if_neg (by omega), if_neg hin]
  · have ha' : ¬a / 4096 = va / 4096 := ha
    rw [update_of_ne ha, if_neg (by omega), userByte]

omit [Image] in
/-- A store to a page of the user's leaves the page table as it is. -/
theorem Coherent.agrees_store (h : Coherent m pt) (hr : Reaches m pt v pa) (b : Page) :
    Agrees m (update m pa b) 2 pt := by
  intro pg hpg
  refine update_of_ne ?_ _ _
  rintro rfl
  exact hpg (hr.pa_eq ▸ h.apart v hr.lt hr.valid)

omit [Image] in
/-- A range is one piece in its first page, and the rest from the next page on. -/
theorem forall_range_iff {len : ℕ} {P Q : ℕ → Prop} (hlen : 0 < len) (hva : va / pgsize < userPages)
    (hfirst : P (va / pgsize)) (hlater : ∀ x, va / pgsize < x → (Q x ↔ P x)) :
    (∀ a, pgRoundDown va + pgsize ≤ a →
        a < pgRoundDown va + pgsize + (len - View.chunk va len) → Q (a / pgsize)) ↔
      ∀ a, va ≤ a → a < va + len → P (a / pgsize) := by
  obtain ⟨-, -, hle, hin, hnext⟩ := View.chunk_cases va hlen
  have hdiv : (pgRoundDown va + 4096) / 4096 = va / 4096 + 1 := (Pager.next_va hva).2
  have hpage : ∀ a, pgRoundDown va + pgsize ≤ a → va / pgsize < a / pgsize := by
    intro a (hle' : pgRoundDown va + 4096 ≤ a)
    show va / 4096 < a / 4096
    omega
  refine ⟨fun hall a hle hlt ↦ ?_, fun hall a hle hlt ↦ ?_⟩
  · rcases lt_or_ge a (va + View.chunk va len) with hpiece | hrest
    · rwa [show a / pgsize = va / pgsize from hin a hle hpiece]
    · obtain ⟨heq, -⟩ := hnext (by omega)
      exact (hlater _ (hpage a (by omega))).1 (hall a (by omega) (by omega))
  · obtain ⟨heq, -⟩ := hnext (by omega)
    exact (hlater _ (hpage a hle)).2 (hall a (by omega) (by omega))

/-- A piece has been copied to one page, and the rest from the next page on. -/
theorem CopiedOut.cons {len k : ℕ} {src : ℕ → BitVec 8} {r : ℤ} {q : Phys}
    (hs : Space S M s pt hand) (hu : Space S M u pt hand) (hlen : 0 < len)
    (hturn : Turn s t pt sz (va / pgsize) pa) (hpa : pa ≠ 0) (hsame : SameUser s t pt sz)
    (hcoherent : Coherent t.mem pt) (hr : Reaches t.mem pt (va / pgsize) pa)
    (hW : hasFlag (leaf t.mem pt (va / pgsize)) pteW = true)
    (hm : u.mem = update t.mem pa
      (putBytes (t.mem pa) (va - pgRoundDown va) (View.chunk va len) src))
    (hfree : u.freelist = t.freelist) (hfails : u.fails = t.fails)
    (h : CopiedOut u q pt sz (pgRoundDown va + pgsize) (len - View.chunk va len)
      (fun j ↦ src (View.chunk va len + j)) r k) :
    CopiedOut s q pt sz va len src r (View.chunk va len + k) := by
  obtain ⟨hpos, hoff, hle, hin, hnext⟩ := View.chunk_cases va hlen
  obtain ⟨-, hdiv⟩ := Pager.next_va hr.lt
  have hagrees : Agrees t.mem u.mem 2 pt := hm ▸ hcoherent.agrees_store hr _
  have hleaf := hagrees.leaf_eq
  have hcopy : ∀ x, va / pgsize < x →
      (Copyable true u pt sz (va / pgsize + 1) x ↔ Copyable true s pt sz (va / pgsize) x) :=
    fun x hx ↦ (copyable_congr hleaf hagrees.missing_eq hfree hfails).trans
      (hturn.next hpa true x hx)
  have hkept : ∀ v < 2 ^ 27, hasFlag (leaf s.mem pt v) pteV = true →
      leaf u.mem pt v = leaf s.mem pt v := fun v hv hV ↦
    (hleaf v).trans (hturn.kept_valid hsame v hv hV)
  refine ⟨?_, ?_, fun a ↦ ?_, fun v hv hV ↦ ?_, fun pg hpg ↦ ?_⟩
  · rcases h.result with ⟨hr0, hk⟩ | ⟨hr1, hk, hend⟩
    · exact .inl ⟨hr0, by omega⟩
    · obtain ⟨hva, hmod⟩ := hnext (by omega)
      refine .inr ⟨hr1, by omega, .inr ?_⟩
      rw [← add_assoc, ← hva]
      rcases hend with rfl | hend
      · rw [hva]
        exact hmod
      · exact hend
  · rw [h.exact, hdiv]
    exact forall_range_iff hlen hr.lt ((hturn.writable hpa).1 hW) hcopy
  · rw [h.bytes, hm, hcoherent.userByte_store hr hoff, userByte_congr hsame.view]
    rcases Nat.eq_or_lt_of_le hle with heq | hlt
    · have hk : k = 0 := by
        rcases h.result with ⟨-, hk⟩ | ⟨-, hk, -⟩ <;> omega
      subst hk
      rw [if_neg (by omega), add_zero]
    · obtain ⟨hva, -⟩ := hnext hlt
      rw [hva]
      by_cases hlater : va + View.chunk va len ≤ a ∧ a < va + View.chunk va len + k
      · rw [if_pos hlater, if_pos (by omega),
          show View.chunk va len + (a - (va + View.chunk va len)) = a - va by omega]
      · rw [if_neg hlater]
        by_cases hfirst : va ≤ a ∧ a < va + View.chunk va len
        · rw [if_pos hfirst, if_pos (by omega)]
        · rw [if_neg hfirst, if_neg (by omega)]
  · rw [h.kept v hv (by rwa [hkept v hv hV]), hkept v hv hV]
  · by_cases hqu : q.mem pg = u.mem pg
    · rw [hqu] at hpg
      by_cases hpgpa : pg = pa
      · have htouch : Touchable u pt pg := .inr (.inr ⟨va / pgsize, hr.lt, by
          rw [hleaf]
          exact ⟨hr.valid, hr.user, hW, hr.pa_eq.trans hpgpa.symm⟩⟩)
        exact htouch.of_later hs hu fun v hv ↦ hkept v (by rw [userPages_eq] at hv; omega)
      · rw [hm, update_of_ne hpgpa] at hpg
        by_cases hn : nodeCount s.mem 2 pt pg = 0
        · by_cases hf : s.freelist.count pg = 0
          · exact absurd (hturn.frame pg hn hf) hpg
          · exact .inr (.inl hf)
        · exact .inl hn
    · exact (h.frame pg hqu).of_later hs hu fun v hv ↦ hkept v (by rw [userPages_eq] at hv; omega)

/-- Where no memory is promised, the range does not matter. -/
theorem Supplied.reindex {y y' e' : ℕ} (h : Supplied S M hand pt sz e False y s) :
    Supplied S M hand pt sz e' False y' s :=
  ⟨h.space, h.guarded, False.elim⟩

/-- One turn, with what it keeps. -/
theorem Supplied.whole_turn {y : ℕ} (h : Supplied S M hand pt sz e False y s)
    (hsz : sz ≤ trapframeVa) :
    wp (walkOrFault pt sz pt (v * pgsize))
      (fun pa t ↦ Supplied S M hand pt sz e False y t ∧ SameUser s t pt sz ∧
        (pa ≠ 0 → Reaches t.mem pt v pa) ∧ Turn s t pt sz v pa) s := by
  have hpager : Pager pt sz (v * pgsize + 1) False
      (Supplied S M hand pt sz (v * pgsize + 1) False) := supplied_pager hsz
  refine ((hpager.turn v s h.reindex (Nat.lt_succ_self _)).and (h.turn hsz)).mono fun pa t ht ↦ ?_
  exact ⟨ht.1.1.reindex, ht.1.2.1, ht.1.2.2.1, ht.2⟩

omit [Image] in
theorem CopiedOut.nil (src : ℕ → BitVec 8) : CopiedOut s s pt sz va 0 src 0 0 where
  result := .inl ⟨rfl, rfl⟩
  exact := iff_of_true rfl fun a hle hlt ↦ by omega
  bytes a := by rw [if_neg (by omega)]
  kept _ _ _ := rfl
  frame _ hne := absurd rfl hne

/-- **The loop of `copyout`.** -/
theorem Supplied.copyoutFrom {y turns len : ℕ} {src : ℕ → BitVec 8}
    (h : Supplied S M hand pt sz e False y s) (hsz : sz ≤ trapframeVa) (hturns : len ≤ turns) :
    wp (Xv6.copyoutFrom pt sz pt turns va src len)
      (fun r t ↦ Supplied S M hand pt sz e False y t ∧ ∃ k, CopiedOut s t pt sz va len src r k)
      s := by
  induction turns generalizing s va src len with
  | zero =>
    obtain rfl : len = 0 := Nat.le_zero.1 hturns
    rw [Xv6.copyoutFrom, if_neg (by omega), wp_pure]
    exact ⟨h, 0, .nil src⟩
  | succ turns ih =>
    rw [Xv6.copyoutFrom, wp_ite, wp_pure]
    refine ⟨fun hlen ↦ ?_, fun hlen ↦ ?_⟩
    swap
    · obtain rfl : len = 0 := by omega
      exact ⟨h, 0, .nil src⟩
    rw [wp_ite, wp_pure]
    refine ⟨fun hge ↦ ⟨h, 0, .stop hlen rfl (fun _ _ _ ↦ rfl) (fun _ _ _ ↦ rfl) fun hc ↦ ?_⟩,
      fun hlt ↦ ?_⟩
    · have hge' : 274877906944 ≤ va / 4096 * 4096 := hge
      have hc' : va / 4096 < 2 ^ 26 := hc.1
      omega
    rw [wp_bind]
    refine (h.whole_turn hsz).mono fun pa t ht ↦ ?_
    obtain ⟨ht, hsame, hreach, hturn⟩ := ht
    rw [wp_ite, wp_pure]
    refine ⟨fun h0 ↦ ⟨ht, 0, .stop hlen hsame.view (hturn.kept_valid hsame) hturn.frame
      fun hc ↦ hturn.refused h0 hc.read⟩, fun h0 ↦ ?_⟩
    have hr := hreach h0
    obtain ⟨c, i, hp, hleaf⟩ := hr.slot
    rw [wp_bind, wp_walk, hp]
    refine ⟨Nat.lt_of_not_le hlt, ?_⟩
    rw [wp_bind, wp_loadPte, hleaf, wp_ite, wp_pure]
    refine ⟨fun hW ↦ ⟨ht, 0, .stop hlen hsame.view (hturn.kept_valid hsame) hturn.frame
      fun hc ↦ ?_⟩, fun hW ↦ ?_⟩
    · rw [(hturn.writable h0).2 hc] at hW
      exact Bool.false_ne_true hW
    · rw [wp_bind, wp_loadPage, wp_bind, wp_storePage, (Pager.next_va hr.lt).1]
      have hcoherent := ht.coherent
      have hpager : Pager pt sz e False (Supplied S M hand pt sz e False) := supplied_pager hsz
      have hstore := hpager.store y t _ pa
        (putBytes (t.mem pa) (va - pgRoundDown va) (View.chunk va len) src) ht hr
      refine (ih hstore ?_).mono fun r q hq ↦ ?_
      · have hpos := (View.chunk_cases va hlen).1
        show len - View.chunk va len ≤ turns
        omega
      obtain ⟨hq, k, hk⟩ := hq
      exact ⟨hq, _, .cons h.space hstore.space hlen hturn h0 hsame hcoherent hr
        (by simpa using hW) rfl rfl rfl hk⟩

/-! ### `copyin` -/

/-- What `copyin` of `len` bytes from `va` has done when it returns `r`, having copied `bytes`. -/
structure CopiedIn (s t : Phys) (pt sz va len : ℕ) (r : ℤ) (bytes : List (BitVec 8)) : Prop where
  result : r = 0 ∧ bytes.length = len ∨
    r = -1 ∧ bytes.length < len ∧ (bytes.length = 0 ∨ (va + bytes.length) % pgsize = 0)
  exact : r = 0 ↔ ∀ a, va ≤ a → a < va + len → Copyable false s pt sz (va / pgsize) (a / pgsize)
  bytes_eq : ∀ j < bytes.length, bytes[j]? = userByte s.mem pt sz (va + j)
  reached : ∀ j < bytes.length, ∃ pa, Reaches t.mem pt ((va + j) / pgsize) pa
  view : completed t.mem pt sz = completed s.mem pt sz
  kept : ∀ v < 2 ^ 27, hasFlag (leaf s.mem pt v) pteV = true → leaf t.mem pt v = leaf s.mem pt v
  frame : ∀ pg, nodeCount s.mem 2 pt pg = 0 → s.freelist.count pg = 0 → t.mem pg = s.mem pg

omit [Image] in
theorem CopiedIn.nil : CopiedIn s s pt sz va 0 0 [] where
  result := .inl ⟨rfl, rfl⟩
  exact := iff_of_true rfl fun a hle hlt ↦ by omega
  bytes_eq j hj := absurd hj (Nat.not_lt_zero j)
  reached j hj := absurd hj (Nat.not_lt_zero j)
  view := rfl
  kept _ _ _ := rfl
  frame _ _ _ := rfl

/-- A piece has been copied from one page, and the rest from the next page on. -/
theorem CopiedIn.cons {len : ℕ} {r : ℤ} {q : Phys} {rest : List (BitVec 8)}
    (hs : Space S M s pt hand) (ht : Space S M t pt hand) (hlen : 0 < len)
    (hturn : Turn s t pt sz (va / pgsize) pa) (hpa : pa ≠ 0) (hsame : SameUser s t pt sz)
    (hr : Reaches t.mem pt (va / pgsize) pa)
    (h : CopiedIn t q pt sz (pgRoundDown va + pgsize) (len - View.chunk va len) r rest) :
    CopiedIn s q pt sz va len r ((List.range (View.chunk va len)).map (fun k ↦
      byteAt (t.mem pa) (va - pgRoundDown va + k)) ++ rest) := by
  obtain ⟨hpos, hoff, hle, hin, hnext⟩ := View.chunk_cases va hlen
  obtain ⟨-, hdiv⟩ := Pager.next_va hr.lt
  have hkept := hturn.kept_valid hsame
  have hlength : ((List.range (View.chunk va len)).map (fun k ↦
      byteAt (t.mem pa) (va - pgRoundDown va + k)) ++ rest).length =
      View.chunk va len + rest.length := by
    rw [List.length_append, List.length_map, List.length_range]
  refine ⟨?_, ?_, fun j hj ↦ ?_, fun j hj ↦ ?_, h.view.trans hsame.view, fun v hv hV ↦ ?_,
    fun pg hn hf ↦ ?_⟩
  · rw [hlength]
    rcases h.result with ⟨hr0, hk⟩ | ⟨hr1, hk, hend⟩
    · exact .inl ⟨hr0, by omega⟩
    · obtain ⟨hva, hmod⟩ := hnext (by omega)
      refine .inr ⟨hr1, by omega, .inr ?_⟩
      rw [← add_assoc, ← hva]
      rcases hend with hend | hend
      · rw [hend, add_zero, hva]
        exact hmod
      · exact hend
  · rw [h.exact, hdiv]
    exact forall_range_iff hlen hr.lt (hturn.readable hpa) (hturn.next hpa false)
  · rw [hlength] at hj
    rcases lt_or_ge j (View.chunk va len) with hfirst | hlater
    · have hpage : (va + j) / pgsize = va / pgsize := hin (va + j) (by omega) (by omega)
      have hpage' : (va + j) / 4096 = va / 4096 := hpage
      have hmod : va - pgRoundDown va + j = (va + j) % pgsize := by
        show va - va / 4096 * 4096 + j = (va + j) % 4096
        omega
      rw [List.getElem?_append_left (by rwa [List.length_map, List.length_range]),
        List.getElem?_map, List.getElem?_range hfirst, map_some, ← userByte_congr hsame.view,
        userByte, hpage, completed_of_valid hr.lt hr.valid, map_some, hr.pa_eq, hmod]
    · have hpos' : 0 < rest.length := by omega
      obtain ⟨hva, -⟩ := hnext (by rcases h.result with h' | h' <;> omega)
      rw [List.getElem?_append_right (by rwa [List.length_map, List.length_range]), List.length_map,
        List.length_range, h.bytes_eq _ (by omega), hva, userByte_congr hsame.view]
      congr 1
      omega
  · rw [hlength] at hj
    rcases lt_or_ge j (View.chunk va len) with hfirst | hlater
    · have hpage : (va + j) / pgsize = va / pgsize := hin (va + j) (by omega) (by omega)
      have hv : va / pgsize < 2 ^ 27 := by
        have hv := hr.lt
        rw [userPages_eq] at hv
        omega
      have hleaf := h.kept _ hv hr.valid
      rw [hpage]
      exact ⟨pa, hr.lt, by rw [hleaf]; exact hr.valid, by rw [hleaf]; exact hr.user,
        by rw [hleaf]; exact hr.pa_eq⟩
    · obtain ⟨hva, -⟩ := hnext (by rcases h.result with h' | h' <;> omega)
      obtain ⟨pa', hpa'⟩ := h.reached (j - View.chunk va len) (by omega)
      rw [hva, show va + View.chunk va len + (j - View.chunk va len) = va + j by omega] at hpa'
      exact ⟨pa', hpa'⟩
  · rw [h.kept v hv (by rwa [hkept v hv hV]), hkept v hv hV]
  · have hspare : ¬(nodeCount t.mem 2 pt pg ≠ 0 ∨ t.freelist.count pg ≠ 0) := fun hlater ↦ by
      have hbefore := hs.spare_of_later ht (fun v hv ↦ hkept v (by rw [userPages_eq] at hv; omega))
        hlater
      omega
    rw [h.frame pg (by omega) (by omega), hturn.frame pg hn hf]

/-- **The loop of `copyin`.** -/
theorem Supplied.copyinFrom {y turns len : ℕ}
    (h : Supplied S M hand pt sz e False y s) (hsz : sz ≤ trapframeVa) (hturns : len ≤ turns) :
    wp (Xv6.copyinFrom pt sz pt turns va len)
      (fun r t ↦ Supplied S M hand pt sz e False y t ∧ CopiedIn s t pt sz va len r.1 r.2) s := by
  induction turns generalizing s va len with
  | zero =>
    obtain rfl : len = 0 := Nat.le_zero.1 hturns
    rw [Xv6.copyinFrom, if_neg (by omega), wp_pure]
    exact ⟨h, .nil⟩
  | succ turns ih =>
    rw [Xv6.copyinFrom, wp_ite, wp_pure]
    refine ⟨fun hlen ↦ ?_, fun hlen ↦ ?_⟩
    swap
    · obtain rfl : len = 0 := by omega
      exact ⟨h, .nil⟩
    rw [wp_bind]
    refine (h.whole_turn hsz).mono fun pa t ht ↦ ?_
    obtain ⟨ht, hsame, hreach, hturn⟩ := ht
    rw [wp_ite, wp_pure]
    refine ⟨fun h0 ↦ ⟨ht, ?_⟩, fun h0 ↦ ?_⟩
    · exact ⟨.inr ⟨rfl, hlen, .inl rfl⟩,
        iff_of_false (by decide) fun hall ↦ hturn.refused h0 (hall va le_rfl (by omega)),
        fun j hj ↦ absurd hj (Nat.not_lt_zero j), fun j hj ↦ absurd hj (Nat.not_lt_zero j),
        hsame.view, hturn.kept_valid hsame, hturn.frame⟩
    have hr := hreach h0
    rw [wp_bind, wp_loadPage, wp_bind, (Pager.next_va hr.lt).1]
    refine (ih ht ?_).mono fun r q hq ↦ ?_
    · have hpos := (View.chunk_cases va hlen).1
      show len - View.chunk va len ≤ turns
      omega
    rw [wp_pure]
    exact ⟨hq.1, .cons h.space ht.space hlen hturn h0 hsame hr hq.2⟩

/-! ### Both copies -/

/-- A page of the process that the user cannot write is spared: its text, its guard page. -/
theorem Space.not_touchable (hs : Space S M s pt hand) (hv : v < userPages)
    (hV : hasFlag (leaf s.mem pt v) pteV = true)
    (hUW : ¬(hasFlag (leaf s.mem pt v) pteU = true ∧ hasFlag (leaf s.mem pt v) pteW = true)) :
    ¬Touchable s pt (pte2pa (leaf s.mem pt v)) := by
  have hone : mapsTo (leaf s.mem pt v) (pte2pa (leaf s.mem pt v)) ≤
    leafCount s.mem pt (pte2pa (leaf s.mem pt v)) := mapsTo_le_leafCount hv
  have hstock := hs.stock (pte2pa (leaf s.mem pt v))
  have hle := S.le_one (pte2pa (leaf s.mem pt v))
  rw [mapsTo_of_valid hV] at hone
  rintro (hnode | hfree | ⟨w, hw, hwV, hwU, hwW, heq⟩)
  · omega
  · omega
  · have hne : v ≠ w := by
      rintro rfl
      exact hUW ⟨hwU, hwW⟩
    have htwo : mapsTo (leaf s.mem pt v) (pte2pa (leaf s.mem pt v)) +
        mapsTo (leaf s.mem pt w) (pte2pa (leaf s.mem pt v)) ≤
        leafCount s.mem pt (pte2pa (leaf s.mem pt v)) := mapsTo_add_le_leafCount hv hw hne
    rw [mapsTo_of_valid hV, ← heq, mapsTo_of_valid hwV, heq] at htwo
    omega

/-- **The copies touch exactly the user's pages.** A process owns its page-table pages and its user
pages, and every page outside the estate (the trampoline, the trapframe, the memory of other
processes) stays as it is. -/
theorem userCopy_exact (hs : Space S M s pt hand) (hshape : WellShaped s.mem pt sz) (va len : ℕ) :
    (∀ src, ∃ r t k, copyout pt sz pt va src len s = .ok (r, t) ∧ Space S M t pt hand ∧
      CopiedOut s t pt sz va len src r k ∧
      (∀ v < userPages, hasFlag (leaf s.mem pt v) pteV = true →
        ¬(hasFlag (leaf s.mem pt v) pteU = true ∧ hasFlag (leaf s.mem pt v) pteW = true) →
        t.mem (pte2pa (leaf s.mem pt v)) = s.mem (pte2pa (leaf s.mem pt v))) ∧
      ∀ pg, S.count pg = 0 → t.mem pg = s.mem pg) ∧
    ∃ r bytes t, copyin pt sz pt va len s = .ok ((r, bytes), t) ∧ Space S M t pt hand ∧
      CopiedIn s t pt sz va len r bytes ∧ ∀ pg, S.count pg = 0 → t.mem pg = s.mem pg := by
  have hready : Supplied S M hand pt sz 0 False 0 s :=
    ⟨hs, fun w hw hlt ↦ hshape.guarded hw (by omega), False.elim⟩
  refine ⟨fun src ↦ ?_, ?_⟩
  · have hrun : wp (copyoutFrom pt sz pt len va src len) _ s :=
      hready.copyoutFrom hshape.size le_rfl
    obtain ⟨r, t, hrun, ht, k, hk⟩ := hrun
    refine ⟨r, t, k, hrun, ht.space, hk, fun v hv hV hUW ↦ ?_, fun pg hpg ↦ ?_⟩
    · by_contra hne
      exact hs.not_touchable hv hV hUW (hk.frame _ hne)
    · rw [ht.space.frame pg hpg, hs.frame pg hpg]
  · have hrun : wp (copyinFrom pt sz pt len va len) _ s := hready.copyinFrom hshape.size le_rfl
    obtain ⟨⟨r, bytes⟩, t, hrun, ht, hk⟩ := hrun
    refine ⟨r, bytes, t, hrun, ht.space, hk, fun pg hpg ↦ ?_⟩
    rw [ht.space.frame pg hpg, hs.frame pg hpg]

omit [Image] in
/-- A new process with a page that has no memory yet: sixteen bytes are copied there. -/
theorem userCopy_exact_new : ∃ s pt, @Space smallImage tenFreeEstate tenFree.mem s pt [] ∧
    WellShaped s.mem pt 4096 ∧ IsLazy s.mem pt 4096 0 ∧
    ∃ t, @copyout smallImage pt 4096 pt 8 (fun _ ↦ 7) 16 s = .ok (0, t) ∧
      userByte t.mem pt 4096 23 = some 7 := by
  let _ : Image := smallImage
  obtain ⟨s, pt, hs, hshape, hample, hlazy⟩ := exists_lazy_process
  obtain ⟨r, t, k, hrun, -, hk, -⟩ := (userCopy_exact hs hshape 8 16).1 fun _ ↦ 7
  have hV : hasFlag (leaf s.mem pt 0) pteV = false := Bool.eq_false_iff.2 fun hV ↦ by
    have hnone := hlazy.1
    rw [mapped_of_valid (by rw [userPages_eq]; decide) hV] at hnone
    exact absurd hnone (Option.some_ne_none _)
  have hself : lazyPages s.mem pt 4096 0 ((0 + 1) * pgsize) = {0} :=
    lazyPages_self hshape.size hV (by decide)
  have havail : Avail s (demand s.mem pt (lazyPages s.mem pt 4096 0 ((0 + 1) * pgsize))) := by
    have hle : missing s.mem 2 pt (0 * pgsize) ≤ 2 := missing_le
    have hthree : 3 * (lazyPages s.mem pt 4096 0 ((0 + 1) * pgsize)).card ≤ s.freelist.length :=
      hample.2
    rw [hself, Finset.card_singleton] at hthree
    rw [hself, demand_singleton]
    exact ⟨by omega, fun i _ ↦ by rw [hample.1]; exact nofun⟩
  have hr : r = 0 := hk.exact.2 fun a hle hlt ↦ by
    rw [show a / pgsize = 0 from Nat.div_eq_of_lt (show a < 4096 by omega)]
    exact ⟨by decide, .inr ⟨hV, by decide, havail⟩⟩
  refine ⟨s, pt, hs, hshape, hlazy, t, by rw [← hr]; exact hrun, ?_⟩
  rw [hk.bytes 23, if_pos]
  rcases hk.result with h | h <;> omega

end Xv6

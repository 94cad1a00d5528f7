import Mathlib.Data.List.TakeWhile
import Xv6.Vm.ProcTable

/-!
# Lazy allocation and the copies between kernel and user

A process whose pages are given to it lazily, and the same process with all of them in place: the
second is a *completion* of the first (`IsCompletion`). `copyin` and `copyout` cannot tell the two
apart, as both go through `vmfault`. `copyinstr` does not: a string whose final null is in a page
that has no memory yet is refused (`copyinstr_mapped`), although the bytes before it are delivered.
-/

namespace Xv6

open List Option

/-- The memory `n` with the page table `q` is the memory `m` with the page table `pt`, every page
below `PGROUNDUP(sz)` that was not mapped being mapped to a page of zeros. -/
structure IsCompletion (m : Memory) (pt : ℕ) (n : Memory) (q sz : ℕ) : Prop where
  view : mapped n q = completed m pt sz
  coherent : Coherent n q

variable {s t : Phys} {m n : Memory} {pt q sz v va : ℕ}

/-! ### Strings -/

/-- The page `v` is below the size, and not mapped. -/
def IsLazy (m : Memory) (pt sz v : ℕ) : Prop := mapped m pt v = none ∧ v < pagesOf sz

instance : Decidable (IsLazy m pt sz v) := inferInstanceAs (Decidable (_ ∧ _))

/-- What `walkaddr` finds is what is mapped. -/
theorem Coherent.page_mapped (h : Coherent m pt) (va : ℕ) :
    (userPa m pt (pgRoundDown va) = 0 ∧ (mapped m pt).page (va / pgsize) = none) ∨
      (userPa m pt (pgRoundDown va) ≠ 0 ∧ va / pgsize < userPages ∧
        ∃ f, (mapped m pt).page (va / pgsize) = some (f, m (userPa m pt (pgRoundDown va)))) := by
  by_cases h0 : userPa m pt (pgRoundDown va) = 0
  · refine .inl ⟨h0, ?_⟩
    rw [View.page, mapped]
    split_ifs with hc
    · rw [filter_some, hasFlag_pteFlags (by decide), h.not_user h0 hc.1 hc.2,
        if_neg Bool.false_ne_true]
    · rw [filter_none]
  · have hr := h.reaches h0
    refine .inr ⟨h0, hr.lt, pteFlags (leaf m pt (va / pgsize)), ?_⟩
    rw [View.page, mapped_of_valid hr.lt hr.valid, filter_some, hasFlag_pteFlags (by decide),
      hr.user, if_pos rfl, hr.pa_eq]
    rfl

/-- `copyinstr` reads the pages that are mapped, and changes nothing. -/
theorem copyinstrFrom_spec {turns max : ℕ} (h : Coherent s.mem pt) (hturns : max ≤ turns) :
    wp (copyinstrFrom pt turns va max)
      (fun r t ↦ t = s ∧ r = (mapped s.mem pt).copyinstr turns va max) s := by
  induction turns generalizing va max with
  | zero =>
    rw [copyinstrFrom, if_neg (by omega), wp_pure]
    exact ⟨rfl, rfl⟩
  | succ turns ih =>
    rw [copyinstrFrom, View.copyinstr_succ, wp_ite]
    refine ⟨fun hmax ↦ ?_, fun hmax ↦ by rw [wp_pure, if_neg hmax]; exact ⟨rfl, rfl⟩⟩
    rw [if_pos hmax, wp_bind, wp_walkaddr, wp_ite]
    rcases h.page_mapped va with ⟨h0, hpage⟩ | ⟨h0, hv, f, hpage⟩
    · refine ⟨fun _ ↦ ?_, fun hne ↦ absurd h0 hne⟩
      rw [wp_pure, hpage]
      exact ⟨rfl, rfl⟩
    · refine ⟨fun h0' ↦ absurd h0' h0, fun _ ↦ ?_⟩
      have hpos : 0 < View.chunk va max := (Pager.chunk_pos hmax le_rfl).1
      rw [wp_bind, wp_loadPage, hpage, wp_ite, (Pager.next_va hv).1]
      refine ⟨fun hnull ↦ ?_, fun hnull ↦ ?_⟩
      · rw [wp_pure]
        exact ⟨rfl, (if_pos hnull).symm⟩
      · rw [wp_bind]
        have hleft : max - View.chunk va max ≤ turns := by omega
        refine (ih hleft).mono fun r t hr ↦ ?_
        obtain ⟨rfl, hr⟩ := hr
        rw [wp_pure]
        refine ⟨rfl, ?_⟩
        rw [hr]
        exact (if_neg hnull).symm

theorem View.copyinstr_zero (U : View) (turns va : ℕ) : U.copyinstr turns va 0 = (-1, []) := by
  cases turns <;> rfl

/-- A null in a list is found before its end. -/
theorem length_takeWhile_lt {bytes : List (BitVec 8)} (h : 0 ∈ bytes) :
    (bytes.takeWhile (· ≠ 0)).length < bytes.length := by
  refine lt_of_le_of_ne ( takeWhile_prefix _).length_le fun heq ↦ ?_
  have hall := ( takeWhile_prefix fun b : BitVec 8 ↦ decide (b ≠ 0)).eq_of_length heq
  exact absurd (takeWhile_eq_self_iff.1 hall 0 h) (by decide)

/-- A page that is not mapped is a page of zeros for the completion, and the string ends there. -/
theorem copyinstr_of_isLazy {turns max : ℕ} (h : IsLazy m pt sz (va / pgsize)) (hmax : 0 < max) :
    (completed m pt sz).copyinstr (turns + 1) va max = (0, []) := by
  have hpos : 0 < View.chunk va max := (Pager.chunk_pos hmax le_rfl).1
  have hnull : 0 ∈ (List.range (View.chunk va max)).map fun k ↦
      byteAt (filled 0) (va - pgRoundDown va + k) :=
    mem_map.2 ⟨0, mem_range.2 hpos, byteAt_zeros _⟩
  have hnil : ((List.range (View.chunk va max)).map fun k ↦
      byteAt (filled 0) (va - pgRoundDown va + k)).takeWhile (· ≠ 0) = [] := by
    rw [takeWhile_eq_nil_iff]
    simpa using fun _ ↦ byteAt_zeros (va - pgRoundDown va)
  have hpage : (completed m pt sz).page (va / pgsize) = some (lazyFlags, filled 0) := by
    rw [View.page, completed, h.1, none_or, if_pos h.2, filter_some]
    exact if_pos (by decide)
  rw [View.copyinstr_succ, if_pos hmax, hpage]
  simp only [if_pos hnull, hnil]

theorem copyinstr_of_page_eq_none {U : View} {turns max : ℕ} (h : U.page (va / pgsize) = none) :
    U.copyinstr turns va max = (-1, []) := by
  cases turns with
  | zero => rfl
  | succ turns =>
    rw [View.copyinstr_succ, h]
    exact ite_self _

/-- **Strings in lazy memory**: of the completed memory `copyinstr` reads the same bytes from the
pages that are mapped; if the null comes only in a page that is not, it is not found. -/
theorem copyinstr_mapped (m : Memory) (pt sz turns va max : ℕ) :
    (mapped m pt).copyinstr turns va max =
      (if ((completed m pt sz).copyinstr turns va max).1 = 0 ∧
          IsLazy m pt sz ((va + ((completed m pt sz).copyinstr turns va max).2.length) /
            pgsize) then
        -1 else ((completed m pt sz).copyinstr turns va max).1,
      ((completed m pt sz).copyinstr turns va max).2) := by
  induction turns generalizing va max with
  | zero =>
    exact congrArg (·, [])
      (if_neg fun h ↦ absurd (show (-1 : ℤ) = 0 from h.1) (by decide)).symm
  | succ turns ih =>
    by_cases hmax : max > 0
    rotate_left
    · rw [Nat.eq_zero_of_not_pos hmax, View.copyinstr_zero, View.copyinstr_zero]
      rfl
    cases hm : mapped m pt (va / pgsize) with
    | none =>
      have hnone : (mapped m pt).page (va / pgsize) = none := by
        rw [View.page, hm, filter_none]
      rw [copyinstr_of_page_eq_none hnone]
      by_cases hv : va / pgsize < pagesOf sz
      · have hlazy : IsLazy m pt sz (va / pgsize) := ⟨hm, hv⟩
        rw [copyinstr_of_isLazy hlazy hmax, if_pos]
        exact ⟨rfl, by rwa [length_nil, add_zero]⟩
      · rw [copyinstr_of_page_eq_none (U := completed m pt sz)]
        · rfl
        · rw [View.page, completed, hm, none_or, if_neg hv, filter_none]
    | some p =>
      have hpage : (completed m pt sz).page (va / pgsize) = (mapped m pt).page (va / pgsize) := by
        rw [View.page, View.page, completed, hm, some_or]
      have hoff : va - pgRoundDown va = va % 4096 := by
        show va - va / 4096 * 4096 = va % 4096
        omega
      have hchunk : View.chunk va max = min (4096 - va % 4096) max := by
        rw [View.chunk, hoff]
      rw [View.copyinstr_succ, View.copyinstr_succ, hpage]
      simp only [if_pos hmax]
      cases (mapped m pt).page (va / pgsize) with
      | none => rfl
      | some fb =>
        simp only
        by_cases hnull : 0 ∈ (List.range (View.chunk va max)).map fun k ↦
            byteAt fb.2 (va - pgRoundDown va + k)
        · -- the null is in this page, which is mapped
          simp only [if_pos hnull, true_and]
          have hlt := length_takeWhile_lt hnull
          rw [length_map, length_range] at hlt
          rw [if_neg fun hlazy ↦ ?_]
          rw [IsLazy, show (va + (((List.range (View.chunk va max)).map fun k ↦
            byteAt fb.2 (va - pgRoundDown va + k)).takeWhile (· ≠ 0)).length) / pgsize =
              va / pgsize by rw [pgsize_eq]; omega, hm] at hlazy
          exact absurd hlazy.1 (some_ne_none p)
        · simp only [if_neg hnull]
          rw [ih]
          simp only [length_append, length_map, length_range]
          by_cases hr : ((completed m pt sz).copyinstr turns (pgRoundDown va + pgsize)
              (max - View.chunk va max)).1 = 0
          · -- the string goes on, so this page has been read to its end
            have hleft : 0 < max - View.chunk va max := Nat.pos_of_ne_zero fun h0 ↦ by
              rw [h0, View.copyinstr_zero] at hr
              exact absurd hr (by decide)
            have hnext : pgRoundDown va + pgsize = va + View.chunk va max := by
              have hdown : pgRoundDown va = va / 4096 * 4096 := rfl
              rw [hdown, pgsize_eq]
              omega
            rw [hnext, add_assoc]
          · rw [if_neg fun h ↦ hr h.1, if_neg fun h ↦ hr h.1]

/-! ### The completed process -/

theorem completed_eq_mapped (h : ∀ v < pagesOf sz, hasFlag (leaf m pt v) pteV = true)
    (hsz : sz ≤ trapframeVa) : completed m pt sz = mapped m pt := by
  refine funext fun v ↦ ?_
  by_cases hv : v < pagesOf sz
  · have hvu := lt_of_lt_of_le hv (pagesOf_le hsz)
    rw [completed_of_valid hvu (h v hv), mapped_of_valid hvu (h v hv)]
  · rw [completed, if_neg hv, or_none]

namespace IsCompletion

theorem valid (h : IsCompletion m pt n q sz) {v : ℕ} (hv : v < pagesOf sz) :
    hasFlag (leaf n q v) pteV = true := by
  have hsome : (mapped n q v).isSome := by
    rw [h.view, completed, if_pos hv, isSome_or]
    exact Bool.or_true _
  rw [mapped] at hsome
  split_ifs at hsome with hc
  · exact hc.2
  · exact absurd hsome Bool.false_ne_true

theorem completed_eq (h : IsCompletion m pt n q sz) (hsz : sz ≤ trapframeVa) :
    completed n q sz = completed m pt sz := by
  rw [completed_eq_mapped (fun v hv ↦ h.valid hv) hsz, h.view]

end IsCompletion

section

variable [Image]

/-- Where all pages below the size are mapped, the copies need no memory. -/
theorem complete_pager {e : ℕ} (hsz : sz ≤ trapframeVa) :
    Pager q sz e True fun _ s ↦
      Coherent s.mem q ∧ ∀ v < pagesOf sz, hasFlag (leaf s.mem q v) pteV = true := by
  refine ⟨hsz, fun _ _ h ↦ h.1, fun v s h _ ↦ ?_, fun v s w pa b h hr ↦ ?_⟩
  · rw [walkOrFault, wp_bind, wp_walkaddr, wp_ite]
    refine ⟨fun h0 ↦ ?_, fun h0 ↦ ?_⟩
    · -- there is nothing for `vmfault` to do
      have hstay : v * pgsize < sz → hasFlag (leaf s.mem q v) pteV = true := fun hlt ↦
        h.2 v ((lt_pagesOf hsz).2 hlt)
      have hnone := h.1.page_eq_none hsz h0 hstay
      rw [vmfault, wp_ite]
      refine ⟨fun _ ↦ ?_, fun hlt ↦ ?_⟩
      · rw [wp_pure]
        exact ⟨h, .refl, fun hne ↦ absurd rfl hne, fun _ _ ↦ hnone⟩
      · have hva : v * pgsize < sz := Nat.lt_of_not_le hlt
        have hdown : pgRoundDown (v * pgsize) = v * pgsize := by
          rw [pgRoundDown, Nat.mul_div_cancel _ (by decide)]
        rw [wp_bind, wp_ismapped, hdown, Nat.mul_div_cancel _ (by decide), hstay hva, if_pos rfl,
          wp_pure]
        refine ⟨lt_trans (lt_of_lt_of_le hva hsz) (by decide), h, .refl,
          fun hne ↦ absurd rfl hne, fun _ _ ↦ hnone⟩
    · rw [wp_pure]
      exact ⟨h, .refl, fun _ ↦ h.1.reaches h0, fun h0' ↦ absurd h0' h0⟩
  · obtain ⟨hleaf, hcoherent, -⟩ := h.1.store sz hr b
    refine ⟨hcoherent, fun w hw ↦ ?_⟩
    rw [hleaf]
    exact h.2 w hw

/-- The process with the page table `pt` in `s` and the one with the page table `q` in `p` get the
same answer and the same bytes from `x` and `y`, and their memory is the same afterwards. -/
def SameOutcome {α : Type} (sz : ℕ) (x : KM α) (pt : ℕ) (s : Phys) (y : KM α) (q : ℕ) (p : Phys) :
    Prop :=
  ∃ a t u, x s = .ok (a, t) ∧ y p = .ok (a, u) ∧ completed u.mem q sz = completed t.mem pt sz

/-- There is memory for every page of the process that `len` bytes from `va` on touch and that is
not mapped: for the page, and for a page-table page on each of two levels. -/
def EnoughFor (s : Phys) (pt sz va len : ℕ) : Prop :=
  Ample s (3 * (lazyPages s.mem pt sz (va / pgsize) (va + len)).card)

variable {S : Estate} {M : Memory} {p : Phys} {hand : List ℕ}

/-! ### Touching every page -/

/-- A process touches all its pages, from the lowest on. -/
def touchAll (pt sz : ℕ) : KM Unit :=
  forM (List.range' 0 (pagesOf sz)) fun v ↦ do
    let _ ← vmfault pt sz pt (v * pgsize)

/-- **Completions exist**: with enough memory, a process that has touched all its pages is one. -/
theorem touchAll_spec (hs : Space S M s pt hand) (hshape : WellShaped s.mem pt sz)
    (hample : EnoughFor s pt sz 0 (pagesOf sz * pgsize)) :
    wp (touchAll pt sz) (fun _ t ↦ Space S M t pt hand ∧ IsCompletion s.mem pt t.mem pt sz) s := by
  have hsz := hshape.size
  have hstart : Supplied S M hand pt sz (pagesOf sz * pgsize) True 0 s :=
    ⟨hs, fun w hw hlt ↦ hshape.guarded hw (by omega), fun _ ↦ by
      rw [EnoughFor, zero_add] at hample
      exact hample⟩
  refine (wp_forM (I := fun l t ↦ ∃ v, l = List.range' v (pagesOf sz - v) ∧
    Supplied S M hand pt sz (pagesOf sz * pgsize) True v t ∧ SameUser s t pt sz ∧
    ∀ w < v, w < pagesOf sz → hasFlag (leaf t.mem pt w) pteV = true) (fun v l t ht ↦ ?_)
    ⟨0, rfl, hstart, .refl, fun w hw ↦ absurd hw (Nat.not_lt_zero w)⟩).mono fun _ t ht ↦ ?_
  · obtain ⟨x, hl, hsup, hsame, hdone⟩ := ht
    obtain ⟨k, hk⟩ : ∃ k, pagesOf sz - x = k + 1 := by
      refine Nat.exists_eq_succ_of_ne_zero fun h0 ↦ ?_
      rw [h0] at hl
      exact absurd hl (cons_ne_nil v l)
    rw [hk, List.range'_succ, List.cons.injEq] at hl
    obtain ⟨rfl, rfl⟩ := hl
    have hv : v < pagesOf sz := by omega
    rw [wp_bind]
    refine (hsup.vmfault hsz (Nat.mul_lt_mul_of_pos_right hv (by decide))).mono fun r u hu ↦ ?_
    obtain ⟨hsup', hsame', hreach, hzero⟩ := hu
    rw [wp_pure]
    refine ⟨v + 1, by rw [show pagesOf sz - (v + 1) = k by omega], hsup', hsame.trans hsame',
      fun w hw hlt ↦ ?_⟩
    have hwu : w < userPages := lt_of_lt_of_le hlt (pagesOf_le hsz)
    rcases Nat.lt_succ_iff_lt_or_eq.1 hw with hw | rfl
    · rw [hsame'.kept w hwu (hdone w hw hlt)]
      exact hdone w hw hlt
    · by_cases hr0 : r = 0
      · obtain ⟨rfl, hvalid⟩ := hzero hr0 trivial
        exact hvalid ((lt_pagesOf hsz).1 hlt)
      · exact (hreach hr0).valid
  · obtain ⟨x, hl, hsup, hsame, hdone⟩ := ht
    have hx : pagesOf sz ≤ x := by
      have hlen := congrArg List.length hl
      rw [length_nil, length_range'] at hlen
      omega
    refine ⟨hsup.space, ?_, hsup.coherent⟩
    rw [← hsame.view, completed_eq_mapped (fun w hw ↦ hdone w (by omega) hw) hsz]

end

/-! ### A process with a lazy page -/

/-- The free pages of a machine with ten. -/
def tenFreeEstate : @Estate smallImage :=
  @Estate.mk smallImage (fun pg ↦ tenFree.freelist.count pg)
    (List.nodup_iff_count_le_one.1 (by decide))
    fun pg h ↦ isPage_of_mem_tenFree pg (List.count_pos_iff.1 (Nat.pos_of_ne_zero h))

/-- A new process, grown lazily by one page. -/
theorem exists_lazy_process : ∃ s pt, @Space smallImage tenFreeEstate tenFree.mem s pt [] ∧
    WellShaped s.mem pt 4096 ∧ EnoughFor s pt 4096 0 4096 ∧ IsLazy s.mem pt 4096 0 := by
  let _ : Image := smallImage
  have hpool : Pool tenFreeEstate tenFree.mem tenFree [] :=
    ⟨fun pg ↦ by rw [count_nil]; rfl, fun _ _ ↦ rfl⟩
  have hrun : wp (procPagetable 0x8000C000) _ tenFree := hpool.procPagetable
  obtain ⟨pt, s, -, hr, hample⟩ := hrun
  obtain ⟨hne, hample⟩ := hample 5 ⟨rfl, by decide⟩
  rcases hr with ⟨h0, -⟩ | ⟨-, hs, hshape⟩
  · exact absurd h0 hne
  have hV : hasFlag (leaf s.mem pt 0) pteV = false := Bool.eq_false_iff.2 fun hV ↦
    absurd (hshape.lt_pagesOf_of_valid (by rw [userPages_eq]; decide) hV) (by decide)
  refine ⟨s, pt, hs, hshape.grow (Nat.zero_le _) (by decide), hample.mono ?_,
    mapped_of_not_valid hV, by decide⟩
  have hcard : (lazyPages s.mem pt 4096 (0 / pgsize) (0 + 4096)).card ≤ pagesOf 4096 := by
    rw [lazyPages]
    exact (Finset.card_filter_le _ _).trans (Finset.card_range _).le
  have hone : pagesOf 4096 = 1 := by decide
  omega

section

variable [Image] {S : Estate} {M : Memory} {p : Phys} {hand : List ℕ}

/-- **Lazy allocation is transparent to `copyin` and `copyout`**, and to `copyinstr` but for a
string whose null is in a page that is not mapped: there it delivers the same bytes and fails. -/
theorem lazy_transparent (hs : Space S M s pt hand) (hshape : WellShaped s.mem pt sz)
    (hplus : IsCompletion s.mem pt p.mem q sz) :
    (∀ va len, EnoughFor s pt sz va len →
      SameOutcome sz (copyin pt sz pt va len) pt s (copyin q sz q va len) q p) ∧
    (∀ va src len, EnoughFor s pt sz va len →
      SameOutcome sz (copyout pt sz pt va src len) pt s (copyout q sz q va src len) q p) ∧
    (∀ va max, ∃ r bytes, copyinstr q va max p = .ok ((r, bytes), p) ∧
      copyinstr pt va max s = .ok ((if r = 0 ∧ IsLazy s.mem pt sz ((va + bytes.length) / pgsize)
        then -1 else r, bytes), s)) ∧
    completed p.mem q sz = completed s.mem pt sz := by
  have hguarded : ∀ w, userPages ≤ w → w < 2 ^ 26 → hasFlag (leaf s.mem pt w) pteV = true →
      hasFlag (leaf s.mem pt w) pteU = false := fun w hw hlt ↦ hshape.guarded hw (by omega)
  have hview := hplus.completed_eq hshape.size
  have hready : ∀ va len, EnoughFor s pt sz va len →
      Supplied S M hand pt sz (va + len) True (va / pgsize) s := fun va len h ↦
    ⟨hs, hguarded, fun _ ↦ h⟩
  have hready' := And.intro hplus.coherent fun v (hv : v < pagesOf sz) ↦ hplus.valid hv
  refine ⟨fun va len h ↦ ?_, fun va src len h ↦ ?_, fun va max ↦ ?_, hview⟩
  · obtain ⟨a, t, hrun, -, hsame, ha⟩ := (supplied_pager hshape.size).copyinFrom (hready va len h)
      le_rfl fun _ ↦ le_rfl
    obtain ⟨a', u, hrun', -, hsame', ha'⟩ :=
      (complete_pager (e := va + len) hshape.size).copyinFrom hready' le_rfl fun _ ↦ le_rfl
    obtain rfl : a = a' := by rw [ha trivial, ha' trivial, hview]
    exact ⟨a, t, u, hrun, hrun', by rw [hsame'.view, hsame.view, hview]⟩
  · have hout : wp (copyoutFrom pt sz pt len va src len) _ s :=
      (supplied_pager hshape.size).copyoutFrom (hready va len h) le_rfl fun _ ↦ le_rfl
    have hout' : wp (copyoutFrom q sz q len va src len) _ p :=
      (complete_pager (e := va + len) hshape.size).copyoutFrom hready' le_rfl fun _ ↦ le_rfl
    obtain ⟨a, t, hrun, -, -, ha⟩ := hout
    obtain ⟨a', u, hrun', -, -, ha'⟩ := hout'
    have hpair : (a', completed u.mem q sz) = (a, completed t.mem pt sz) := by
      rw [ha trivial, ha' trivial, hview]
    obtain ⟨rfl, hmem⟩ := Prod.mk.inj hpair
    exact ⟨_, t, u, hrun, hrun', hmem⟩
  · have hcoherent : Coherent s.mem pt :=
      (⟨hs, hguarded, False.elim⟩ : Supplied S M hand pt sz 0 False 0 s).coherent
    have hstr : wp (copyinstrFrom pt max va max) _ s := copyinstrFrom_spec hcoherent le_rfl
    have hstr' : wp (copyinstrFrom q max va max) _ p := copyinstrFrom_spec hplus.coherent le_rfl
    obtain ⟨a, t, hrun, rfl, rfl⟩ := hstr
    obtain ⟨a', u, hrun', rfl, rfl⟩ := hstr'
    rw [hplus.view] at hrun'
    rw [copyinstr_mapped _ _ sz] at hrun
    exact ⟨_, _, hrun', hrun⟩

end

/-- The new process with its lazy page and the same process with the page in place. -/
theorem lazy_transparent_new : ∃ s p pt,
    IsCompletion s.mem pt p.mem pt 4096 ∧ IsLazy s.mem pt 4096 0 ∧
    SameOutcome 4096 (@copyin smallImage pt 4096 pt 0 16) pt s
      (@copyin smallImage pt 4096 pt 0 16) pt p := by
  let _ : Image := smallImage
  obtain ⟨s, pt, hs, hshape, hample, hlazy⟩ := exists_lazy_process
  obtain ⟨-, p, -, -, hplus⟩ := touchAll_spec hs hshape hample
  refine ⟨s, p, pt, hplus, hlazy, (lazy_transparent hs hshape hplus).1 0 16 (hample.mono ?_)⟩
  refine Nat.mul_le_mul_left 3 (Finset.card_le_card fun w hw ↦ ?_)
  rw [lazyPages, Finset.mem_filter] at hw ⊢
  exact ⟨hw.1, hw.2.1, hw.2.2.1, by omega⟩

/-- `copyinstr` refuses an empty path on a lazy page, which it accepts once the page is in place. -/
theorem copyinstr_refuses_lazy : ∃ s p pt,
    @Space smallImage tenFreeEstate tenFree.mem s pt [] ∧ WellShaped s.mem pt 4096 ∧
    EnoughFor s pt 4096 0 4096 ∧ IsCompletion s.mem pt p.mem pt 4096 ∧
    copyinstr pt 0 128 s = .ok ((-1, []), s) ∧ copyinstr pt 0 128 p = .ok ((0, []), p) := by
  let _ : Image := smallImage
  obtain ⟨s, pt, hs, hshape, hample, hlazy⟩ := exists_lazy_process
  obtain ⟨-, p, -, -, hplus⟩ := touchAll_spec hs hshape hample
  have hcoherent : Coherent s.mem pt :=
    (⟨hs, fun w hw hlt ↦ hshape.guarded hw (by omega), False.elim⟩ :
      Supplied tenFreeEstate tenFree.mem [] pt 4096 0 False 0 s).coherent
  have hread : wp (copyinstrFrom pt 128 0 128) _ s := copyinstrFrom_spec hcoherent le_rfl
  have hread' : wp (copyinstrFrom pt 128 0 128) _ p := copyinstrFrom_spec hplus.coherent le_rfl
  obtain ⟨a, t, hrun, rfl, rfl⟩ := hread
  obtain ⟨b, u, hrun', rfl, rfl⟩ := hread'
  have hnull : (completed t.mem pt 4096).copyinstr 128 0 128 = (0, []) :=
    copyinstr_of_isLazy hlazy (by decide)
  rw [hplus.view, hnull] at hrun'
  rw [copyinstr_mapped _ _ 4096, hnull, if_pos ⟨rfl, hlazy⟩] at hrun
  exact ⟨t, u, pt, hs, hshape, hample, hplus, hrun, hrun'⟩

end Xv6

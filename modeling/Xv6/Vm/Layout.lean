import Xv6.Vm.Growth
import Xv6.Vm.ProcTable

/-!
# Laying out an address space

An address space without holes is a `Layout`: a size, the flags of the pages below it and the bytes
in them, with zeros up to the end of the last page. A page table is built up as a layout is: it
grows by pages of zeros (`grow`), bytes are put somewhere in it (`load`), and the user is denied a
page (`clear`). `Built S M s pt L` says that the page table `pt` shows the layout `L`, and each
function that `kexec` builds an address space with goes from one layout to another.
-/

namespace Xv6

open Function Option Finset

/-- A size, and the flags and bytes of the pages below it. -/
structure Layout where
  sz : ℕ
  flags : ℕ → Pte
  byte : ℕ → BitVec 8

namespace Layout

/-- No page. -/
def empty : Layout := ⟨0, fun _ ↦ 0, fun _ ↦ 0⟩

/-- Pages of zeros up to a new size, if that is not smaller. -/
def grow (L : Layout) (newsz : ℕ) (f : Pte) : Layout :=
  if newsz < L.sz then L
  else
    { sz := newsz
      flags := fun v ↦ if v < pagesOf L.sz then L.flags v else f
      byte := fun a ↦ if a < pagesOf L.sz * pgsize then L.byte a else 0 }

/-- `n` bytes from the address `va` on. -/
def load (L : Layout) (va n : ℕ) (src : ℕ → BitVec 8) : Layout :=
  { L with byte := fun a ↦ if va ≤ a ∧ a < va + n then src (a - va) else L.byte a }

/-- The page `v` is no longer the user's. -/
def clear (L : Layout) (v : ℕ) : Layout :=
  { L with flags := update L.flags v (L.flags v &&& ~~~pteU) }

theorem flags_clear_self (L : Layout) (v : ℕ) : (L.clear v).flags v = L.flags v &&& ~~~pteU :=
  update_self _ _ _

theorem flags_clear_of_ne (L : Layout) {v w : ℕ} (h : w ≠ v) : (L.clear v).flags w = L.flags w :=
  update_of_ne h _ _

theorem load_zero (L : Layout) (va : ℕ) (src : ℕ → BitVec 8) : L.load va 0 src = L := by
  obtain ⟨sz, flags, byte⟩ := L
  rw [load]
  congr 1
  exact funext fun a ↦ if_neg (by omega)

theorem le_grow (L : Layout) (newsz : ℕ) (f : Pte) :
    L.sz ≤ (L.grow newsz f).sz ∧ newsz ≤ (L.grow newsz f).sz ∧
      ((L.grow newsz f).sz = newsz ∨ (L.grow newsz f).sz = L.sz) := by
  rw [grow]
  split_ifs with hlt
  · exact ⟨le_rfl, hlt.le, .inr rfl⟩
  · exact ⟨Nat.le_of_not_lt hlt, le_rfl, .inl rfl⟩

/-- Bytes are put in their places piece by piece. -/
theorem load_load (L : Layout) {va n m : ℕ} {src : ℕ → BitVec 8} (hm : m ≤ n) :
    (L.load va m src).load (va + m) (n - m) (fun k ↦ src (m + k)) = L.load va n src := by
  rw [load, load, load]
  congr 1
  funext a
  by_cases h₁ : va + m ≤ a ∧ a < va + m + (n - m)
  · rw [if_pos h₁, if_pos (by omega)]
    congr 1
    omega
  · rw [if_neg h₁]
    dsimp only
    by_cases h₂ : va ≤ a ∧ a < va + m
    · rw [if_pos h₂, if_pos (by omega)]
    · rw [if_neg h₂, if_neg (by omega)]

theorem load_congr (L : Layout) {va n : ℕ} {src src' : ℕ → BitVec 8}
    (h : ∀ k < n, src k = src' k) : L.load va n src = L.load va n src' := by
  rw [load, load]
  congr 1
  exact funext fun a ↦ if_ctx_congr Iff.rfl (fun ha ↦ h _ (by omega)) fun _ ↦ rfl

end Layout

variable [Image]

/-- The page table `pt` is that of an address space, and shows the layout. -/
structure Built (S : Estate) (M : Memory) (s : Phys) (pt : ℕ) (L : Layout) : Prop where
  space : Space S M s pt []
  shape : WellShaped s.mem pt L.sz
  page : ∀ v < pagesOf L.sz, ∃ b, mapped s.mem pt v = some (L.flags v, b) ∧
    ∀ k < pgsize, byteAt b k = L.byte (v * pgsize + k)

variable {S : Estate} {M : Memory} {s t : Phys} {pt v va n newsz : ℕ} {L : Layout} {perm : Pte}

omit [Image] in
theorem hasFlag_of_translation {m m' : Memory} (h : translation m' pt v = translation m pt v)
    {f : Pte} (hf : f &&& 0x3FF = f) (hV : hasFlag (leaf m pt v) pteV = true) :
    hasFlag (leaf m' pt v) f = hasFlag (leaf m pt v) f := by
  rw [translation, translation, if_pos hV] at h
  split_ifs at h with hV'
  rw [some_inj, Prod.mk_inj] at h
  rw [← hasFlag_pteFlags hf, ← hasFlag_pteFlags (e := leaf m pt v) hf, h.2]

omit [Image] in
theorem valid_of_translation {m m' : Memory} (h : translation m' pt v = translation m pt v) :
    hasFlag (leaf m' pt v) pteV = hasFlag (leaf m pt v) pteV := by
  cases hV : hasFlag (leaf m pt v) pteV with
  | true => rw [hasFlag_of_translation h (by decide) hV, hV]
  | false => rwa [translation_eq_none.2 hV, translation_eq_none] at h

omit [Image] in
/-- The shape is that of the translations. -/
theorem WellShaped.of_translation {m m' : Memory} {sz : ℕ} (h : WellShaped m pt sz)
    (hmap : ∀ v < 2 ^ 27, translation m' pt v = translation m pt v) : WellShaped m' pt sz := by
  have htop : trampolineVa / pgsize < 2 ^ 27 ∧ trapframeVa / pgsize < 2 ^ 27 := by decide
  refine ⟨h.size, fun v hv hV ↦ h.leaves v hv ?_, ?_, ?_, fun v hv hV ↦ ?_⟩
  · rwa [valid_of_translation (hmap v hv)] at hV
  · rw [valid_of_translation (hmap _ htop.1), hasFlag_of_translation (hmap _ htop.1) (by decide)
      h.trampoline.1]
    exact h.trampoline
  · rw [valid_of_translation (hmap _ htop.2), hasFlag_of_translation (hmap _ htop.2) (by decide)
      h.trapframe.1]
    exact h.trapframe
  · have hlt : v < 2 ^ 27 := by
      have hle := pagesOf_le h.size
      rw [lt_pgRoundUp] at hv
      rw [userPages_eq] at hle
      omega
    rw [valid_of_translation (hmap v hlt)] at hV
    rw [hasFlag_of_translation (hmap v hlt) (by decide) hV]
    exact h.readable v hv hV

omit [Image] in
/-- The shape is kept when the user's pages are readable and below the size, and the top stays. -/
theorem WellShaped.of_user {m m' : Memory} {sz : ℕ} (h : WellShaped m pt sz)
    (hsz : newsz ≤ trapframeVa)
    (htop : ∀ v, userPages ≤ v → v < 2 ^ 27 → leaf m' pt v = leaf m pt v)
    (huser : ∀ v < userPages, hasFlag (leaf m' pt v) pteV = true →
      v < pagesOf newsz ∧ hasFlag (leaf m' pt v) pteR = true) : WellShaped m' pt newsz := by
  refine ⟨hsz, fun v hv hV ↦ ?_, ?_, ?_, fun v hv hV ↦ ?_⟩
  · rcases lt_or_ge v userPages with hlt | hge
    · exact .inr (.inr (lt_pgRoundUp.2 (huser v hlt hV).1))
    · rw [htop v hge hv] at hV
      rcases h.eq_top hge hv hV with rfl | rfl
      · exact .inl (by decide)
      · exact .inr (.inl (by decide))
  · rw [htop _ (by rw [trampolineVa_div]; omega) (by decide)]
    exact h.trampoline
  · rw [htop _ (by rw [trapframeVa_div]) (by decide)]
    exact h.trapframe
  · exact (huser v (lt_of_lt_of_le (lt_pgRoundUp.1 hv) (pagesOf_le hsz)) hV).2

omit [Image] in
/-- Readable pages below a new size have been mapped. -/
theorem Gives.wellShaped_of {sz : ℕ} {U : View} (h : Gives s t pt U) (hs : WellShaped s.mem pt sz)
    (hle : sz ≤ newsz) (hsz : newsz ≤ trapframeVa)
    (hU : ∀ v p, U v = some p → v < pagesOf newsz ∧ hasFlag p.1 pteR = true) :
    WellShaped t.mem pt newsz := by
  have hpages := pagesOf_mono hle hsz
  have hlow := pagesOf_le hsz
  refine hs.of_user hsz (fun v hv hlt ↦ ?_) fun v hv hV ↦ ?_
  · refine h.other v hlt (eq_none_iff_forall_ne_some.2 fun p hp ↦ ?_)
    have hv' := (hU v p hp).1
    omega
  · cases hUv : U v with
    | some p =>
      have hpage := (h.page v (hUv ▸ some_ne_none _)).1
      rw [hUv, mapped_of_valid hv hV, some_inj] at hpage
      rw [← hasFlag_pteFlags (by decide), ← (hU v p hUv).2, ← hpage]
      exact ⟨(hU v p hUv).1, rfl⟩
    | none =>
      rw [h.other v (by rw [userPages_eq] at hv; omega) hUv] at hV ⊢
      exact (hs.user hv hV).imp_left hpages.trans_lt'

omit [Image] in
theorem Gives.wellShaped {sz : ℕ} {f : Pte}
    (h : Gives s t pt (zeroPages (pagesOf sz) (pagesOf newsz) f))
    (hs : WellShaped s.mem pt sz) (hle : sz ≤ newsz) (hsz : newsz ≤ trapframeVa)
    (hR : hasFlag f pteR = true) : WellShaped t.mem pt newsz := by
  refine h.wellShaped_of hs hle hsz fun v p hp ↦ ?_
  rw [zeroPages, ite_none_right_eq_some, some_inj] at hp
  exact ⟨hp.1.2, hp.2 ▸ hR⟩

section

omit [Image]

theorem hasFlag_clear {e f : Pte} (hf : ~~~pteU &&& f = f) :
    hasFlag (e &&& ~~~pteU) f = hasFlag e f := by
  rw [hasFlag, hasFlag, BitVec.and_assoc, hf]

theorem pteFlags_clear (e : Pte) : pteFlags (e &&& ~~~pteU) = pteFlags e &&& ~~~pteU := by
  rw [pteFlags, pteFlags, BitVec.and_assoc, BitVec.and_comm (~~~pteU), BitVec.and_assoc]

theorem pte2pa_clear (e : Pte) : pte2pa (e &&& ~~~pteU) = pte2pa e := by
  have hshift : (e &&& ~~~pteU) >>> 10 = e >>> 10 := by
    refine BitVec.eq_of_getLsbD_eq fun i hi ↦ ?_
    rw [BitVec.ushiftRight_and_distrib, BitVec.getLsbD_and]
    have hmask : ∀ i < 64, i < 54 → ((~~~pteU) >>> 10).getLsbD i = true := by decide
    by_cases hi' : i < 54
    · rw [hmask i hi hi', Bool.and_true]
    · rw [BitVec.getLsbD_ushiftRight, BitVec.getLsbD_of_ge _ _ (by omega), Bool.false_and]
  rw [pte2pa, pte2pa, hshift]

/-- One page of the user's is denied. -/
theorem WellShaped.of_clear {sz : ℕ} (h : WellShaped s.mem pt sz) (hv : v < userPages)
    (hgain : Gains s t pt v (leaf s.mem pt v &&& ~~~pteU)) : WellShaped t.mem pt sz := by
  refine h.of_user h.size (fun w hw hlt ↦ hgain.other w hlt (by omega)) fun w hw hV ↦ ?_
  by_cases hwv : w = v
  · subst hwv
    rw [hgain.self, hasFlag_clear (by decide)] at hV ⊢
    exact h.user hv hV
  · rw [hgain.other w (by rw [userPages_eq] at hw; omega) hwv] at hV ⊢
    exact h.user hw hV

end

namespace Built

theorem valid (h : Built S M s pt L) (hv : v < pagesOf L.sz) :
    v < userPages ∧ hasFlag (leaf s.mem pt v) pteV = true := by
  obtain ⟨b, hb, -⟩ := h.page v hv
  exact mapped_ne_none.1 (hb ▸ some_ne_none _)

/-- An address space is not larger than the memory of the machine. -/
theorem pages_le (h : Built S M s pt L) : pagesOf L.sz ≤ ramPages := by
  have hcard := h.space.card_le (P := Finset.range (pagesOf L.sz)) fun v hv ↦
    mapped_ne_none.2 (h.valid (mem_range.1 hv))
  rwa [card_range] at hcard

theorem flags_eq (h : Built S M s pt L) (hv : v < pagesOf L.sz) :
    pteFlags (leaf s.mem pt v) = L.flags v := by
  obtain ⟨b, hb, -⟩ := h.page v hv
  rw [mapped_of_valid (h.valid hv).1 (h.valid hv).2, some_inj, Prod.mk_inj] at hb
  exact hb.1

theorem byteAt_eq (h : Built S M s pt L) (hv : v < pagesOf L.sz) {k : ℕ} (hk : k < pgsize) :
    byteAt (s.mem (pte2pa (leaf s.mem pt v))) k = L.byte (v * pgsize + k) := by
  obtain ⟨b, hb, hbyte⟩ := h.page v hv
  rw [mapped_of_valid (h.valid hv).1 (h.valid hv).2, some_inj, Prod.mk_inj] at hb
  rw [hb.2, hbyte k hk]

/-- What the user finds at an address. -/
theorem byte_eq (h : Built S M s pt L) {a : ℕ} (ha : a < pagesOf L.sz * pgsize)
    (hU : hasFlag (L.flags (a / pgsize)) pteU = true) :
      (mapped s.mem pt).byte a = some (L.byte a) := by
  obtain ⟨b, hb, hbyte⟩ := h.page (a / pgsize) (Nat.div_lt_of_lt_mul (by rwa [mul_comm]))
  rw [View.byte, View.page, hb, filter_some, if_pos hU, map_some,
    hbyte _ (Nat.mod_lt _ (by decide)), Nat.div_add_mod']

/-- A page table shows a layout if it does so entry by entry. -/
theorem of_leaf (hspace : Space S M s pt []) (hshape : WellShaped s.mem pt L.sz)
    (hpage : ∀ v < pagesOf L.sz, hasFlag (leaf s.mem pt v) pteV = true ∧
      pteFlags (leaf s.mem pt v) = L.flags v ∧
      ∀ k < pgsize, byteAt (s.mem (pte2pa (leaf s.mem pt v))) k = L.byte (v * pgsize + k)) :
    Built S M s pt L := by
  refine ⟨hspace, hshape, fun v hv ↦ ⟨_, ?_, (hpage v hv).2.2⟩⟩
  rw [mapped_of_valid (lt_of_lt_of_le hv (pagesOf_le hshape.size)) (hpage v hv).1,
    (hpage v hv).2.1]

/-- The size is rounded up to whole pages. -/
theorem round (h : Built S M s pt L) : Built S M s pt { L with sz := pgRoundUp L.sz } := by
  have hsize : L.sz ≤ 274877898752 := h.shape.size
  have hround : pgRoundUp L.sz = pagesOf L.sz * pgsize := pgRoundUp_eq_pagesOf L.sz
  have hpages := pagesOf_eq h.shape.size
  have hle : pgRoundUp L.sz ≤ trapframeVa := by
    show _ ≤ 274877898752
    rw [hround, hpages, pgsize_eq]
    omega
  have hsame : pagesOf (pgRoundUp L.sz) = pagesOf L.sz := by
    rw [pagesOf_eq hle, hround, pgsize_eq]
    omega
  refine ⟨h.space, h.shape.grow ?_ hle, fun v hv ↦ h.page v ?_⟩
  · show L.sz ≤ pgRoundUp L.sz
    rw [hround, hpages, pgsize_eq]
    omega
  · rwa [← hsame]

/-! ### Growing -/

/-- **`uvmalloc`** grows the address space, or leaves it as it is. -/
theorem uvmalloc (h : Built S M s pt L) (hperm : (pteR ||| pteU ||| perm).toNat < 1024)
    (hlt : newsz < 2 ^ 64) :
    wp (Xv6.uvmalloc pt L.sz newsz perm)
      (fun q t ↦ (q = (L.grow newsz (pteR ||| pteU ||| perm ||| pteV)).sz ∧
          Built S M t pt (L.grow newsz (pteR ||| pteU ||| perm ||| pteV)) ∧
          ∀ n, Ample s (n + 3 * ((newsz + 4095) / 4096 - pagesOf L.sz)) → Ample t n) ∨
        q = 0 ∧ Space S M t pt [] ∧ WellShaped t.mem pt L.sz ∧
          ∀ n, ¬Ample s (n + 3 * ((newsz + 4095) / 4096 - pagesOf L.sz))) s := by
  have hsize := h.shape.size
  rcases lt_or_ge newsz L.sz with hless | hle
  · rw [Xv6.uvmalloc, if_pos hless, wp_pure, Layout.grow, if_pos hless]
    exact .inl ⟨rfl, h, fun n hn ↦ hn.mono (Nat.le_add_right _ _)⟩
  have hram := h.pages_le
  have hroom : pagesOf L.sz + ramPages < userPages := by
    have hpages : ramPages = 32768 := rfl
    rw [userPages_eq]
    omega
  refine (h.space.uvmalloc hperm hle hsize hlt (.inr hroom) fun v hv _ hvu ↦ ?_).mono
    fun q t hdone ↦ ?_
  · refine translation_eq_none.2 (Bool.eq_false_iff.2 fun hV ↦ ?_)
    have := h.shape.lt_pagesOf_of_valid hvu hV
    omega
  obtain ⟨ht, hq⟩ := hdone
  rcases hq with ⟨hq, hgives, hample⟩ | ⟨hq, hsame, -, hample⟩
  swap
  · exact .inr ⟨hq, ht, h.shape.of_translation hsame, hample⟩
  left
  have hgrow : L.grow newsz (pteR ||| pteU ||| perm ||| pteV) =
      { sz := newsz
        flags := fun v ↦ if v < pagesOf L.sz then L.flags v else pteR ||| pteU ||| perm ||| pteV
        byte := fun a ↦ if a < pagesOf L.sz * pgsize then L.byte a else 0 } :=
    if_neg (not_lt.2 hle)
  -- the last new page is mapped, so that it is below `TRAPFRAME`
  have hnew : ∀ v, pagesOf L.sz ≤ v → v < (newsz + 4095) / 4096 →
      mapped t.mem pt v = some (pteR ||| pteU ||| perm ||| pteV, filled 0) := fun v hv hv' ↦ by
    have hU : zeroPages (pagesOf L.sz) ((newsz + 4095) / 4096) (pteR ||| pteU ||| perm ||| pteV) v =
        some (pteR ||| pteU ||| perm ||| pteV, filled 0) := if_pos ⟨hv, hv'⟩
    rw [(hgives.page v (hU ▸ some_ne_none _)).1, hU]
  have hsz : newsz ≤ trapframeVa := by
    show newsz ≤ 274877898752
    rcases lt_or_ge (pagesOf L.sz) ((newsz + 4095) / 4096) with hlt' | hge
    · have hlast := (mapped_ne_none.1 (by
        rw [hnew ((newsz + 4095) / 4096 - 1) (by omega) (by omega)]
        exact some_ne_none _ :
          mapped t.mem pt ((newsz + 4095) / 4096 - 1) ≠ none)).1
      rw [userPages_eq] at hlast
      omega
    · have hpages := pagesOf_le hsize
      rw [userPages_eq] at hpages
      omega
  have hnewsz := pagesOf_eq hsz
  rw [← hnewsz] at hgives hnew
  rw [hgrow]
  refine ⟨hq, of_leaf ht (hgives.wellShaped h.shape hle hsz ?_) fun v hv ↦ ?_, hample⟩
  · rw [hasFlag_or, hasFlag_or, hasFlag_or]
    rfl
  dsimp only at hv ⊢
  by_cases hold : v < pagesOf L.sz
  · obtain ⟨hvu, hV⟩ := h.valid hold
    have hleaf := hgives.other v (by rw [userPages_eq] at hvu; omega) (if_neg (by omega))
    rw [hleaf, if_pos hold, hgives.contents _ (leafCount_ne_zero hvu hV)]
    refine ⟨hV, h.flags_eq hold, fun k hk ↦ ?_⟩
    rw [h.byteAt_eq hold hk, if_pos]
    rw [pgsize_eq] at hk ⊢
    omega
  · have hpage := hnew v (by omega) hv
    obtain ⟨hvu, hV⟩ := mapped_ne_none.1 (hpage ▸ some_ne_none _)
    rw [mapped_of_valid hvu hV, some_inj, Prod.mk_inj] at hpage
    rw [if_neg hold, hpage.2]
    refine ⟨hV, hpage.1, fun k hk ↦ ?_⟩
    rw [byteAt_zeros, if_neg]
    rw [pgsize_eq]
    omega

/-! ### Putting bytes -/

/-- Bytes are put into a page. -/
theorem store (h : Built S M s pt L) (hv : v < pagesOf L.sz) {off n : ℕ} (hn : off + n ≤ pgsize)
    (src : ℕ → BitVec 8) :
    Built S M
      { s with mem := update s.mem (pte2pa (leaf s.mem pt v))
                (putBytes (s.mem (pte2pa (leaf s.mem pt v))) off n src) }
      pt (L.load (v * pgsize + off) n src) := by
  obtain ⟨hvu, hV⟩ := h.valid hv
  obtain ⟨-, hcount, hleaf⟩ := h.space.leaf_page hvu hV
  have hstock := h.space.stock (pte2pa (leaf s.mem pt v))
  have hmem : ∀ pg, update s.mem (pte2pa (leaf s.mem pt v))
      (putBytes (s.mem (pte2pa (leaf s.mem pt v))) off n src) pg ≠ s.mem pg →
      S.count pg ≠ 0 ∧ nodeCount s.mem 2 pt pg = 0 := fun pg hne ↦ by
    obtain rfl : pg = pte2pa (leaf s.mem pt v) := not_not.1 fun hne' ↦
      hne (update_of_ne hne' _ _)
    exact ⟨by omega, by omega⟩
  obtain ⟨hspace, hsame⟩ := h.space.rewrite (t := { s with
    mem := update s.mem (pte2pa (leaf s.mem pt v))
            (putBytes (s.mem (pte2pa (leaf s.mem pt v))) off n src) }) (g := []) hmem fun _ ↦ rfl
  refine of_leaf hspace (h.shape.of_translation fun w _ ↦ translation_congr (hsame w)) fun w hw ↦ ?_
  have hw' : w < pagesOf L.sz := hw
  rw [hsame w]
  refine ⟨(h.valid hw').2, h.flags_eq hw', fun k hk ↦ ?_⟩
  rw [Layout.load]
  dsimp only
  rw [pgsize_eq] at hn hk ⊢
  by_cases hwv : w = v
  · subst hwv
    rw [update_self, byteAt_putBytes _ _ hn]
    refine if_congr (by omega) (congrArg src (by omega)) (h.byteAt_eq hw' hk)
  · rw [update_of_ne fun heq ↦ hwv (h.space.leaf_injective
      (mapped_ne_none.2 (h.valid hw')) (mapped_ne_none.2 (h.valid hv)) heq), if_neg (by omega)]
    exact h.byteAt_eq hw' hk

/-- Where `walkaddr` finds a page of the user's. -/
theorem userPa_eq (h : Built S M s pt L) (hv : va / pgsize < pagesOf L.sz)
    (hU : hasFlag (L.flags (va / pgsize)) pteU = true) :
    userPa s.mem pt va = pte2pa (leaf s.mem pt (va / pgsize)) ∧
      pte2pa (leaf s.mem pt (va / pgsize)) ≠ 0 := by
  obtain ⟨hvu, hV⟩ := h.valid hv
  refine ⟨if_pos ⟨?_, hV, ?_⟩, (h.space.leaf_page hvu hV).1.pos.ne'⟩
  · rw [userPages_eq, pgsize_eq] at hvu
    show va < 274877906944
    omega
  · rwa [← hasFlag_pteFlags (by decide), h.flags_eq hv]

/-- **`copyout`** to pages that the user may write; whose page table it is makes no difference. -/
theorem copyoutFrom (h : Built S M s pt L) {own psz turns len : ℕ} {src : ℕ → BitVec 8}
    (hturns : len ≤ turns) (hpages : ∀ v, va / pgsize ≤ v → v * pgsize < va + len →
      v < pagesOf L.sz ∧ hasFlag (L.flags v) pteU = true ∧ hasFlag (L.flags v) pteW = true) :
    wp (Xv6.copyoutFrom own psz pt turns va src len)
      (fun r t ↦ r = 0 ∧ Built S M t pt (L.load va len src) ∧ ∀ n, Ample s n → Ample t n) s := by
  induction turns generalizing s va src len L with
  | zero =>
    obtain rfl : len = 0 := by omega
    rw [Xv6.copyoutFrom, if_neg (by omega), wp_pure, Layout.load_zero]
    exact ⟨rfl, h, fun _ ↦ id⟩
  | succ turns ih =>
    rw [Xv6.copyoutFrom, wp_ite, wp_pure]
    refine ⟨fun hlen ↦ ?_, fun hlen ↦ ?_⟩
    swap
    · obtain rfl : len = 0 := by omega
      rw [Layout.load_zero]
      exact ⟨rfl, h, fun _ ↦ id⟩
    have hdown : pgRoundDown va = va / 4096 * 4096 := rfl
    have hdiv : pgRoundDown va / pgsize = va / pgsize := Nat.mul_div_cancel _ (by decide)
    obtain ⟨hv, hU, hW⟩ := hpages (va / pgsize) le_rfl (by rw [pgsize_eq]; omega)
    obtain ⟨hvu, hV⟩ := h.valid hv
    have hlow : va < 274877898752 := by
      rw [userPages_eq, pgsize_eq] at hvu
      omega
    obtain ⟨hpa, hpos⟩ := @userPa_eq _ S M s pt (pgRoundDown va) L h (by rwa [hdiv]) (by rwa [hdiv])
    rw [hdiv] at hpa hpos
    have hmax : ¬pgRoundDown va ≥ maxva := by
      show ¬va / 4096 * 4096 ≥ 274877906944
      omega
    rw [if_neg hmax, wp_bind, walkOrFault, wp_bind, wp_walkaddr, hpa, if_neg hpos, wp_pure,
      if_neg hpos, wp_bind, wp_walk]
    refine ⟨Nat.lt_of_not_le hmax, ?_⟩
    cases hp : slot s.mem 2 pt (pgRoundDown va) with
    | none =>
      have hzero := leaf_of_slot_none hp
      rw [hdiv] at hzero
      rw [hzero, hasFlag_zero] at hV
      exact absurd hV Bool.false_ne_true
    | some p =>
      obtain ⟨c, i⟩ := p
      have hW' : hasFlag (leaf s.mem pt (va / pgsize)) pteW = true := by
        rwa [← hasFlag_pteFlags (by decide), h.flags_eq hv]
      dsimp only
      rw [wp_bind, wp_loadPte, leaf_of_slot hp, hdiv, hW', if_neg (by decide), wp_bind, wp_loadPage,
        wp_bind, wp_storePage]
      have hoff : va - pgRoundDown va + min (pgsize - (va - pgRoundDown va)) len ≤ pgsize := by
        rw [hdown, pgsize_eq]
        omega
      have hnext : u64 (pgRoundDown va + pgsize) = (va / 4096 + 1) * 4096 := by
        show (va / 4096 * 4096 + 4096) % 2 ^ 64 = _
        omega
      have hstore := h.store hv hoff src
      have hva : va / pgsize * pgsize + (va - pgRoundDown va) = va := by
        rw [hdown, pgsize_eq]
        omega
      rw [hva] at hstore
      rw [hnext]
      generalize hm : min (pgsize - (va - pgRoundDown va)) len = m at hstore hoff ⊢
      rw [hdown, pgsize_eq] at hm
      -- what is left begins with the next page, or nothing is left
      rcases lt_or_ge m len with hlt | hge
      · have hstart : (va / 4096 + 1) * 4096 = va + m := by omega
        rw [hstart]
        refine (ih hstore (by omega) fun w hw hw' ↦ ?_).mono fun r t hdone ↦ ?_
        · refine hpages w ?_ (by omega)
          rw [pgsize_eq] at hw ⊢
          omega
        · obtain ⟨hr, ht, hn⟩ := hdone
          rw [Layout.load_load L hlt.le] at ht
          exact ⟨hr, ht, hn⟩
      · obtain rfl : m = len := by omega
        refine (ih hstore (by omega) fun w hw hw' ↦ ?_).mono fun r t hdone ↦ ?_
        · rw [pgsize_eq] at hw hw'
          omega
        · obtain ⟨hr, ht, hn⟩ := hdone
          rw [Nat.sub_self, Layout.load_zero] at ht
          exact ⟨hr, ht, hn⟩

/-- **`uvmclear`** of a page below the size. -/
theorem uvmclear (h : Built S M s pt L) (hv : v < pagesOf L.sz) :
    wp (Xv6.uvmclear pt (v * pgsize)) (fun _ t ↦ Built S M t pt (L.clear v) ∧
      ∀ n, Ample s n → Ample t n) s := by
  obtain ⟨hvu, hV⟩ := h.valid hv
  have hdiv : v * pgsize / pgsize = v := Nat.mul_div_cancel _ (by decide)
  have hva : v * pgsize < maxva := by
    rw [userPages_eq] at hvu
    show v * 4096 < 274877906944
    omega
  rw [Xv6.uvmclear, wp_bind, wp_walk]
  refine ⟨hva, ?_⟩
  cases hp : slot s.mem 2 pt (v * pgsize) with
  | none =>
    have hzero := leaf_of_slot_none hp
    rw [hdiv] at hzero
    rw [hzero, hasFlag_zero] at hV
    exact absurd hV Bool.false_ne_true
  | some p =>
    obtain ⟨c, i⟩ := p
    dsimp only
    rw [wp_bind, wp_loadPte, wp_storePte, leaf_of_slot hp, hdiv]
    have hset := Extends.setsLeaf (e := leaf s.mem pt v &&& ~~~pteU) h.space.tabled
      (.of_eq h.space.table rfl rfl) hva hp
    rw [hdiv] at hset
    have hgain := h.space.gains hset
    have hspace := h.space.setsLeaf (g := []) hset (fun pg _ ↦ by
      rw [mapsTo, mapsTo, hasFlag_clear (by decide), pte2pa_clear]) fun _ ↦ rfl
    refine ⟨of_leaf hspace ?_ fun w hw ↦ ?_, fun n hn ↦ hn⟩
    · exact h.shape.of_clear hvu hgain
    · have hw' : w < pagesOf L.sz := hw
      obtain ⟨hwu, hwV⟩ := h.valid hw'
      by_cases hwv : w = v
      · subst hwv
        rw [hgain.self, pte2pa_clear, hasFlag_clear (by decide), pteFlags_clear, h.flags_eq hw',
          hgain.contents _ (leafCount_ne_zero hwu hwV)]
        exact ⟨hwV, (L.flags_clear_self w).symm, fun k hk ↦ h.byteAt_eq hw' hk⟩
      · have hleaf := hgain.other w (by rw [userPages_eq] at hwu; omega) hwv
        rw [hleaf, hgain.contents _ (leafCount_ne_zero hwu hwV)]
        refine ⟨hwV, ?_, fun k hk ↦ h.byteAt_eq hw' hk⟩
        rw [h.flags_eq hw', L.flags_clear_of_ne hwv]

end Built

/-! ### Replacing an address space -/

namespace Space

variable {old new : ℕ} {u : Phys}

/-- The free pages, of which another address space can be built. -/
def freeEstate (h : Space S M s old []) : Estate where
  count pg := s.freelist.count pg
  le_one pg := by
    have hstock := h.stock pg
    have hle := S.le_one pg
    omega
  isPage pg hpg := S.isPage pg (by
    have hstock := h.stock pg
    omega)

theorem pool (h : Space S M s old []) : Pool h.freeEstate s.mem s [] :=
  ⟨fun pg ↦ by rw [List.count_nil]; rfl, fun _ _ ↦ rfl⟩

/-- What is done to pages that were free leaves an address space alone. -/
theorem keeps (h : Space S M s old [])
    (hframe : ∀ pg, s.freelist.count pg = 0 → t.mem pg = s.mem pg) :
    Agrees s.mem t.mem 2 old ∧ mapped t.mem old = mapped s.mem old := by
  refine Apart.keeps (S := h.freeEstate) (fun pg hpg ↦ ?_) hframe
  have hstock := h.stock pg
  have hle := S.le_one pg
  show s.freelist.count pg = 0
  omega

/-- The pages of an address space, and those that another has left. -/
def oldEstate (h : Space S M s old []) (ht : Space h.freeEstate s.mem t new []) : Estate where
  count pg := nodeCount s.mem 2 old pg + leafCount s.mem old pg + t.freelist.count pg
  le_one pg := by
    have hstock := h.stock pg
    have hfree : _ = s.freelist.count pg := ht.stock pg
    have hle := S.le_one pg
    omega
  isPage pg hpg := S.isPage pg (by
    have hstock := h.stock pg
    have hfree : _ = s.freelist.count pg := ht.stock pg
    omega)

theorem old_space (h : Space S M s old []) (ht : Space h.freeEstate s.mem t new []) :
    Space (h.oldEstate ht) t.mem t old [] := by
  obtain ⟨hagrees, -⟩ := h.keeps ht.frame
  refine ⟨hagrees.isTable h.table, fun pg ↦ ?_, fun _ _ ↦ rfl⟩
  rw [hagrees.nodeCount_eq, leafCount_congr fun v _ ↦ hagrees.leaf_eq v, List.count_nil,
    add_zero,
    oldEstate]

end Space

/-- **A new address space in the place of the old**: when the pages of the old one have been freed,
the new one has the place it had. -/
theorem Built.replace {old new : ℕ} {u : Phys} (h : Space S M s old [])
    (ht : Built h.freeEstate s.mem t new L) (hu : Pool (h.oldEstate ht.space) t.mem u []) :
    Built S M u new L := by
  have hcount : ∀ pg, nodeCount t.mem 2 new pg + leafCount t.mem new pg + t.freelist.count pg + 0 =
    s.freelist.count pg := ht.space.stock
  have hstock : ∀ pg, nodeCount s.mem 2 old pg + leafCount s.mem old pg + s.freelist.count pg + 0 =
    S.count pg := h.stock
  have hfreed : ∀ pg, u.freelist.count pg + 0 =
    nodeCount s.mem 2 old pg + leafCount s.mem old pg + t.freelist.count pg := hu.stock
  have hmem : ∀ pg, nodeCount s.mem 2 old pg + leafCount s.mem old pg + t.freelist.count pg = 0 →
    u.mem pg = t.mem pg := hu.frame
  -- the pages of the new address space are not among those that are freed
  have hnew : ∀ pg, nodeCount t.mem 2 new pg + leafCount t.mem new pg ≠ 0 → u.mem pg = t.mem pg :=
    fun pg hpg ↦ hmem pg (by
      have h₁ := hcount pg
      have h₂ := hstock pg
      have hle := S.le_one pg
      omega)
  have hagrees : Agrees t.mem u.mem 2 new := fun pg hpg ↦ hnew pg (by omega)
  have hleaf := hagrees.leaf_eq
  refine .of_leaf ⟨hagrees.isTable ht.space.table, fun pg ↦ ?_, fun pg hpg ↦ ?_⟩
    (ht.shape.of_translation fun v _ ↦ translation_congr (hleaf v)) fun v hv ↦ ?_
  · rw [hagrees.nodeCount_eq, leafCount_congr fun v _ ↦ hleaf v, List.count_nil]
    have h₁ := hcount pg
    have h₂ := hstock pg
    have h₃ := hfreed pg
    omega
  · have h₁ := hcount pg
    have h₂ := hstock pg
    have h₃ : s.mem pg = M pg := h.frame pg hpg
    have h₄ : t.mem pg = s.mem pg := ht.space.frame pg (by
      show s.freelist.count pg = 0
      omega)
    rw [hmem pg (by omega), h₄, h₃]
  · obtain ⟨hvu, hV⟩ := ht.valid hv
    have hcontent := hnew (pte2pa (leaf t.mem new v)) (by
      have hne := leafCount_ne_zero hvu hV
      omega)
    rw [hleaf, hcontent]
    exact ⟨hV, ht.flags_eq hv, fun k hk ↦ ht.byteAt_eq hv hk⟩

end Xv6

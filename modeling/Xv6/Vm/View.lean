import Xv6.Vm.Space

/-!
# User memory as the program sees it

A program does not see which of its pages have physical memory. What it sees is a `View`: for each
page number, whether there is a page, with which permissions, and its bytes. `completed m pt sz`
reads a view off a page table, a page below the size that has no memory yet being a writable page of
zeros: this is the state in which every such page has been mapped, without mapping it.

The copies between kernel and user are functions of the view (`View.copyin`, `View.copyout`,
`View.copyinstr`). They are stated page by page, as the loops of the source are.
-/

namespace Xv6

open Function Option

/-- The number of pages below `PGROUNDUP(sz)`. -/
def pagesOf (sz : ℕ) : ℕ := pgRoundUp sz / pgsize

theorem pagesOf_eq {sz : ℕ} (h : sz ≤ trapframeVa) : pagesOf sz = (sz + 4095) / 4096 := by
  have hle : sz ≤ 274877898752 := h
  show (sz + 4095) % 2 ^ 64 / 4096 * 4096 / 4096 = (sz + 4095) / 4096
  omega

theorem lt_pagesOf {sz v : ℕ} (h : sz ≤ trapframeVa) : v < pagesOf sz ↔ v * pgsize < sz := by
  rw [pagesOf_eq h, pgsize_eq]
  omega

theorem pagesOf_le {sz : ℕ} (h : sz ≤ trapframeVa) : pagesOf sz ≤ userPages := by
  have hle : sz ≤ 274877898752 := h
  rw [pagesOf_eq h, userPages_eq]
  omega

/-! ### Bytes of a page -/

theorem byteAt_put_self (b : Page) {o : ℕ} (ho : o < 4096) (y : BitVec 8) :
    byteAt (b.put (8 * o) y) o = y :=
  BitVec.field_put_self _ _ _ (by omega)

theorem byteAt_put_of_ne (b : Page) {o k : ℕ} (h : k ≠ o) (y : BitVec 8) :
    byteAt (b.put (8 * o) y) k = byteAt b k :=
  BitVec.field_put_of_disjoint _ _ _ _ (by omega)

theorem byteAt_zeros (k : ℕ) : byteAt (filled 0) k = 0 := by
  refine BitVec.eq_of_getLsbD_eq fun i hi ↦ ?_
  rw [byteAt, filled, BitVec.getLsbD_field, BitVec.getLsbD_replicate]
  simp

/-- A `memmove` within a page. -/
theorem byteAt_putBytes (b : Page) {off n : ℕ} (src : ℕ → BitVec 8) (h : off + n ≤ 4096) (k : ℕ) :
    byteAt (putBytes b off n src) k =
      if off ≤ k ∧ k < off + n then src (k - off) else byteAt b k := by
  induction n with
  | zero => rw [if_neg (by omega)]; rfl
  | succ n ih =>
    have hsucc : putBytes b off (n + 1) src =
        (putBytes b off n src).put (8 * (off + n)) (src n) := by
      rw [putBytes, putBytes, List.range_succ, List.foldl_append]
      rfl
    rw [hsucc]
    by_cases hk : k = off + n
    · subst hk
      rw [byteAt_put_self _ (by omega), if_pos (by omega), Nat.add_sub_cancel_left]
    · rw [byteAt_put_of_ne _ hk, ih (by omega)]
      by_cases hin : off ≤ k ∧ k < off + n
      · rw [if_pos hin, if_pos (by omega)]
      · rw [if_neg hin, if_neg (by omega)]

/-! ### Views -/

/-- The permissions and the bytes of each page, by page number. -/
abbrev View := ℕ → Option (Pte × Page)

namespace View

/-- The page `v`, if the user may access it. -/
def page (U : View) (v : ℕ) : Option (Pte × Page) := (U v).filter fun p ↦ hasFlag p.1 pteU

/-- The number of bytes of a transfer of `len` bytes from `va` on that are in the first page. -/
def chunk (va len : ℕ) : ℕ := min (pgsize - (va - pgRoundDown va)) len

/-- What `copyin` returns and delivers. -/
def copyin (U : View) : ℕ → ℕ → ℕ → ℤ × List (BitVec 8)
  | 0, _, _ => (0, [])
  | turns + 1, srcva, len =>
    if len > 0 then
      match U.page (srcva / pgsize) with
      | none => (-1, [])
      | some (_, b) =>
        let (r, rest) :=
          U.copyin turns (pgRoundDown srcva + pgsize) (len - chunk srcva len)
        (r, (List.range (chunk srcva len)).map (fun k ↦ byteAt b (srcva - pgRoundDown srcva + k)) ++
          rest)
    else (0, [])

/-- What `copyout` returns, and what it leaves. -/
def copyout (U : View) : ℕ → ℕ → (ℕ → BitVec 8) → ℕ → ℤ × View
  | 0, _, _, _ => (0, U)
  | turns + 1, dstva, src, len =>
    if len > 0 then
      match U.page (dstva / pgsize) with
      | none => (-1, U)
      | some (f, b) =>
        if hasFlag f pteW then
          copyout (update U (dstva / pgsize)
              (some (f, putBytes b (dstva - pgRoundDown dstva) (chunk dstva len) src)))
            turns (pgRoundDown dstva + pgsize) (fun k ↦ src (chunk dstva len + k))
            (len - chunk dstva len)
        else (-1, U)
    else (0, U)

/-- What `copyinstr` returns and delivers. -/
def copyinstr (U : View) : ℕ → ℕ → ℕ → ℤ × List (BitVec 8)
  | 0, _, _ => (-1, [])
  | turns + 1, srcva, max =>
    if max > 0 then
      match U.page (srcva / pgsize) with
      | none => (-1, [])
      | some (_, b) =>
        let bytes :=
          (List.range (chunk srcva max)).map fun k ↦ byteAt b (srcva - pgRoundDown srcva + k)
        if 0 ∈ bytes then (0, bytes.takeWhile (· ≠ 0))
        else
          let (r, rest) := U.copyinstr turns (pgRoundDown srcva + pgsize) (max - chunk srcva max)
          (r, bytes ++ rest)
    else (-1, [])

theorem copyinstr_succ (U : View) (turns srcva max : ℕ) : U.copyinstr (turns + 1) srcva max =
    if max > 0 then
      match U.page (srcva / pgsize) with
      | none => (-1, [])
      | some (_, b) =>
        let bytes :=
          (List.range (chunk srcva max)).map fun k ↦ byteAt b (srcva - pgRoundDown srcva + k)
        if 0 ∈ bytes then (0, bytes.takeWhile (· ≠ 0))
        else
          let (r, rest) := U.copyinstr turns (pgRoundDown srcva + pgsize) (max - chunk srcva max)
          (r, bytes ++ rest)
    else (-1, []) := rfl

/-- The pieces: one in the first page, and what is left from the next page on. -/
theorem chunk_cases (va : ℕ) {len : ℕ} (hlen : 0 < len) :
    0 < chunk va len ∧ va - pgRoundDown va + chunk va len ≤ 4096 ∧
      chunk va len ≤ len ∧ (∀ a, va ≤ a → a < va + chunk va len → a / 4096 = va / 4096) ∧
      (chunk va len < len → pgRoundDown va + pgsize = va + chunk va len ∧
        (va + chunk va len) % 4096 = 0) := by
  have hdown : pgRoundDown va = va / 4096 * 4096 := rfl
  rw [chunk, hdown, pgsize_eq]
  refine ⟨by omega, by omega, by omega, fun a hle hlt ↦ by omega, fun h ↦ by omega⟩

/-- The byte at a user address. -/
def byte (U : View) (a : ℕ) : Option (BitVec 8) :=
  (U.page (a / pgsize)).map fun p ↦ byteAt p.2 (a % pgsize)

/-- **What `copyin` delivers**: the bytes up to the first that the user cannot access. -/
theorem copyin_spec (U : View) {turns va len : ℕ} (hturns : len ≤ turns) :
    (∀ k < (U.copyin turns va len).2.length,
      (U.copyin turns va len).2[k]? = U.byte (va + k)) ∧
    ((U.copyin turns va len).1 = 0 ∧ (U.copyin turns va len).2.length = len ∨
      (U.copyin turns va len).1 = -1 ∧ (U.copyin turns va len).2.length < len ∧
        U.byte (va + (U.copyin turns va len).2.length) = none) := by
  induction turns generalizing va len with
  | zero =>
    obtain rfl : len = 0 := Nat.le_zero.1 hturns
    exact ⟨fun k hk ↦ absurd hk (Nat.not_lt_zero k), .inl ⟨rfl, rfl⟩⟩
  | succ turns ih =>
    rw [copyin]
    rcases Nat.eq_zero_or_pos len with rfl | hlen
    · exact ⟨fun k hk ↦ absurd hk (Nat.not_lt_zero k), .inl ⟨rfl, rfl⟩⟩
    obtain ⟨hpos, -, hle, hin, hnext⟩ := chunk_cases va hlen
    rw [if_pos hlen]
    cases hpage : U.page (va / pgsize) with
    | none =>
      refine ⟨fun k hk ↦ absurd hk (Nat.not_lt_zero k), .inr ⟨rfl, hlen, ?_⟩⟩
      rw [byte, List.length_nil, add_zero, hpage, map_none]
    | some p =>
      obtain ⟨f, b⟩ := p
      obtain ⟨hbyte, hres⟩ := @ih (pgRoundDown va + pgsize) (len - chunk va len) (by omega)
      generalize U.copyin turns (pgRoundDown va + pgsize) (len - chunk va len) = rest at hbyte hres
      obtain ⟨r, rest⟩ := rest
      have hdown : pgRoundDown va = va / 4096 * 4096 := rfl
      simp only [List.length_append, List.length_map, List.length_range] at hbyte hres ⊢
      -- where the rest is not empty, it begins behind this piece
      have hcont : chunk va len < len → ∀ k,
          U.byte (pgRoundDown va + pgsize + k) = U.byte (va + (chunk va len + k)) := fun hlt k ↦ by
        rw [(hnext hlt).1, add_assoc]
      refine ⟨fun k hk ↦ ?_, ?_⟩
      · rcases lt_or_ge k (chunk va len) with hfirst | hlater
        · have hsame : (va + k) / 4096 = va / 4096 := hin (va + k) (by omega) (by omega)
          rw [List.getElem?_append_left (by rwa [List.length_map, List.length_range]),
            List.getElem?_map, List.getElem?_range hfirst, map_some, byte,
            show (va + k) / pgsize = va / pgsize from hsame, hpage, map_some]
          congr 2
          rw [hdown]
          show _ = (va + k) % 4096
          omega
        · rw [List.getElem?_append_right (by rwa [List.length_map, List.length_range]),
            List.length_map, List.length_range, hbyte _ (by omega),
            hcont (by rcases hres with h | h <;> omega), Nat.add_sub_cancel' hlater]
      · rcases hres with ⟨hr, hlen'⟩ | ⟨hr, hlt, hnone⟩
        · exact .inl ⟨hr, by omega⟩
        · refine .inr ⟨hr, by omega, ?_⟩
          rwa [hcont (by omega)] at hnone

/-- The user may write to the address. -/
def writable (U : View) (a : ℕ) : Bool := (U.page (a / pgsize)).any fun p ↦ hasFlag p.1 pteW

theorem writable_congr {U V : View} (h : ∀ v, (V v).map Prod.fst = (U v).map Prod.fst) (a : ℕ) :
    V.writable a = U.writable a := by
  have hpage := h (a / pgsize)
  rw [writable, writable, page, page]
  cases hV : V (a / pgsize) with
  | none =>
    rw [hV, map_none] at hpage
    rw [map_eq_none_iff.1 hpage.symm]
  | some p =>
    rw [hV, map_some] at hpage
    obtain ⟨q, hq, hfst⟩ := map_eq_some_iff.1 hpage.symm
    rw [hq, filter_some, filter_some, hfst]
    split_ifs
    · rw [any_some, any_some, hfst]
    · rfl

/-- Another page in the place of one that the user may access. -/
theorem byte_update {U : View} {v : ℕ} {f : Pte} {b : Page} (hpage : U.page v = some (f, b))
    (b' : Page) (a : ℕ) : byte (update U v (some (f, b'))) a =
      if a / pgsize = v then some (byteAt b' (a % pgsize)) else U.byte a := by
  rw [page, filter_eq_some_iff] at hpage
  rw [byte, page]
  split_ifs with hv
  · rw [hv, update_self, filter_some, if_pos hpage.2, map_some]
  · rw [update_of_ne hv]
    rfl

/-- Bytes are written within one page. -/
theorem byte_putBytes {U : View} {va c : ℕ} {src : ℕ → BitVec 8} {f : Pte} {b : Page}
    (hpage : U.page (va / pgsize) = some (f, b)) (hfit : va % pgsize + c ≤ 4096) (a : ℕ) :
    byte (update U (va / pgsize) (some (f, putBytes b (va % pgsize) c src))) a =
      if va ≤ a ∧ a < va + c then some (src (a - va)) else U.byte a := by
  rw [byte_update hpage, byteAt_putBytes _ _ hfit]
  rw [pgsize_eq] at hfit ⊢
  by_cases hhere : va ≤ a ∧ a < va + c
  · rw [if_pos (by omega), if_pos (by omega), if_pos hhere]
    congr 2
    omega
  · rw [if_neg hhere]
    split_ifs with hv hin
    · omega
    · rw [byte, pgsize_eq, hv, ← pgsize_eq, hpage, map_some]
    · rfl

/-- What a `copyout` returns and leaves: the bytes are in their places, all of them or those before
the first that the user may not write. -/
structure Stored (U : View) (va : ℕ) (src : ℕ → BitVec 8) (len : ℕ) (p : ℤ × View) : Prop where
  flags : ∀ v, (p.2 v).map Prod.fst = (U v).map Prod.fst
  result : ∃ k, (∀ j < k, U.writable (va + j) = true) ∧
    (∀ a, p.2.byte a = if va ≤ a ∧ a < va + k then some (src (a - va)) else U.byte a) ∧
    (p.1 = 0 ∧ k = len ∨ p.1 = -1 ∧ k < len ∧ U.writable (va + k) = false)

theorem Stored.zero (U : View) (va : ℕ) (src : ℕ → BitVec 8) : Stored U va src 0 (0, U) :=
  ⟨fun _ ↦ rfl, 0, fun _ hj ↦ absurd hj (Nat.not_lt_zero _), fun _ ↦ (if_neg (by omega)).symm,
    .inl ⟨rfl, rfl⟩⟩

theorem Stored.refused {U : View} {va len : ℕ} {src : ℕ → BitVec 8} (hlen : 0 < len)
    (h : U.writable va = false) : Stored U va src len (-1, U) :=
  ⟨fun _ ↦ rfl, 0, fun _ hj ↦ absurd hj (Nat.not_lt_zero _), fun _ ↦ (if_neg (by omega)).symm,
    .inr ⟨rfl, hlen, h⟩⟩

/-- A piece that is within one page, and the rest. -/
theorem Stored.cons {U : View} {va len c : ℕ} {src : ℕ → BitVec 8} {f : Pte} {b : Page}
    {p : ℤ × View} (hpage : U.page (va / pgsize) = some (f, b)) (hW : hasFlag f pteW = true)
    (hc : c ≤ len) (hfit : va % pgsize + c ≤ 4096)
    (h : Stored (update U (va / pgsize) (some (f, putBytes b (va % pgsize) c src)))
      (va + c) (fun k ↦ src (c + k)) (len - c) p) : Stored U va src len p := by
  have hflags : ∀ v, (update U (va / pgsize)
      (some (f, putBytes b (va % pgsize) c src)) v).map Prod.fst = (U v).map Prod.fst := fun v ↦ by
    by_cases hv : v = va / pgsize
    · rw [page, filter_eq_some_iff] at hpage
      rw [hv, update_self, hpage.1, map_some, map_some]
    · rw [update_of_ne hv]
  obtain ⟨k, hmay, hbyte, hres⟩ := h.result
  simp only [writable_congr hflags, add_assoc] at hmay hres
  refine ⟨fun v ↦ (h.flags v).trans (hflags v), c + k, fun j hj ↦ ?_, fun a ↦ ?_, ?_⟩
  · rcases lt_or_ge j c with hlt | hge
    · have hdiv : (va + j) / pgsize = va / pgsize := by
        rw [pgsize_eq] at hfit ⊢
        omega
      rw [writable, hdiv, hpage, any_some, hW]
    · have hlater := hmay (j - c) (by omega)
      rwa [Nat.add_sub_cancel' hge] at hlater
  · rw [hbyte, byte_putBytes hpage hfit]
    by_cases hrest : va + c ≤ a ∧ a < va + c + k
    · rw [if_pos hrest, if_pos (by omega)]
      congr 2
      omega
    rw [if_neg hrest]
    by_cases hhere : va ≤ a ∧ a < va + c
    · rw [if_pos hhere, if_pos (by omega)]
    · rw [if_neg hhere, if_neg (by omega)]
  · rcases hres with ⟨h0, hk⟩ | ⟨h1, hk, hno⟩
    · exact .inl ⟨h0, by omega⟩
    · exact .inr ⟨h1, by omega, hno⟩

theorem copyout_zero (U : View) (turns va : ℕ) (src : ℕ → BitVec 8) :
    U.copyout turns va src 0 = (0, U) := by
  cases turns with
  | zero => rfl
  | succ turns => rw [copyout, if_neg (lt_irrefl 0)]

/-- **What `copyout` leaves.** -/
theorem copyout_spec (U : View) {turns va len : ℕ} {src : ℕ → BitVec 8} (hturns : len ≤ turns) :
    Stored U va src len (U.copyout turns va src len) := by
  induction turns generalizing U va src len with
  | zero =>
    obtain rfl : len = 0 := Nat.le_zero.1 hturns
    exact .zero U va src
  | succ turns ih =>
    rcases Nat.eq_zero_or_pos len with rfl | hlen
    · rw [copyout_zero]
      exact .zero U va src
    obtain ⟨hpos, hfit, hle, -, hnext⟩ := chunk_cases va hlen
    have hdown : va - pgRoundDown va = va % pgsize := by
      have hround : pgRoundDown va = va / 4096 * 4096 := rfl
      rw [hround, pgsize_eq]
      omega
    rw [copyout, if_pos hlen]
    cases hpage : U.page (va / pgsize) with
    | none =>
      refine .refused hlen ?_
      rw [writable, hpage, any_none]
    | some p =>
      obtain ⟨f, b⟩ := p
      show Stored U va src len (if hasFlag f pteW = true then _ else _)
      split_ifs with hW
      · rw [hdown] at hfit ⊢
        refine .cons hpage hW hle hfit ?_
        rcases hle.eq_or_lt with heq | hlt
        · rw [heq, Nat.sub_self, copyout_zero]
          exact .zero _ _ _
        · rw [← (hnext hlt).1]
          exact ih _ (by omega)
      · refine .refused hlen ?_
        rw [writable, hpage, any_some]
        exact Bool.eq_false_iff.2 hW

end View

/-! ### The view of a page table -/

/-- The flags of a page that `vmfault` maps. -/
abbrev lazyFlags : Pte := pteV ||| pteR ||| pteW ||| pteU

/-- The pages that are mapped below `TRAPFRAME`. -/
def mapped (m : Memory) (pt : ℕ) : View := fun v ↦
  if v < userPages ∧ hasFlag (leaf m pt v) pteV then
    some (pteFlags (leaf m pt v), m (pte2pa (leaf m pt v)))
  else none

/-- The pages that are mapped, and a page of zeros for every other page below `PGROUNDUP(sz)`. -/
def completed (m : Memory) (pt sz : ℕ) : View := fun v ↦
  (mapped m pt v).or (if v < pagesOf sz then some (lazyFlags, filled 0) else none)

section

variable {m : Memory} {pt sz v pa : ℕ} {e f : Pte}

theorem mapped_of_valid (hv : v < userPages) (hV : hasFlag (leaf m pt v) pteV = true) :
    mapped m pt v = some (pteFlags (leaf m pt v), m (pte2pa (leaf m pt v))) :=
  if_pos ⟨hv, hV⟩

theorem mapped_of_not_valid (hV : hasFlag (leaf m pt v) pteV = false) : mapped m pt v = none :=
  if_neg fun h ↦ Bool.false_ne_true (hV.symm.trans h.2)

theorem completed_of_valid (hv : v < userPages) (hV : hasFlag (leaf m pt v) pteV = true) :
    completed m pt sz v = some (pteFlags (leaf m pt v), m (pte2pa (leaf m pt v))) := by
  rw [completed, mapped_of_valid hv hV, some_or]

theorem completed_of_not_valid (hV : hasFlag (leaf m pt v) pteV = false) :
    completed m pt sz v = if v < pagesOf sz then some (lazyFlags, filled 0) else none := by
  rw [completed, mapped_of_not_valid hV, none_or]

theorem completed_of_top (hsz : sz ≤ trapframeVa) (hv : userPages ≤ v) :
    completed m pt sz v = none := by
  rw [completed, mapped, if_neg fun h ↦ absurd h.1 (not_lt.2 hv), none_or,
    if_neg (not_lt.2 ((pagesOf_le hsz).trans hv))]

/-- The flags an entry was given are read back. -/
theorem pteFlags_pa2pte_or (hf : f.toNat < 1024) : pteFlags (pa2pte pa ||| f) = f := by
  have haddr := hasFlag_pa2pte pa (f := 0x3FF) (by decide)
  rw [hasFlag, bne_eq_false_iff_eq] at haddr
  rw [pteFlags, BitVec.and_or_distrib_right, haddr, BitVec.zero_or]
  refine BitVec.eq_of_toNat_eq ?_
  rw [BitVec.toNat_and]
  exact Nat.and_two_pow_sub_one_of_lt_two_pow (n := 10) hf

/-- A flag is one of the ten low bits. -/
theorem hasFlag_pteFlags (hf : f &&& 0x3FF = f) : hasFlag (pteFlags e) f = hasFlag e f := by
  rw [hasFlag, hasFlag, pteFlags, BitVec.and_assoc, BitVec.and_comm (0x3FF : Pte), hf]

end

end Xv6

import Xv6.Exec.Arguments

/-!
# What a program finds of its file

The segments of a file in the address space that `kexec` has made. While segments are added in the
order of their addresses, the size is the end of one of them, so that the pages of the next are new
and have its flags; what is added later is above (`Laid`).
-/

namespace Xv6.Exec

open Fs Fs.Kernel List Option

/-! ### The segments of a file -/

/-- The program header at an offset. -/
def progHeader (c : List Byte) (off : ℕ) : Proghdr := .read ((c.drop off).take proghdrSize)

/-- The headers of the segments to load, among `n` program headers from an offset on. -/
def segmentsFrom (c : List Byte) (off n : ℕ) : List Proghdr :=
  ((List.range n).map fun i ↦ progHeader c (off + i * proghdrSize)).filter (·.type = elfProgLoad)

/-- The headers of the segments to load. -/
def segments (c : List Byte) : List Proghdr := segmentsFrom c (header c).phoff (header c).phnum

/-- The addresses of a segment. -/
def Proghdr.range (p : Proghdr) : Set ℕ := Set.Ico p.vaddr (p.vaddr + p.memsz)

/-- One segment is before another, and they do not overlap. -/
def Before (p q : Proghdr) : Prop := p.vaddr ≤ q.vaddr ∧ ∀ a ∈ p.range, a ∉ q.range

variable {c : List Byte} {L L' : Layout} {p q : Proghdr} {segs : List Proghdr}

theorem segmentsFrom_succ (c : List Byte) (off n : ℕ) : segmentsFrom c off (n + 1) =
    (if (progHeader c off).type = elfProgLoad then [progHeader c off] else []) ++
      segmentsFrom c (off + proghdrSize) n := by
  have hnext : ∀ i, off + (i + 1) * proghdrSize = off + proghdrSize + i * proghdrSize := fun i ↦ by
    rw [add_mul, one_mul, add_comm (i * proghdrSize), add_assoc]
  rw [segmentsFrom, range_succ_eq_map, map_cons, List.map_map, filter_cons]
  simp only [Function.comp_def, hnext, zero_mul, add_zero, decide_eq_true_eq]
  split_ifs <;> rfl

/-- A segment that is not empty begins behind those before it. -/
theorem Before.le (h : Before p q) (hq : 0 < q.memsz) : p.vaddr + p.memsz ≤ q.vaddr := by
  by_contra hlt
  exact h.2 q.vaddr ⟨h.1, Nat.lt_of_not_le hlt⟩ ⟨le_rfl, by omega⟩


theorem le_of_notMem_range {a : ℕ} (h : a ∉ p.range) (ha : p.vaddr ≤ a) : p.vaddr + p.memsz ≤ a :=
  Nat.le_of_not_lt fun hlt ↦ h ⟨ha, hlt⟩

/-- A layout has the segments, and nothing else. -/
structure Laid (c : List Byte) (segs : List Proghdr) (L : Layout) : Prop where
  size : L.sz = 0 ∨ ∃ p ∈ segs, L.sz = p.vaddr + p.memsz
  valid : ∀ p ∈ segs, p.Valid ∧ p.vaddr + p.memsz ≤ L.sz ∧ Within c p.off p.filesz
  file : ∀ p ∈ segs, ∀ k < p.filesz, L.byte (p.vaddr + k) = fileByte c p.off k
  zero : ∀ a < pagesOf L.sz * pgsize,
    (∀ p ∈ segs, p.vaddr ≤ a → p.vaddr + p.filesz ≤ a) → L.byte a = 0
  flags : ∀ p ∈ segs, ∀ v, p.vaddr / pgsize ≤ v → v * pgsize < p.vaddr + p.memsz →
    L.flags v = p.pteFlags

theorem laid_empty (c : List Byte) : Laid c [] .empty :=
  ⟨.inl rfl, nofun, nofun, fun _ _ _ ↦ rfl, nofun⟩

/-- The next segment that is not empty begins on a new page. -/
theorem Laid.le_vaddr (h : Laid c segs L) (hq : ∀ p ∈ segs, Before p q) (hpos : 0 < q.memsz) :
    L.sz ≤ q.vaddr := by
  rcases h.size with h0 | ⟨p, hp, hsz⟩
  · rw [h0]
    exact Nat.zero_le _
  · rw [hsz]
    exact (hq p hp).le hpos

/-- An empty segment below the size changes nothing. -/
theorem Laid.add_empty (h : Laid c segs L) (hq : q.Valid) (hmem : q.memsz = 0)
    (hle : q.vaddr ≤ L.sz) : Laid c (segs ++ [q]) L := by
  have hfile : q.filesz = 0 := Nat.le_zero.1 (hmem ▸ hq.1)
  have halign : q.vaddr % 4096 = 0 := hq.2.2
  refine ⟨h.size.imp_right fun ⟨p, hp, hsz⟩ ↦ ⟨p, mem_append_left _ hp, hsz⟩, ?_, ?_,
    fun a ha hnot ↦ h.zero a ha fun p hp ↦ hnot p (mem_append_left _ hp), ?_⟩
  · rw [forall_mem_append, forall_mem_singleton]
    exact ⟨h.valid, hq, by omega, .inl hfile⟩
  · rw [forall_mem_append, forall_mem_singleton]
    exact ⟨h.file, fun k hk ↦ by omega⟩
  · rw [forall_mem_append, forall_mem_singleton]
    refine ⟨h.flags, fun v hv hlt ↦ ?_⟩
    rw [pgsize_eq] at hv hlt
    omega

/-- **A segment is added** above those before it. -/
theorem Laid.add (h : Laid c segs L) (hadd : addSegment c L q = some L')
    (hq : ∀ p ∈ segs, Before p q) (hoff : q.off < 2 ^ 31) (hsz : L'.sz ≤ trapframeVa) :
    Laid c (segs ++ [q]) L' := by
  rw [addSegment, Nat.mod_eq_of_lt (show q.off < 2 ^ 32 by omega)] at hadd
  split_ifs at hadd with hok
  obtain ⟨hvalid, -, hwithin⟩ := hok
  rw [some_inj] at hadd
  have halign : q.vaddr % 4096 = 0 := hvalid.2.2
  have hfile := hvalid.1
  by_cases hlt : q.vaddr + q.memsz < L.sz
  · have hmem : q.memsz = 0 := by
      by_contra hne
      have hle := h.le_vaddr hq (Nat.pos_of_ne_zero hne)
      omega
    rw [Layout.grow, if_pos hlt, show q.filesz = 0 by omega, Layout.load_zero] at hadd
    rw [← hadd]
    exact h.add_empty hvalid hmem (by omega)
  rw [Layout.grow, if_neg hlt] at hadd
  subst hadd
  have hLsz : L.sz ≤ trapframeVa := (Nat.le_of_not_lt hlt).trans hsz
  -- a segment that is not empty has none of the pages before it
  have hnew : 0 < q.memsz → pagesOf L.sz ≤ q.vaddr / 4096 := fun hpos ↦ by
    have hle := h.le_vaddr hq hpos
    rw [pagesOf_eq hLsz]
    omega
  have hbelow : ∀ a, a < L.sz → a < pagesOf L.sz * 4096 := fun a ha ↦ by
    rw [pagesOf_eq hLsz]
    omega
  refine ⟨.inr ⟨q, mem_append_right _ (mem_singleton_self q), rfl⟩, ?_, ?_,
    fun a ha hnot ↦ ?_, ?_⟩
  · rw [forall_mem_append, forall_mem_singleton]
    refine ⟨fun p hp ↦ ?_, hvalid, le_rfl, hwithin⟩
    obtain ⟨hpv, hend, hpw⟩ := h.valid p hp
    exact ⟨hpv, hend.trans (Nat.le_of_not_lt hlt), hpw⟩
  · rw [forall_mem_append, forall_mem_singleton]
    refine ⟨fun p hp k hk ↦ ?_, fun k hk ↦ ?_⟩
    · obtain ⟨⟨hpf, -⟩, hend, -⟩ := h.valid p hp
      have hnot : ¬(q.vaddr ≤ p.vaddr + k ∧ p.vaddr + k < q.vaddr + q.filesz) := fun hin ↦ by
        have hle := h.le_vaddr hq (by omega)
        omega
      rw [Layout.load]
      dsimp only
      rw [if_neg hnot, if_pos (hbelow _ (by omega))]
      exact h.file p hp k hk
    · rw [Layout.load]
      dsimp only
      rw [if_pos (by omega), Nat.add_sub_cancel_left]
  · have hnot' := hnot q (mem_append_right _ (mem_singleton_self q))
    rw [Layout.load]
    dsimp only
    rw [if_neg (by omega)]
    split_ifs with hold
    · exact h.zero a hold fun p hp ↦ hnot p (mem_append_left _ hp)
    · rfl
  · rw [forall_mem_append, forall_mem_singleton]
    refine ⟨fun p hp v hv hlt ↦ ?_, fun v hv hlt ↦ ?_⟩
    · have hend := (h.valid p hp).2.1
      refine (if_pos ?_).trans (h.flags p hp v hv hlt)
      rw [lt_pagesOf hLsz]
      omega
    · rw [pgsize_eq] at hv hlt
      have hle := hnew (by omega)
      exact if_neg (by omega)

/-- One turn of the loop over the headers. -/
theorem addSegments_succ {n : ℕ} {off : BitVec 32} (hc : c.length < 2 ^ 32)
    (hadd : addSegments c (n + 1) off L = some L') :
    (off + .ofNat 32 proghdrSize).toNat = off.toNat + proghdrSize ∧
      ((progHeader c off.toNat).type ≠ elfProgLoad ∧
          addSegments c n (off + .ofNat 32 proghdrSize) L = some L' ∨
        (progHeader c off.toNat).type = elfProgLoad ∧ ∃ L₁,
          addSegment c L (progHeader c off.toNat) = some L₁ ∧
          addSegments c n (off + .ofNat 32 proghdrSize) L₁ = some L') := by
  have hnum : proghdrSize = 56 := rfl
  rw [addSegments] at hadd
  by_cases hlen : (pieceOf c off.toNat proghdrSize).length = proghdrSize
  swap
  · rw [if_pos hlen] at hadd
    cases hadd
  have hin : off.toNat + proghdrSize ≤ c.length := (pieceOf_spec hc (by decide)).1.1 hlen
  have hpiece : pieceOf c off.toNat proghdrSize = (c.drop off.toNat).take proghdrSize :=
    if_pos (by omega)
  rw [if_neg (not_not.2 hlen), hpiece, ← progHeader] at hadd
  refine ⟨?_, ?_⟩
  · rw [BitVec.toNat_add, BitVec.toNat_ofNat]
    omega
  · split_ifs at hadd with htype
    · exact .inl ⟨htype, hadd⟩
    · exact .inr ⟨not_not.1 htype, bind_eq_some_iff.1 hadd⟩

/-- **All segments are added.** -/
theorem Laid.addSegments {n : ℕ} {off : BitVec 32} (h : Laid c segs L)
    (hadd : addSegments c n off L = some L') (hc : c.length < 2 ^ 32)
    (hoff : ∀ q ∈ segmentsFrom c off.toNat n, q.off < 2 ^ 31)
    (hpair : (segs ++ segmentsFrom c off.toNat n).Pairwise Before) (hsz : L'.sz ≤ trapframeVa) :
    Laid c (segs ++ segmentsFrom c off.toNat n) L' := by
  induction n generalizing off segs L with
  | zero =>
    obtain rfl : L = L' := Option.some.inj hadd
    rwa [segmentsFrom, range_zero, map_nil, filter_nil, append_nil]
  | succ n ih =>
    obtain ⟨hnext, hstep⟩ := addSegments_succ hc hadd
    rw [segmentsFrom_succ, ← hnext] at hoff hpair ⊢
    rcases hstep with ⟨htype, hadd⟩ | ⟨htype, L₁, hL₁, hadd⟩
    · rw [if_neg htype, nil_append] at hoff hpair ⊢
      exact ih h hadd hoff hpair
    · rw [if_pos htype] at hoff hpair ⊢
      rw [forall_mem_append, forall_mem_singleton] at hoff
      rw [← append_assoc] at hpair ⊢
      have hfirst := (pairwise_append.1 (pairwise_append.1 hpair).1).2.2
      have hsz₁ : L₁.sz ≤ trapframeVa := (le_of_addSegments hadd).trans hsz
      exact ih (h.add hL₁ (fun p hp ↦ hfirst p hp _ (mem_singleton_self _)) hoff.1 hsz₁) hadd
        hoff.2 hpair

/-! ### The address space -/

variable [Image] {S : Estate} {M : Memory} {s : Phys} {pt : ℕ} {argv : List CString}

/-- User memory has a segment of a file. -/
structure Loads (U : View) (bytes : List Byte) (p : Proghdr) : Prop where
  file : ∀ k < p.filesz, U.byte (p.vaddr + k) = bytes[p.off + k]? ∧ p.off + k < bytes.length
  zero : ∀ k < p.memsz, p.filesz ≤ k → U.byte (p.vaddr + k) = some 0
  /-- The pages that overlap the segment. -/
  page : ∀ v, v * pgsize < p.vaddr + p.memsz → p.vaddr < (v + 1) * pgsize →
    ∃ f b, U v = some (f, b) ∧ hasFlag f pteR = true ∧ hasFlag f pteU = true ∧
      hasFlag f pteW = p.flags.testBit 1 ∧ hasFlag f pteX = p.flags.testBit 0

omit [Image] in
theorem allUser_empty : AllUser .empty := fun _ hv ↦ absurd hv (Nat.not_lt_zero _)

omit [Image] in
/-- Every page of a program is the user's. -/
theorem allUser_of_addSegments {n : ℕ} {off : BitVec 32} (h : AllUser L)
    (hadd : addSegments c n off L = some L') : AllUser L' := by
  induction n generalizing off L with
  | zero =>
    obtain rfl : L = L' := Option.some.inj hadd
    exact h
  | succ n ih =>
    rw [addSegments] at hadd
    split_ifs at hadd with hlen htype
    · exact ih h hadd
    · obtain ⟨L₁, hL₁, hadd⟩ := bind_eq_some_iff.1 hadd
      obtain ⟨hsz, hflags⟩ := addSegment_eq_some hL₁
      refine ih ?_ hadd
      rw [AllUser, hsz, hflags]
      exact h.grow _ (hasFlag_segFlags _)

/-- The program is as it was before the stack was made. -/
theorem image_below (h : Built S M s pt (image L argv)) (hfits : Fits argv) :
    pagesOf L.sz ≤ pagesOf (image L argv).sz ∧
      (∀ v < pagesOf L.sz, (image L argv).flags v = L.flags v) ∧
      ∀ a < pagesOf L.sz * pgsize, (image L argv).byte a = L.byte a := by
  obtain ⟨hsize, hpages, hflags, -, -, hbyte⟩ := withStack_eq L (sizeWithStack_le h)
  obtain ⟨hsz, hflags'⟩ := withStrings_eq (withStack L) (sizeWithStack L) argv
  have hT := sizeWithStack_eq L
  have hroom : argsRoom argv = stringsRoom argv + room ((argv.length + 1) * 8) := rfl
  have hle : argsRoom argv ≤ 4096 := hfits.2
  refine ⟨?_, fun v hv ↦ ?_, fun a ha ↦ ?_⟩
  · rw [show (image L argv).sz = sizeWithStack L from hsz.trans hsize, hpages]
    omega
  · rw [show (image L argv).flags = (withStack L).flags from hflags', hflags v hv]
  · have ha' : a < pagesOf L.sz * 4096 := ha
    rw [image, withArgs, Layout.load]
    dsimp only
    rw [if_neg (by omega), byte_withStrings_of_not (by omega) (.inl (by omega)), hbyte a ha]

omit [Image] in
theorem hasFlag_pteFlags (p : Proghdr) : hasFlag p.pteFlags pteR = true ∧
    hasFlag p.pteFlags pteW = p.flags.testBit 1 ∧ hasFlag p.pteFlags pteX = p.flags.testBit 0 := by
  rw [Proghdr.pteFlags, flags2perm]
  cases p.flags.testBit 0 <;> cases p.flags.testBit 1 <;> decide

/-- **An address space with segments** shows them to the program. -/
theorem loads_of_built (h : Built S M s pt (image L argv)) (hfits : Fits argv)
    (hL : Laid c segs L) (hU : AllUser L) (hpair : segs.Pairwise Before)
    (hsz : L.sz ≤ trapframeVa) :
    (∀ p ∈ segs, Loads (mapped s.mem pt) c p) ∧
      ∀ a < L.sz, (∀ p ∈ segs, a ∉ p.range) → (mapped s.mem pt).byte a = some 0 := by
  obtain ⟨hpages, hflags, hbytes⟩ := image_below h hfits
  have hpage : ∀ {a}, a < L.sz → a / pgsize < pagesOf L.sz := fun {a} ha ↦ by
    rw [lt_pagesOf hsz]
    exact (Nat.div_mul_le_self _ _).trans_lt ha
  have hread : ∀ a < L.sz, (mapped s.mem pt).byte a = some (L.byte a) := fun a ha ↦ by
    have ha' : a < pagesOf L.sz * pgsize := Nat.lt_mul_of_div_lt (hpage ha) (by decide)
    rw [h.byte_eq (ha'.trans_le (Nat.mul_le_mul_right _ hpages)) ?_, hbytes a ha']
    rw [hflags _ (hpage ha)]
    exact hU _ (hpage ha)
  refine ⟨fun p hp ↦ ⟨fun k hk ↦ ?_, fun k hk hle ↦ ?_, fun v hv hlt ↦ ?_⟩, fun a ha hnot ↦ ?_⟩
  · obtain ⟨hvalid, hend, hwithin⟩ := hL.valid p hp
    have hin : p.off + p.filesz ≤ c.length := hwithin.resolve_left (by omega)
    have hfile := hvalid.1
    rw [hread _ (by omega), hL.file p hp k hk, fileByte, getD_eq_getElem?_getD,
      List.getElem?_eq_getElem (by omega), getD_some]
    exact ⟨rfl, by omega⟩
  · obtain ⟨hvalid, hend, -⟩ := hL.valid p hp
    rw [hread _ (by omega), hL.zero _ (Nat.lt_mul_of_div_lt (hpage (by omega)) (by decide)) ?_]
    intro q hq hqa
    by_cases hne : p = q
    · rw [← hne]
      omega
    · have hsymm : Std.Symm fun p q : Proghdr ↦ ∀ a ∈ p.range, a ∉ q.range :=
        ⟨fun _ _ h a hq hp ↦ h a hp hq⟩
      have hdisj : ∀ a ∈ p.range, a ∉ q.range := (hpair.imp And.right).forall hp hq hne
      have hout := hdisj _ ⟨Nat.le_add_right _ k, Nat.add_lt_add_left hk _⟩
      exact (le_of_notMem_range hout hqa).trans' (Nat.add_le_add_left (hL.valid q hq).1.1 _)
  · have hend := (hL.valid p hp).2.1
    have hv' : v < pagesOf L.sz := (lt_pagesOf hsz).2 (hv.trans_le hend)
    obtain ⟨b, hb, -⟩ := h.page v (hv'.trans_le hpages)
    rw [hflags v hv', hL.flags p hp v (Nat.le_of_lt_succ (Nat.div_lt_of_lt_mul ?_)) hv] at hb
    · obtain ⟨hR, hW, hX⟩ := hasFlag_pteFlags p
      exact ⟨_, b, hb, hR, hasFlag_segFlags p, hW, hX⟩
    · rwa [mul_comm]
  · rw [hread a ha, hL.zero a (Nat.lt_mul_of_div_lt (hpage ha) (by decide)) fun p hp hpa ↦ ?_]
    exact (le_of_notMem_range (hnot p hp) hpa).trans' (Nat.add_le_add_left (hL.valid p hp).1.1 _)

/-- The stops that are panics of the file system, of those in `F`, and the write behind the end of
`ustack` if there are `MAXARG` arguments. -/
def fsPanicOrFull (F : Panic → Prop) (argv : List CString) : Halt → Prop
  | .fs e => F e
  | .ustack => argv.length = maxarg
  | _ => False

omit [Image] in
theorem length_lt_of_fileOf {sb : Superblock} {f : Kfs} {path : List Byte}
    (h : fileOf sb f path = some c) : c.length < 2 ^ 32 := by
  obtain ⟨i, -, rfl⟩ := map_eq_some_iff.1 h
  rw [length_data]
  exact BitVec.isLt _

/-- **`kexec` loads segments faithfully**, if they are in the order of their addresses and do not
overlap, and if the offsets in the file are positive as `int`s. The program finds the bytes of the
file, zeros behind them and between the segments, and pages with the permissions that the segments
ask for. -/
theorem kexec_segments {F : Panic → Prop} {sb : Superblock} {x : Machine}
    (hfs : Walkable F sb x.fs) (hspace : Space S M x.phys x.proc.pagetable [])
    (hshape : WellShaped x.phys.mem x.proc.pagetable x.proc.sz) {path : List Byte}
    (hargs : ∀ a ∈ argv, a.strlen < 2 ^ 31) (hc : fileOf sb x.fs path = some c)
    (hphoff : (header c).phoff < 2 ^ 31) (hoff : ∀ p ∈ segments c, p.off < 2 ^ 31)
    (hpair : (segments c).Pairwise Before) :
    wpe (fsPanicOrFull F argv) (kexec sb path argv) (fun r y ↦ r ≠ -1 →
      (∀ p ∈ segments c, Loads (mapped y.phys.mem y.proc.pagetable) c p) ∧
      ∀ a, (∃ p ∈ segments c, p.vaddr ≤ a) → (∃ p ∈ segments c, a < p.vaddr) →
        (∀ p ∈ segments c, a ∉ p.range) →
          (mapped y.phys.mem y.proc.pagetable).byte a = some 0) x := by
  have hready : Ready (fsPanicOrFull F argv) sb S M x := ⟨hfs, hspace, hshape⟩
  refine (wpe_kexec hready hargs (em _)).mono fun r y hy hr ↦ ?_
  rcases hy.result with ⟨hr', -⟩ | ⟨-, hfits, c', L, hc', hL, hdone⟩
  · exact absurd hr' hr
  obtain rfl : c = c' := Option.some.inj (hc.symm.trans hc')
  rw [program] at hL
  split_ifs at hL
  have hnum : (BitVec.ofNat 32 (header c).phoff).toNat = (header c).phoff := by
    rw [BitVec.toNat_ofNat]
    omega
  have hlaid : Laid c ([] ++ segmentsFrom c (BitVec.ofNat 32 (header c).phoff).toNat _) L :=
    (laid_empty c).addSegments hL (length_lt_of_fileOf hc) (by rwa [hnum]) (by rwa [hnum])
      hdone.size
  rw [hnum, List.nil_append, ← segments] at hlaid
  obtain ⟨hloads, hgap⟩ := loads_of_built hdone.built hfits hlaid
    (allUser_of_addSegments allUser_empty hL) hpair hdone.size
  refine ⟨hloads, fun a _ habove ↦ ?_⟩
  obtain ⟨p, hp, hlt⟩ := habove
  refine hgap a ?_
  have hend := (hlaid.valid p hp).2.1
  omega

section

-- a run of the small machine is not to be evaluated where only its type is looked at
attribute [local irreducible] wpe

omit [Image] in
/-- `kexec("/a", {})` where `/a` is a program. -/
theorem kexec_segments_tiny : ∃ x,
    wpe (fsPanicOrFull (fun _ ↦ False) []) (@kexec smallImage smallSb [slash, 0x61] [])
      (fun _ y ↦ (mapped y.phys.mem y.proc.pagetable).byte 0 = some 0x73 ∧
        (mapped y.phys.mem y.proc.pagetable).byte 7 = some 0) x := by
  let _ : Image := smallImage
  obtain ⟨x, hready, hfile, L, hL, hample⟩ := exists_ready_tinyProgram
  have hready' : Ready (fsPanicOrFull (fun _ ↦ False) []) smallSb twentyEstate twentyFree.mem x :=
    ⟨hready.walkable, hready.space, hready.shape⟩
  have hsegs : segments tinyProgram = [⟨1, 5, 120, 0, 4, 8⟩] := by decide +kernel
  have hargs : ∀ a ∈ ([] : List CString), a.strlen < 2 ^ 31 := nofun
  refine ⟨x, ((wpe_kexec hready' hargs (em _)).and (kexec_segments (F := fun _ ↦ False)
    hready.walkable hready.space hready.shape hargs hfile (by decide +kernel)
    (by rw [hsegs]; decide) (by rw [hsegs]; exact List.pairwise_singleton _ _))).mono
    fun r y ⟨hy, hloads⟩ ↦ ?_⟩
  have hr : r ≠ -1 := by
    rcases hy.result with ⟨-, -, hno⟩ | ⟨hr, -⟩
    · exact absurd hample (hno _ L hfile hL (by decide))
    · rw [hr]
      decide
  have hseg := (hloads hr).1 ⟨1, 5, 120, 0, 4, 8⟩ (by rw [hsegs]; exact List.mem_singleton_self _)
  exact ⟨(hseg.file 0 (by decide)).1, hseg.zero 7 (by decide) (by decide)⟩

end

end Xv6.Exec

import Xv6.Exec.Model
import Xv6.Fs.Kernel.Walk
import Xv6.Vm.Layout

/-!
# Loading segments

What the loop of `kexec` over the program headers makes of a file: a `Layout`, which grows segment
by segment (`addSegments`). It is a function of the bytes of the file alone; whether the loop comes
to its end depends on the memory as well, and the loop fails for no other reason than a segment that
cannot be added or memory that runs out.

`loadseg` takes its offset and its size as `uint`s. A segment of `2 ^ 32` bytes has no room in the
machine, so no size is cut; an offset is.
-/

namespace Xv6.Exec

open Fs Fs.Kernel Option

/-! ### Code in the larger state -/

section

variable {α : Type} {E : Halt → Prop} {Q : α → Machine → Prop} {x : Machine}

theorem wpe_vm {m : KM α} (h : wp m (fun a p ↦ Q a { x with phys := p }) x.phys) :
    wpe E (vm m) Q x :=
  wpe_zoom_of_wp h

theorem wpe_fs {m : FsM α} :
    wpe E (fs m) Q x ↔
      wpe (fun e ↦ E (.fs e)) m (fun a f ↦ Q a { x with fs := f }) x.fs :=
  wpe_zoom

end

/-- The file that is open in `ip` has the bytes `c`. -/
structure Reads (E : Halt → Prop) (sb : Superblock) (f : Kfs) (ip : Kernel.Slot) (c : List Byte) :
    Prop where
  length_le : c.length ≤ maxFile * bsize
  readi : ∀ off n : BitVec 32, wpe (fun e ↦ E (.fs e)) (readi sb ip .kernel off n)
    (fun r t ↦ t = f ∧ r = (((pieceOf c off.toNat n.toNat).length : ℤ),
      pieceOf c off.toNat n.toNat)) f

variable [Image] {E : Halt → Prop} {sb : Superblock} {S : Estate} {M : Memory} {x y : Machine}
  {pt va : ℕ} {ip : Kernel.Slot} {c : List Byte} {L : Layout}

omit [Image] in
theorem Reads.wpe_readi (h : Reads E sb x.fs ip c) {Q : ℤ × List Byte → Machine → Prop}
    {off n : BitVec 32}
    (hQ : Q (((pieceOf c off.toNat n.toNat).length : ℤ), pieceOf c off.toNat n.toNat) x) :
    wpe E (fs (Kernel.readi sb ip .kernel off n)) Q x := by
  rw [wpe_fs]
  refine (h.readi off n).mono fun r t ⟨ht, hr⟩ ↦ ?_
  rw [ht, hr]
  exact hQ

omit [Image] in
theorem reads_of_loaded {f : Kfs} {i : ℕ} (h : Loaded sb f ip i) :
    Reads E sb f ip (node sb f.disk i).data := by
  refine ⟨?_, fun off n ↦ ?_⟩
  · rw [length_data]
    exact h.sound.size_le i h.lt
  · rw [show (node sb f.disk i).data = Kernel.contents f.disk (f.inode ip).din by rw [h.din]; rfl]
    exact h.inSlot.readi_kernel

/-- The bytes of a file from an offset on. -/
def fileByte (c : List Byte) (off k : ℕ) : Byte := c.getD (off + k) 0

/-- A range of a file that is before its end. -/
def Within (c : List Byte) (off n : ℕ) : Prop := n = 0 ∨ off + n ≤ c.length

instance (c : List Byte) (off n : ℕ) : Decidable (Within c off n) :=
  inferInstanceAs (Decidable (_ ∨ _))

omit [Image] in
/-- The bytes that `readi` finds. -/
theorem pieceOf_spec {off n : ℕ} (hc : c.length < 2 ^ 32) (hn : 0 < n) :
    ((pieceOf c off n).length = n ↔ off + n ≤ c.length) ∧ (pieceOf c off n).length ≤ n ∧
      (off + n ≤ c.length → ∀ k < n, (pieceOf c off n).getD k 0 = fileByte c off k) := by
  rw [pieceOf]
  split_ifs with hlt
  · rw [List.length_take, List.length_drop]
    refine ⟨by omega, by omega, fun hle k hk ↦ ?_⟩
    rw [fileByte, List.getD_eq_getElem?_getD, List.getD_eq_getElem?_getD,
      List.getElem?_take_of_lt hk, List.getElem?_drop]
  · rw [List.length_nil]
    exact ⟨by omega, by omega, fun hle ↦ by omega⟩

/-- What `loadseg` of `n` bytes at `va` returns and leaves: the bytes of the file are in their
places, or, if the file is too short, there is a layout of the same size. -/
structure SegLoaded (S : Estate) (M : Memory) (x : Machine) (pt : ℕ) (L : Layout) (c : List Byte)
    (va off n : ℕ) (r : ℤ) (y : Machine) : Prop where
  rest : y = { x with phys := y.phys }
  ample : ∀ n, Ample x.phys n → Ample y.phys n
  ok : Within c off n → r = 0 ∧ Built S M y.phys pt (L.load va n (fileByte c off))
  bad : ¬Within c off n → r = -1 ∧ ∃ L', L'.sz = L.sz ∧ Built S M y.phys pt L'

/-- `readi` into a page of the user's. -/
theorem wpe_readiPage (hfile : Reads E sb x.fs ip c) (h : Built S M x.phys pt L) {v : ℕ}
    (hv : v < pagesOf L.sz) {off n : BitVec 32} (hn : 0 < n.toNat) (hle : n.toNat ≤ pgsize)
    {Q : ℤ → Machine → Prop}
    (hok : ∀ p, off.toNat + n.toNat ≤ c.length →
      Built S M p pt (L.load (v * pgsize) n.toNat (fileByte c off.toNat)) →
      (∀ n, Ample x.phys n → Ample p n) → Q n.toNat { x with phys := p })
    (hbad : ∀ p (r : ℤ) L', ¬off.toNat + n.toNat ≤ c.length → r ≠ n.toNat → L'.sz = L.sz →
      Built S M p pt L' → (∀ n, Ample x.phys n → Ample p n) → Q r { x with phys := p }) :
    wpe E (readiPage sb ip (pte2pa (leaf x.phys.mem pt v)) off n) Q x := by
  have hmax : maxFile * bsize = 274432 := rfl
  have hlen := hfile.length_le
  obtain ⟨hiff, hshort, hbyte⟩ := @pieceOf_spec c off.toNat n.toNat (by omega) hn
  rw [readiPage, wpe_bind]
  refine hfile.wpe_readi ?_
  dsimp only
  rw [wpe_bind]
  refine wpe_vm ?_
  rw [wp_loadPage, wpe_bind]
  refine wpe_vm ?_
  rw [wp_storePage, wpe_pure]
  have hstore := @Built.store _ S M x.phys pt v L h hv 0 (pieceOf c off.toNat n.toNat).length
    (by omega) fun k ↦ (pieceOf c off.toNat n.toNat).getD k 0
  rw [add_zero] at hstore
  by_cases hin : off.toNat + n.toNat ≤ c.length
  · rw [hiff.2 hin] at hstore ⊢
    rw [Layout.load_congr L (hbyte hin)] at hstore
    exact hok _ hin hstore fun _ ↦ id
  · refine hbad _ _ _ hin (fun heq ↦ hin (hiff.1 (by exact_mod_cast heq))) ?_ hstore fun _ ↦ id
    rfl

/-- A page has been read, and the rest follows. -/
theorem SegLoaded.cons {off n : ℕ} {p : Phys} {r : ℤ}
    (h : SegLoaded S M { x with phys := p } pt (L.load va (min n 4096) (fileByte c off))
      c (va + 4096)
      (off + 4096) (n - 4096) r y)
    (hample : ∀ n, Ample x.phys n → Ample p n) (hin : off + min n 4096 ≤ c.length) :
    SegLoaded S M x pt L c va off n r y := by
  have hiff : Within c (off + 4096) (n - 4096) ↔ Within c off n := by
    rw [Within, Within]
    omega
  have hload : (L.load va (min n 4096) (fileByte c off)).load (va + 4096) (n - 4096)
      (fileByte c (off + 4096)) = L.load va n (fileByte c off) := by
    rcases lt_or_ge 4096 n with hlt | hle
    · have hsrc : fileByte c (off + 4096) = fun k ↦ fileByte c off (4096 + k) :=
        funext fun k ↦ by rw [fileByte, fileByte, add_assoc]
      rw [min_eq_right hlt.le, hsrc, Layout.load_load L hlt.le]
    · rw [min_eq_left hle, Nat.sub_eq_zero_of_le hle, Layout.load_zero]
  refine ⟨h.rest, fun n hn ↦ h.ample n (hample n hn), fun hyes ↦ ?_, fun hno ↦ ?_⟩
  · have hok := h.ok (hiff.2 hyes)
    rwa [hload] at hok
  · exact h.bad (mt hiff.1 hno)

/-- The loop of `loadseg`, at the page `i`. -/
theorem wpe_loadsegFrom {offset sz i : BitVec 32} {turns : ℕ} (hfile : Reads E sb x.fs ip c)
    (h : Built S M x.phys pt L) (hal : va % pgsize = 0) (hi : i.toNat % pgsize = 0)
    (hsz : sz.toNat ≤ 2 ^ 31)
    (hstart : i.toNat = 0 ∨ sz.toNat ≤ i.toNat ∨ offset.toNat + i.toNat ≤ c.length)
    (hturns : i.toNat < sz.toNat + 4096 ∧ sz.toNat + 4096 ≤ i.toNat + turns * 4096)
    (hpages : ∀ v, va / pgsize ≤ v → v * pgsize < va + sz.toNat →
      v < pagesOf L.sz ∧ hasFlag (L.flags v) pteU = true) :
    wpe E (loadsegFrom sb pt va ip offset sz turns i)
      (SegLoaded S M x pt L c (va + i.toNat) (offset.toNat + i.toNat) (sz.toNat - i.toNat)) x := by
  have hmax : maxFile * bsize = 274432 := rfl
  have hlen := hfile.length_le
  have hoffset := offset.isLt
  induction turns generalizing x i L with
  | zero => omega
  | succ turns ih =>
    rw [loadsegFrom, wpe_ite, wpe_pure, BitVec.lt_def]
    refine ⟨fun hlt ↦ ?_, fun hge ↦ ?_⟩
    swap
    · have hnone : sz.toNat - i.toNat = 0 := by omega
      rw [hnone]
      refine ⟨rfl, fun _ ↦ id, fun _ ↦ ⟨rfl, ?_⟩, fun hno ↦ absurd (.inl rfl) hno⟩
      rwa [Layout.load_zero]
    have hplace : (va + i.toNat) / pgsize * pgsize = va + i.toNat :=
      Nat.div_mul_cancel (Nat.dvd_add (Nat.dvd_of_mod_eq_zero hal) (Nat.dvd_of_mod_eq_zero hi))
    rw [pgsize_eq] at hal hi
    obtain ⟨hv, hU⟩ := hpages ((va + i.toNat) / pgsize) (by rw [pgsize_eq]; omega)
      (by rw [pgsize_eq]; omega)
    have hvu := (h.valid hv).1
    have hva : u64 (va + i.toNat) = va + i.toNat := by
      rw [userPages_eq, pgsize_eq] at hvu
      rw [u64]
      omega
    obtain ⟨hpa, hpos⟩ := h.userPa_eq hv hU
    rw [wpe_bind]
    refine wpe_vm ?_
    rw [hva, wp_walkaddr, hpa, if_neg hpos]
    -- the piece in this page
    have hsub : (sz - i).toNat = sz.toNat - i.toNat := BitVec.toNat_sub_of_le hlt.le
    have hn : (if sz - i < BitVec.ofNat 32 pgsize then sz - i else BitVec.ofNat 32 pgsize).toNat =
        min (sz.toNat - i.toNat) 4096 := by
      have hpg : (BitVec.ofNat 32 pgsize).toNat = 4096 := rfl
      split_ifs with hc <;> rw [BitVec.lt_def, hsub, hpg] at hc
      · rw [hsub]
        omega
      · rw [hpg]
        omega
    have hoff : (offset + i).toNat = offset.toNat + i.toNat := by
      rw [BitVec.toNat_add]
      omega
    have hnext : (i + BitVec.ofNat 32 pgsize).toNat = i.toNat + 4096 := by
      rw [BitVec.toNat_add]
      show (i.toNat + 4096) % 2 ^ 32 = _
      omega
    dsimp only
    generalize hm : (if sz - i < BitVec.ofNat 32 pgsize then sz - i else BitVec.ofNat 32 pgsize) = m
      at hn
    rw [wpe_bind]
    refine wpe_readiPage hfile h hv (by rw [hn]; omega) (by rw [hn, pgsize_eq]; omega)
      (fun p hin hp hample ↦ ?_) fun p r L' hin hr hL' hp hample ↦ ?_
    · rw [hoff, hplace, hn] at hp
      rw [hoff, hn] at hin
      rw [if_neg (by simp)]
      have hrec : wpe E (loadsegFrom sb pt va ip offset sz turns (i + BitVec.ofNat 32 pgsize)) _
          { x with phys := p } := ih hfile hp (by rw [hnext, pgsize_eq]; omega) ?_ ?_ hpages
      · refine hrec.mono fun r y hy ↦ ?_
        rw [hnext, ← add_assoc, ← add_assoc, ← Nat.sub_sub] at hy
        exact hy.cons hample hin
      · rw [hnext]
        omega
      · rw [hnext]
        omega
    · rw [if_pos hr, wpe_pure]
      rw [hoff, hn] at hin
      have hno : ¬Within c (offset.toNat + i.toNat) (sz.toNat - i.toNat) := by
        rw [Within]
        omega
      exact ⟨rfl, hample, fun hyes ↦ absurd hyes hno, fun _ ↦ ⟨rfl, L', hL', hp⟩⟩

/-- **`loadseg`** puts the bytes of the file in their places, or the file is too short. -/
theorem wpe_loadseg {offset sz : BitVec 32} (hfile : Reads E sb x.fs ip c)
    (h : Built S M x.phys pt L) (hal : va % pgsize = 0) (hsz : sz.toNat ≤ 2 ^ 31)
    (hpages : ∀ v, va / pgsize ≤ v → v * pgsize < va + sz.toNat →
      v < pagesOf L.sz ∧ hasFlag (L.flags v) pteU = true) :
    wpe E (loadseg sb pt va ip offset sz)
      (SegLoaded S M x pt L c va offset.toNat sz.toNat) x :=
  wpe_loadsegFrom hfile h hal rfl hsz (.inl rfl) ⟨by simp, by simp; omega⟩ hpages

/-! ### Segments -/

omit [Image] in
theorem field_lt (bytes : List Byte) (off w : ℕ) : field bytes off w < 256 ^ w := by
  have hfold : ∀ l : List Byte, l.foldr (fun b n ↦ b.toNat + 256 * n) 0 < 256 ^ l.length := by
    intro l
    induction l with
    | nil => exact Nat.one_pos
    | cons b l ih =>
      have hb := b.isLt
      rw [List.foldr_cons, List.length_cons, Nat.pow_succ]
      omega
  refine (hfold _).trans_le (Nat.pow_le_pow_right (by decide) ?_)
  rw [List.length_take]
  exact min_le_left _ _

/-- The checks that a segment has to pass on its own. -/
def Proghdr.Valid (ph : Proghdr) : Prop :=
  ph.filesz ≤ ph.memsz ∧ ph.vaddr + ph.memsz < 2 ^ 64 ∧ ph.vaddr % pgsize = 0

instance (ph : Proghdr) : Decidable ph.Valid := inferInstanceAs (Decidable (_ ∧ _))

/-- The flags of the pages of a segment. -/
def Proghdr.pteFlags (ph : Proghdr) : Pte := pteR ||| pteU ||| flags2perm ph.flags ||| pteV

/-- A layout with the segment of a header, if it can be added. -/
def addSegment (c : List Byte) (L : Layout) (ph : Proghdr) : Option Layout :=
  if ph.Valid ∧ (L.grow (ph.vaddr + ph.memsz) ph.pteFlags).sz ≠ 0 ∧
      Within c (ph.off % 2 ^ 32) ph.filesz then
    some ((L.grow (ph.vaddr + ph.memsz) ph.pteFlags).load ph.vaddr ph.filesz
      (fileByte c (ph.off % 2 ^ 32)))
  else none

/-- A layout with the segments of `n` headers, from the offset `off` of the file on. -/
def addSegments (c : List Byte) : ℕ → BitVec 32 → Layout → Option Layout
  | 0, _, L => some L
  | n + 1, off, L =>
    let bytes := pieceOf c off.toNat proghdrSize
    if bytes.length ≠ proghdrSize then none
    else if (Proghdr.read bytes).type ≠ elfProgLoad then
      addSegments c n (off + .ofNat 32 proghdrSize) L
    else (addSegment c L (Proghdr.read bytes)).bind
      (addSegments c n (off + .ofNat 32 proghdrSize))

/-- Every page is the user's. -/
def AllUser (L : Layout) : Prop := ∀ v < pagesOf L.sz, hasFlag (L.flags v) pteU = true

omit [Image] in
theorem flags2perm_lt (flags : ℕ) : (pteR ||| pteU ||| flags2perm flags).toNat < 1024 := by
  rw [flags2perm]
  split_ifs <;> decide

omit [Image] in
theorem AllUser.grow (h : AllUser L) (newsz : ℕ) {f : Pte} (hf : hasFlag f pteU = true) :
    AllUser (L.grow newsz f) := by
  rw [Layout.grow]
  split_ifs with hlt
  · exact h
  · intro v hv
    dsimp only
    split_ifs with hold
    · exact h v hold
    · exact hf

omit [Image] in
theorem hasFlag_segFlags (ph : Proghdr) : hasFlag ph.pteFlags pteU = true := by
  rw [Proghdr.pteFlags, flags2perm]
  split_ifs <;> decide

/-- What the loop over the headers returns and leaves. -/
structure SegsLoaded (S : Estate) (M : Memory) (x : Machine) (pt : ℕ) (L : Layout)
    (W : Option Layout) (r : Bool × ℕ) (y : Machine) : Prop where
  rest : y = { x with phys := y.phys }
  ok : r.1 = true → ∃ L', W = some L' ∧ r.2 = L'.sz ∧ Built S M y.phys pt L' ∧ AllUser L' ∧
    ∀ n, Ample x.phys (n + 3 * ((L'.sz + 4095) / 4096 - pagesOf L.sz)) → Ample y.phys n
  bad : r.1 = false → Space S M y.phys pt [] ∧ WellShaped y.phys.mem pt r.2 ∧
    ∀ L', W = some L' → ∀ n, ¬Ample x.phys (n + 3 * ((L'.sz + 4095) / 4096 - pagesOf L.sz))

omit [Image] in
theorem addSegment_eq_some {L' : Layout} {ph : Proghdr} (h : addSegment c L ph = some L') :
    L'.sz = (L.grow (ph.vaddr + ph.memsz) ph.pteFlags).sz ∧
      L'.flags = (L.grow (ph.vaddr + ph.memsz) ph.pteFlags).flags := by
  rw [addSegment] at h
  split_ifs at h
  rw [some_inj] at h
  rw [← h]
  exact ⟨rfl, rfl⟩

omit [Image] in
/-- A layout does not get smaller. -/
theorem le_of_addSegments {n : ℕ} {off : BitVec 32} {L' : Layout}
    (h : addSegments c n off L = some L') : L.sz ≤ L'.sz := by
  induction n generalizing off L with
  | zero =>
    rw [addSegments, some_inj] at h
    rw [h]
  | succ n ih =>
    rw [addSegments] at h
    split_ifs at h with hlen htype
    · exact ih h
    · obtain ⟨L₁, hL₁, hrest⟩ := bind_eq_some_iff.1 h
      have hgrow := (L.le_grow ((Proghdr.read (pieceOf c off.toNat proghdrSize)).vaddr +
        (Proghdr.read (pieceOf c off.toNat proghdrSize)).memsz)
        (Proghdr.read (pieceOf c off.toNat proghdrSize)).pteFlags).1
      rw [← (addSegment_eq_some hL₁).1] at hgrow
      exact hgrow.trans (ih hrest)

/-- A segment has been added, and the rest follows. -/
theorem SegsLoaded.cons {G : Layout} {W : Option Layout} {r : Bool × ℕ} {z : Machine}
    (h : SegsLoaded S M y pt G W r z) (hrest : y = { x with phys := y.phys })
    (hample : ∀ n, Ample x.phys (n + 3 * (pagesOf G.sz - pagesOf L.sz)) → Ample y.phys n)
    (hW : ∀ L', W = some L' → G.sz ≤ L'.sz) (hG : G.sz ≤ trapframeVa) (hle : L.sz ≤ G.sz) :
    SegsLoaded S M x pt L W r z := by
  have hpages := pagesOf_mono hle hG
  have hcount := pagesOf_eq hG
  refine ⟨?_, fun hok ↦ ?_, fun hbad ↦ ?_⟩
  · have hz := h.rest
    rw [hrest] at hz
    exact hz
  · obtain ⟨L', hL', hr, hbuilt, hU, hmore⟩ := h.ok hok
    have hle' := hW L' hL'
    exact ⟨L', hL', hr, hbuilt, hU, fun n hn ↦ hmore n (hample _ (hn.mono (by omega)))⟩
  · obtain ⟨hspace, hshape, hno⟩ := h.bad hbad
    refine ⟨hspace, hshape, fun L' hL' n hn ↦ hno L' hL' n (hample _ (hn.mono ?_))⟩
    have hle' := hW L' hL'
    omega

/-- **The loop over the program headers** adds the segments, and fails only if one cannot be added
or memory runs out. -/
theorem wpe_loadSegments {n : ℕ} {off : BitVec 32} (hfile : Reads E sb x.fs ip c)
    (h : Built S M x.phys pt L) (hU : AllUser L) :
    wpe E (loadSegments sb pt ip n off L.sz)
      (SegsLoaded S M x pt L (addSegments c n off L)) x := by
  induction n generalizing x off L with
  | zero =>
    rw [loadSegments, wpe_pure]
    refine ⟨rfl, fun _ ↦ ⟨L, rfl, rfl, h, hU, fun n hn ↦ hn.mono (Nat.le_add_right _ _)⟩, nofun⟩
  | succ n ih =>
    rw [loadSegments, wpe_bind]
    refine hfile.wpe_readi ?_
    have hnum : (BitVec.ofNat 32 proghdrSize).toNat = proghdrSize := rfl
    rw [hnum, addSegments]
    dsimp only
    generalize pieceOf c off.toNat proghdrSize = bytes
    -- the exits before anything has been changed
    have hexit : SegsLoaded S M x pt L none (false, L.sz) x :=
      ⟨rfl, nofun, fun _ ↦ ⟨h.space, h.shape, nofun⟩⟩
    rw [wpe_ite, wpe_pure]
    refine ⟨fun hlen ↦ ?_, fun hlen ↦ ?_⟩
    · have hlen' : bytes.length ≠ proghdrSize := by exact_mod_cast hlen
      rwa [if_pos hlen']
    have hlen' : ¬bytes.length ≠ proghdrSize := by exact_mod_cast hlen
    rw [if_neg hlen', wpe_ite]
    refine ⟨fun htype ↦ ?_, fun htype ↦ ?_⟩
    · rw [if_pos htype]
      exact ih hfile h hU
    rw [if_neg htype]
    have hvaddr : (Proghdr.read bytes).vaddr < 2 ^ 64 := field_lt bytes 16 8
    have hmemsz : (Proghdr.read bytes).memsz < 2 ^ 64 := field_lt bytes 40 8
    have hoffset : (Proghdr.read bytes).off < 2 ^ 64 := field_lt bytes 8 8
    generalize Proghdr.read bytes = ph at *
    have hbad : ¬ph.Valid → SegsLoaded S M x pt L
        ((addSegment c L ph).bind (addSegments c n (off + BitVec.ofNat 32 proghdrSize)))
        (false, L.sz) x := fun hno ↦ by
      rwa [addSegment, if_neg fun h' ↦ hno h'.1, bind_none]
    rw [wpe_ite, wpe_pure]
    refine ⟨fun hsize ↦ hbad fun hvalid ↦ absurd hvalid.1 (not_le.2 hsize), fun hsize ↦ ?_⟩
    rw [wpe_ite, wpe_pure]
    refine ⟨fun hwrap ↦ hbad fun hvalid ↦ ?_, fun hwrap ↦ ?_⟩
    · rw [u64, Nat.mod_eq_of_lt hvalid.2.1] at hwrap
      omega
    rw [wpe_ite, wpe_pure]
    refine ⟨fun hal ↦ hbad fun hvalid ↦ hal hvalid.2.2, fun hal ↦ ?_⟩
    rw [not_not] at hal
    have hend : ph.vaddr + ph.memsz < 2 ^ 64 := by
      rw [u64] at hwrap
      omega
    have hu64 : u64 (ph.vaddr + ph.memsz) = ph.vaddr + ph.memsz := Nat.mod_eq_of_lt hend
    rw [hu64, wpe_bind]
    refine wpe_vm ((h.uvmalloc (flags2perm_lt ph.flags) hend).mono fun q p hq ↦ ?_)
    have hgrow := L.le_grow (ph.vaddr + ph.memsz) ph.pteFlags
    rcases hq with ⟨hq, hp, hample⟩ | ⟨hq, hspace, hshape, hno⟩
    swap
    · rw [if_pos hq, wpe_pure]
      refine ⟨rfl, nofun, fun _ ↦ ⟨hspace, hshape, fun L' hL' m hm ↦ ?_⟩⟩
      obtain ⟨L₁, hL₁, hrest⟩ := bind_eq_some_iff.1 hL'
      have hle := le_of_addSegments hrest
      rw [(addSegment_eq_some hL₁).1] at hle
      exact hno m (hm.mono (by omega))
    change q = (L.grow (ph.vaddr + ph.memsz) ph.pteFlags).sz at hq
    change Built S M p pt (L.grow (ph.vaddr + ph.memsz) ph.pteFlags) at hp
    have hGU := hU.grow (ph.vaddr + ph.memsz) (hasFlag_segFlags ph)
    have hGsize := hp.shape.size
    have hram := hp.pages_le
    generalize hG : L.grow (ph.vaddr + ph.memsz) ph.pteFlags = G at *
    rw [wpe_ite, wpe_pure]
    refine ⟨fun h0 ↦ ?_, fun h0 ↦ ?_⟩
    · rw [addSegment, hG, if_neg fun h' ↦ h'.2.1 (hq.symm.trans h0), bind_none]
      have hsz : L.sz = G.sz := by omega
      exact ⟨rfl, nofun, fun _ ↦ ⟨hp.space, by rw [hsz]; exact hp.shape, nofun⟩⟩
    have hpages := pagesOf_eq hGsize
    have hbig : ramPages = 32768 := rfl
    have hfilesz : (BitVec.ofNat 32 ph.filesz).toNat = ph.filesz := by
      rw [BitVec.toNat_ofNat]
      omega
    rw [wpe_bind]
    refine (wpe_loadseg (x := { x with phys := p }) hfile hp hal (by rw [hfilesz]; omega)
      fun v _ hlt ↦ ?_).mono fun r y hy ↦ ?_
    · have hv : v < pagesOf G.sz := by
        rw [lt_pagesOf hGsize]
        omega
      exact ⟨hv, hGU v hv⟩
    rw [hfilesz, BitVec.toNat_ofNat] at hy
    have hrest : y = { x with phys := y.phys } := hy.rest
    by_cases hin : Within c (ph.off % 2 ^ 32) ph.filesz
    · obtain ⟨hr, hbuilt⟩ := hy.ok hin
      have hadd : addSegment c L ph =
          some (G.load ph.vaddr ph.filesz (fileByte c (ph.off % 2 ^ 32))) := by
        rw [addSegment, hG]
        exact if_pos ⟨⟨by omega, hend, hal⟩, fun h' ↦ h0 (hq.trans h'), hin⟩
      rw [if_neg (by omega), hadd, bind_some, hq]
      have hnext : wpe E (loadSegments sb pt ip n (off + BitVec.ofNat 32 proghdrSize) G.sz) _ y :=
        ih (L := G.load ph.vaddr ph.filesz (fileByte c (ph.off % 2 ^ 32)))
          (by rw [hrest]; exact hfile) hbuilt hGU
      refine hnext.mono fun r z hz ↦ hz.cons hrest (fun m hm ↦ hy.ample m (hample m (hm.mono ?_)))
        (fun L' hL' ↦ le_of_addSegments hL') hGsize hgrow.1
      show m + _ ≤ m + 3 * (pagesOf G.sz - pagesOf L.sz)
      omega
    · obtain ⟨hr, L', hL', hbuilt⟩ := hy.bad hin
      rw [if_pos (by omega), wpe_pure, addSegment, if_neg fun h' ↦ hin h'.2.2, bind_none, hq,
        ← hL']
      exact ⟨hrest, nofun, fun _ ↦ ⟨hbuilt.space, hbuilt.shape, nofun⟩⟩

end Xv6.Exec

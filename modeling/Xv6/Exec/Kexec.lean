import Xv6.Exec.Stack
import Xv6.Vm.Lazy

/-!
# `kexec` is all or nothing

The whole of `kexec`, from a process and a file system in order. If it returns `-1`, the process is
as before, with its memory, the pages it has taken are free again, and the file is closed. Otherwise
the process has the address space that the file and the arguments describe (`program`, `withStack`,
`withArgs`) in the place of its own. It does not fail unless there is no such file, the file is not
a program, the arguments do not fit, or memory runs out; and it does not panic, but for what the
file system may do.
-/

namespace Xv6.Exec

open Fs Fs.Kernel Option

/-! ### What a file describes -/

/-- The header of a file. -/
def header (c : List Byte) : Elfhdr := Elfhdr.read (pieceOf c 0 elfhdrSize)

/-- The layout of the program in a file, if there is one. -/
def program (c : List Byte) : Option Layout :=
  if (pieceOf c 0 elfhdrSize).length = elfhdrSize ∧ (header c).magic = elfMagic then
    addSegments c (header c).phnum (.ofNat 32 (header c).phoff) .empty
  else none

/-- The size of a process with a program, its guard page and its stack. -/
def sizeWithStack (L : Layout) : ℕ := pgRoundUp L.sz + (userstack + 1) * pgsize

/-- A program with a guard page and a stack. -/
def withStack (L : Layout) : Layout :=
  (Layout.grow { L with sz := pgRoundUp L.sz } (sizeWithStack L)
    (pteR ||| pteU ||| pteW ||| pteV)).clear (pgRoundUp L.sz / pgsize)

/-- An address space for a program and its arguments. -/
def image (L : Layout) (argv : List CString) : Layout :=
  withArgs (withStack L) (sizeWithStack L) argv

/-- The arguments are not too many, and have room on the stack. -/
def Fits (argv : List CString) : Prop :=
  argv.length < maxarg ∧ argsRoom argv ≤ userstack * pgsize

instance (argv : List CString) : Decidable (Fits argv) := inferInstanceAs (Decidable (_ ∧ _))

/-- More pages than are needed to load a program and to give it a stack. -/
def pagesFor (L : Layout) : ℕ := 5 + 3 * ((L.sz + 4095) / 4096) + 3 * (userstack + 1)

/-- The file that a path leads to. -/
def fileOf (sb : Superblock) (f : Kfs) (path : List Byte) : Option (List Byte) :=
  (Kernel.walk (node sb f.disk) (start f path) (components path)).map fun i ↦
    (node sb f.disk i).data

variable [Image]

/-- A process and a file system in order. -/
structure Ready (E : Halt → Prop) (sb : Superblock) (S : Estate) (M : Memory) (x : Machine) :
    Prop where
  walkable : Walkable (fun e ↦ E (.fs e)) sb x.fs
  space : Space S M x.phys x.proc.pagetable []
  shape : WellShaped x.phys.mem x.proc.pagetable x.proc.sz

/-- What a `kexec` that returns `-1` leaves. -/
structure Undone (x y : Machine) : Prop where
  proc : y.proc = x.proc
  free : ∀ pg, y.phys.freelist.count pg = x.phys.freelist.count pg
  mem : ∀ pg, x.phys.freelist.count pg = 0 → y.phys.mem pg = x.phys.mem pg

/-- What a `kexec` of the program in the file `c` leaves if it succeeds. -/
structure Done (S : Estate) (M : Memory) (x y : Machine) (path : List Byte) (argv : List CString)
    (c : List Byte) (L : Layout) : Prop where
  size : L.sz ≤ trapframeVa
  built : Built S M y.phys y.proc.pagetable (image L argv)
  proc : y.proc =
    { x.proc with
      pagetable := y.proc.pagetable
      sz := sizeWithStack L
      epc := (header c).entry
      sp := sizeWithStack L - argsRoom argv
      a1 := sizeWithStack L - argsRoom argv
      name := programName path }

/-- What `kexec` returns and leaves. -/
structure Outcome (sb : Superblock) (S : Estate) (M : Memory) (x : Machine) (path : List Byte)
    (argv : List CString) (r : ℤ) (y : Machine) : Prop where
  ops : y.ops = x.ops
  idle : Idle sb x.fs y.fs
  result : r = -1 ∧ Undone x y ∧
      (∀ c L, fileOf sb x.fs path = some c → program c = some L → Fits argv →
        ¬Ample x.phys (pagesFor L)) ∨
    r = argv.length ∧ Fits argv ∧ ∃ c L, fileOf sb x.fs path = some c ∧ program c = some L ∧
      Done S M x y path argv c L

variable {E : Halt → Prop} {sb : Superblock} {S : Estate} {M : Memory} {x y : Machine} {pt sz : ℕ}
  {ip : Kernel.Slot} {i : ℕ} {path : List Byte} {argv : List CString} {c : List Byte} {L : Layout}

theorem Undone.of_pool {p : Phys} (h : Space S M x.phys x.proc.pagetable [])
    (hp : Pool h.freeEstate x.phys.mem p []) (hproc : y.proc = x.proc) (hphys : y.phys = p) :
    Undone x y := by
  refine ⟨hproc, fun pg ↦ ?_, fun pg hpg ↦ ?_⟩
  · rw [hphys]
    exact hp.stock pg
  · rw [hphys]
    exact hp.frame pg hpg

/-! ### The exits -/

theorem wpe_kexecBad_none (hspace : Space S M y.phys pt []) (hshape : WellShaped y.phys.mem pt sz)
    (hpt : pt ≠ 0) {Q : ℤ → Machine → Prop}
    (hQ : ∀ p, Pool S M p [] → Q (-1) { y with phys := p }) :
    wpe E (kexecBad sb pt sz none) Q y := by
  rw [kexecBad, if_pos hpt, wpe_bind]
  exact wpe_vm ((hspace.procFreepagetable hshape).mono fun _ p hp ↦ hQ p hp)

/-- Since `x` the file `i` has been opened in `ip`, within a call of `begin_op`. -/
structure Opened (E : Halt → Prop) (sb : Superblock) (x y : Machine) (ip : Kernel.Slot) (i : ℕ) :
    Prop where
  walkable : Walkable (fun e ↦ E (.fs e)) sb x.fs
  sturdy : Sturdy (fun e ↦ E (.fs e)) sb x.fs i
  holds : Holds sb x.fs y.fs {ip} ip i
  loaded : Loaded sb y.fs ip i
  ops : y.ops = x.ops + 1

omit [Image] in
/-- The memory is not a part of it. -/
theorem Opened.congr {z : Machine} (h : Opened E sb x y ip i) (hfs : z.fs = y.fs)
    (hops : z.ops = y.ops) : Opened E sb x z ip i :=
  ⟨h.walkable, h.sturdy, hfs ▸ h.holds, hfs ▸ h.loaded, hops.trans h.ops⟩

omit [Image] in
/-- The file is closed. -/
theorem Opened.wpe_close {α : Type} {m : ExecM α} {Q : α → Machine → Prop}
    (h : Opened E sb x y ip i)
    (hm : ∀ f, Idle sb x.fs f → wpe E m Q { y with fs := f, ops := x.ops }) :
    wpe E (do fs (iunlockput sb ip); endOp; m) Q y := by
  rw [wpe_bind, wpe_fs]
  refine h.holds.wpe_iunlockput h.walkable.table h.sturdy fun f hf ↦ ?_
  rw [wpe_bind, endOp, wpe_modify]
  dsimp only
  rw [h.ops, Nat.add_sub_cancel]
  exact hm f hf

theorem Opened.wpe_kexecBad_zero (h : Opened E sb x y ip i) {Q : ℤ → Machine → Prop}
    (hQ : ∀ f, Idle sb x.fs f → Q (-1) { y with fs := f, ops := x.ops }) :
    wpe E (kexecBad sb 0 0 (some ip)) Q y := by
  rw [kexecBad, if_neg (by decide)]
  exact h.wpe_close fun f hf ↦ hQ f hf

theorem Opened.wpe_kexecBad (h : Opened E sb x y ip i) (hspace : Space S M y.phys pt [])
    (hshape : WellShaped y.phys.mem pt sz) (hpt : pt ≠ 0) {Q : ℤ → Machine → Prop}
    (hQ : ∀ p f, Pool S M p [] → Idle sb x.fs f →
      Q (-1) { y with phys := p, fs := f, ops := x.ops }) :
    wpe E (Exec.kexecBad sb pt sz (some ip)) Q y := by
  rw [Exec.kexecBad, if_pos hpt, wpe_bind]
  refine wpe_vm ((hspace.procFreepagetable hshape).mono fun _ p hp ↦ ?_)
  have hopen : Opened E sb x { y with phys := p } ip i := h.congr rfl rfl
  exact hopen.wpe_close fun f hf ↦ hQ p f hp hf

/-! ### The stack -/

section

variable (L)

omit [Image]

theorem stackSize_eq : userstack * pgsize = 4096 := rfl

theorem guardedSize_eq : (userstack + 1) * pgsize = 8192 := rfl

theorem sizeWithStack_eq : sizeWithStack L = (pagesOf L.sz + 2) * 4096 := by
  rw [sizeWithStack, pgRoundUp_eq_pagesOf, ← Nat.add_mul]

/-- What is above the program: the guard page and the stack. -/
theorem withStack_eq (hsz : sizeWithStack L ≤ trapframeVa) :
    (withStack L).sz = sizeWithStack L ∧ pagesOf (sizeWithStack L) = pagesOf L.sz + 2 ∧
      (∀ v < pagesOf L.sz, (withStack L).flags v = L.flags v) ∧
      (withStack L).flags (pagesOf L.sz) = pteR ||| pteW ||| pteV ∧
      (withStack L).flags (pagesOf L.sz + 1) = pteR ||| pteU ||| pteW ||| pteV ∧
      ∀ a < pagesOf L.sz * pgsize, (withStack L).byte a = L.byte a := by
  have hle : (pagesOf L.sz + 2) * 4096 ≤ 274877898752 := by
    rw [← sizeWithStack_eq]
    exact hsz
  have hround : pgRoundUp L.sz = pagesOf L.sz * 4096 := pgRoundUp_eq_pagesOf L.sz
  have hpages : pagesOf (pgRoundUp L.sz) = pagesOf L.sz := by
    have hfit : pgRoundUp L.sz ≤ trapframeVa := (Nat.le_add_right _ _).trans hsz
    rw [pagesOf_eq hfit, hround]
    omega
  have hdiv : pgRoundUp L.sz / pgsize = pagesOf L.sz := by
    rw [hround, pgsize_eq]
    omega
  have hgrow : Layout.grow { L with sz := pgRoundUp L.sz } (sizeWithStack L)
      (pteR ||| pteU ||| pteW ||| pteV) =
      { sz := sizeWithStack L
        flags := fun v ↦ if v < pagesOf L.sz then L.flags v else pteR ||| pteU ||| pteW ||| pteV
        byte := fun a ↦ if a < pagesOf L.sz * pgsize then L.byte a else 0 } := by
    have hless : ¬sizeWithStack L < pgRoundUp L.sz := by
      rw [sizeWithStack]
      omega
    rw [Layout.grow, if_neg hless, hpages]
  rw [withStack, hgrow, hdiv]
  refine ⟨rfl, ?_, fun v hv ↦ ?_, ?_, ?_, fun a ha ↦ if_pos ha⟩
  · rw [pagesOf_eq hsz, sizeWithStack_eq]
    omega
  · rw [Layout.flags_clear_of_ne _ hv.ne]
    exact if_pos hv
  · rw [Layout.flags_clear_self]
    dsimp only
    rw [if_neg (lt_irrefl _)]
    decide
  · rw [Layout.flags_clear_of_ne _ (Nat.succ_ne_self _)]
    exact if_neg (by omega)

end

omit [Image] in
/-- The pages of the stack. -/
theorem stackPages_withStack (hsz : sizeWithStack L ≤ trapframeVa) :
    StackPages (withStack L) (sizeWithStack L - userstack * pgsize) := by
  obtain ⟨hsize, hpages, -, -, hflags, -⟩ := withStack_eq L hsz
  have hbase : (sizeWithStack L - userstack * pgsize) / pgsize = pagesOf L.sz + 1 := by
    rw [sizeWithStack_eq]
    rw [stackSize_eq, pgsize_eq]
    omega
  intro v hv hlt
  rw [hbase] at hv
  rw [hsize, hpages] at hlt
  obtain rfl : v = pagesOf L.sz + 1 := by omega
  rw [hflags]
  decide

/-- The process changes to its new address space. -/
theorem wpe_commit (h : Space S M x.phys x.proc.pagetable [])
    (hshape : WellShaped x.phys.mem x.proc.pagetable x.proc.sz)
    (hy : Built h.freeEstate x.phys.mem y.phys pt (image L argv)) (hproc : y.proc = x.proc)
    (hsz : L.sz ≤ trapframeVa) :
    wpe E (commit pt (sizeWithStack L) (sizeWithStack L - argsRoom argv) (header c).entry path
      argv.length) (fun r z ↦ z.ops = y.ops ∧ z.fs = y.fs ∧ r = argv.length ∧
        Done S M x z path argv c L) y := by
  have hold := h.old_space hy.space
  have hshape' : WellShaped y.phys.mem x.proc.pagetable x.proc.sz :=
    hshape.of_translation fun v _ ↦ translation_congr ((h.keeps hy.space.frame).1.leaf_eq v)
  rw [commit, wpe_bind, wpe_get, wpe_bind, wpe_get, wpe_bind, wpe_set, wpe_bind]
  dsimp only
  rw [hproc]
  refine wpe_vm ((hold.procFreepagetable hshape').mono fun _ p hp ↦ ?_)
  rw [wpe_pure]
  exact ⟨rfl, rfl, rfl, hsz, Built.replace h hy hp, rfl⟩

/-- **The stack and the arguments**, and the change to the new address space. -/
theorem wpe_kexecStack (h : Space S M x.phys x.proc.pagetable [])
    (hshape : WellShaped x.phys.mem x.proc.pagetable x.proc.sz)
    (hy : Built h.freeEstate x.phys.mem y.phys pt L) (hproc : y.proc = x.proc) (hpt : pt ≠ 0)
    (hargs : ∀ a ∈ argv, a.strlen < 2 ^ 31) (hlen : E .ustack ∨ argv.length ≠ maxarg) :
    wpe E (kexecStack sb pt L.sz (header c).entry path argv) (fun r z ↦ z.ops = y.ops ∧
      z.fs = y.fs ∧ (r = -1 ∧ Undone x z ∧ (Fits argv → ¬Ample y.phys (3 * (userstack + 1))) ∨
        r = argv.length ∧ Fits argv ∧ Done S M x z path argv c L)) y := by
  have hround := hy.round
  have hram : pagesOf L.sz ≤ 32768 := hy.pages_le
  have hsize : sizeWithStack L = (pagesOf L.sz + 2) * 4096 := sizeWithStack_eq L
  have hup : pgRoundUp L.sz = pagesOf L.sz * 4096 := pgRoundUp_eq_pagesOf L.sz
  have hfit : sizeWithStack L ≤ trapframeVa := by
    rw [hsize]
    show _ ≤ 274877898752
    omega
  have hwsz := (withStack_eq L hfit).1
  have hpages : pagesOf (pgRoundUp L.sz) = pagesOf L.sz := by
    rw [pagesOf_eq hround.shape.size]
    dsimp only
    rw [hup]
    omega
  have hu64 : u64 (pgRoundUp L.sz + (userstack + 1) * pgsize) = sizeWithStack L := by
    rw [← sizeWithStack, u64, hsize]
    omega
  have hguard : sub64 (sizeWithStack L) ((userstack + 1) * pgsize) =
      pgRoundUp L.sz / pgsize * pgsize := by
    rw [hsize, hup, guardedSize_eq, sub64, u64, pgsize_eq]
    omega
  have hbase : sub64 (sizeWithStack L) (userstack * pgsize) =
      sizeWithStack L - userstack * pgsize := by
    rw [hsize, stackSize_eq, sub64, u64]
    omega
  have hroom : sizeWithStack L - (sizeWithStack L - userstack * pgsize) = userstack * pgsize := by
    rw [hsize, stackSize_eq]
    omega
  rw [kexecStack]
  dsimp only
  rw [hu64, wpe_bind]
  refine wpe_vm ((hround.uvmalloc (by decide) (by rw [hsize]; omega)).mono
    fun q p hq ↦ ?_)
  rcases hq with ⟨hq, hp, -⟩ | ⟨hq, hspace, hshape', hno⟩
  swap
  · rw [if_pos hq]
    refine wpe_kexecBad_none hspace hshape' hpt fun p' hp' ↦
      ⟨rfl, rfl, .inl ⟨rfl, .of_pool h hp' hproc rfl, fun _ hn ↦ hno 0 (hn.mono ?_)⟩⟩
    dsimp only
    rw [hpages, hsize]
    have hstack : userstack = 1 := rfl
    omega
  have hq' : q = sizeWithStack L := hq.trans hwsz
  rw [hq', if_neg (by rw [hsize]; omega), wpe_bind, hguard, hbase]
  refine wpe_vm ((hp.uvmclear ?_).mono fun _ p' hcleared ↦ ?_)
  · change _ < pagesOf (withStack L).sz
    rw [hwsz, (withStack_eq L hfit).2.1, hup, pgsize_eq]
    omega
  have hp' : Built h.freeEstate x.phys.mem p' pt (withStack L) := hcleared.1
  rw [wpe_bind]
  have hmod : sizeWithStack L % 16 = 0 := by
    rw [hsize]
    omega
  have hlow : 4096 ≤ sizeWithStack L - userstack * pgsize := by
    rw [hsize, stackSize_eq]
    omega
  have hpush := wpe_pushArgs (E := E) (x := { y with phys := p' }) hp' (stackPages_withStack hfit)
    hmod (Nat.sub_le _ _) hlow hwsz.ge hargs hlen
  rw [hroom] at hpush
  refine hpush.mono fun r z hz ↦ ?_
  have hrest : z = { y with phys := z.phys } := hz.rest
  by_cases hargs' : Fits argv
  · obtain ⟨hr, hbuilt⟩ := hz.ok hargs'
    have hzproc : z.proc = x.proc := by rw [hrest]; exact hproc
    rw [hr]
    refine (wpe_commit h hshape hbuilt hzproc hy.shape.size).mono fun r w hcommit ↦ ?_
    obtain ⟨hops, hfs, hr, hdone⟩ := hcommit
    refine ⟨hops.trans ?_, hfs.trans ?_, .inr ⟨hr, hargs', hdone⟩⟩
    · rw [hrest]
    · rw [hrest]
  · obtain ⟨hr, L', hL', hbuilt⟩ := hz.bad hargs'
    rw [hr]
    refine wpe_kexecBad_none hbuilt.space ?_ hpt fun p'' hp'' ↦ ?_
    · rw [← hwsz, ← hL']
      exact hbuilt.shape
    · rw [hrest]
      exact ⟨rfl, rfl, .inl ⟨rfl, .of_pool h hp'' hproc rfl, fun hyes ↦ absurd hyes hargs'⟩⟩

/-! ### The whole -/

omit [Image] in
theorem ample_pagesFor {p : Phys} (h : Ample p (pagesFor L)) :
    Ample p (3 * (userstack + 1) + 3 * ((L.sz + 4095) / 4096 - pagesOf Layout.empty.sz) + 5) :=
  h.mono (by
    rw [pagesFor]
    omega)

/-- It does not work. -/
theorem Outcome.of_undone (hops : y.ops = x.ops) (hidle : Idle sb x.fs y.fs) (hundone : Undone x y)
    (hc : fileOf sb x.fs path = some c)
    (hwhy : ∀ L, program c = some L → Fits argv → ¬Ample x.phys (pagesFor L)) :
    Outcome sb S M x path argv (-1) y := by
  refine ⟨hops, hidle, .inl ⟨rfl, hundone, fun c' L hc' hL ↦ ?_⟩⟩
  obtain rfl : c = c' := Option.some.inj (hc.symm.trans hc')
  exact hwhy L hL

/-- **`kexec` from where the file is locked.** -/
theorem wpe_kexecFile (h : Ready E sb S M x) (hopen : Opened E sb x y ip i)
    (hphys : y.phys = x.phys) (hproc : y.proc = x.proc)
    (hc : fileOf sb x.fs path = some (node sb x.fs.disk i).data)
    (hargs : ∀ a ∈ argv, a.strlen < 2 ^ 31) (hlen : E .ustack ∨ argv.length ≠ maxarg) :
    wpe E (kexecFile sb ip path argv) (Outcome sb S M x path argv) y := by
  have hreads : Reads E sb y.fs ip (node sb x.fs.disk i).data := by
    rw [← hopen.holds.disk]
    exact reads_of_loaded hopen.loaded
  generalize (node sb x.fs.disk i).data = c at hc hreads
  have hpool : Pool h.space.freeEstate x.phys.mem y.phys [] := by
    rw [hphys]
    exact h.space.pool
  rw [kexecFile, wpe_bind]
  refine hreads.wpe_readi ?_
  have hnum : (BitVec.ofNat 32 elfhdrSize).toNat = elfhdrSize := rfl
  have hzero : (0 : BitVec 32).toNat = 0 := rfl
  rw [hnum, hzero]
  dsimp only
  rw [← header]
  by_cases helf : (pieceOf c 0 elfhdrSize).length = elfhdrSize ∧ (header c).magic = elfMagic
  swap
  · have hexit : wpe E (kexecBad sb 0 0 (some ip)) (Outcome sb S M x path argv) y :=
      hopen.wpe_kexecBad_zero fun f hf ↦ .of_undone rfl hf (.of_pool h.space hpool hproc rfl) hc
        fun L hL ↦ by
          rw [program, if_neg helf] at hL
          exact nomatch hL
    rw [wpe_ite, wpe_ite]
    exact ⟨fun _ ↦ hexit, fun hr ↦ ⟨fun _ ↦ hexit, fun hmagic ↦
      absurd ⟨Nat.cast_inj.1 (not_not.1 hr), not_not.1 hmagic⟩ helf⟩⟩
  have hprogram : program c =
      addSegments c (header c).phnum (.ofNat 32 (header c).phoff) .empty := if_pos helf
  rw [if_neg (not_not.2 (congrArg Nat.cast helf.1)), if_neg (not_not.2 helf.2), wpe_bind, wpe_get,
    wpe_bind]
  refine wpe_vm (hpool.procPagetable.mono fun pt p ⟨hp, hample⟩ ↦ ?_)
  rw [hphys] at hample
  have hopen' : Opened E sb x { y with phys := p } ip i := hopen.congr rfl rfl
  rcases hp with ⟨hpt, hp⟩ | ⟨hpt, hp, hshape⟩
  · rw [if_pos hpt]
    exact hopen'.wpe_kexecBad_zero fun f hf ↦ .of_undone rfl hf (.of_pool h.space hp hproc rfl) hc
      fun L _ _ hn ↦ (hample _ (ample_pagesFor hn)).1 hpt
  rw [if_neg hpt.pos.ne', wpe_bind]
  have hbuilt : Built h.space.freeEstate x.phys.mem p pt .empty := ⟨hp, hshape, nofun⟩
  refine (wpe_loadSegments (x := { y with phys := p }) hreads hbuilt nofun).mono
    fun ⟨ok, sz⟩ z hz ↦ ?_
  have hrest : z = { y with phys := z.phys } := hz.rest
  rw [← hprogram] at hz
  have hopen'' : Opened E sb x z ip i := hopen.congr (by rw [hrest]) (by rw [hrest])
  have hproc' : z.proc = x.proc := by rw [hrest]; exact hproc
  cases ok with
  | false =>
    obtain ⟨hspace, hshape, hno⟩ := hz.bad rfl
    refine hopen''.wpe_kexecBad hspace hshape hpt.pos.ne' fun p f hp hf ↦
      .of_undone rfl hf (.of_pool h.space hp hproc' rfl) hc fun L hL _ hn ↦ hno L hL _
        (hample _ (ample_pagesFor hn)).2
  | true =>
    obtain ⟨L, hL, hsz, hbuilt, -, hmore⟩ := hz.ok rfl
    obtain rfl : sz = L.sz := hsz
    refine hopen''.wpe_close fun f hf ↦ ?_
    refine (wpe_kexecStack (y := { z with fs := f, ops := x.ops }) h.space h.shape hbuilt hproc'
      hpt.pos.ne' hargs hlen).mono fun r w ⟨hops, hfs, hr⟩ ↦ ?_
    rcases hr with ⟨rfl, hundone, hno⟩ | ⟨rfl, hfits, hdone⟩
    · refine .of_undone hops (hfs ▸ hf) hundone hc fun L' hL' hfits hn ↦ hno hfits ?_
      obtain rfl : L = L' := Option.some.inj (hL.symm.trans hL')
      exact hmore _ (hample _ (ample_pagesFor hn)).2
    · exact ⟨hops, hfs ▸ hf, .inr ⟨rfl, hfits, c, L, hc, hL, hdone⟩⟩

/-- **All or nothing.** -/
theorem wpe_kexec (h : Ready E sb S M x) (hargs : ∀ a ∈ argv, a.strlen < 2 ^ 31)
    (hlen : E .ustack ∨ argv.length ≠ maxarg) :
    wpe E (kexec sb path argv) (Outcome sb S M x path argv) x := by
  rw [kexec, wpe_bind, beginOp, wpe_modify, wpe_bind, wpe_fs]
  refine h.walkable.namei (fun hnone f hf ↦ ?_) fun i ip f hi hsturdy hholds ↦ ?_
  · dsimp only
    rw [wpe_bind, endOp, wpe_modify, wpe_pure]
    dsimp only
    rw [Nat.add_sub_cancel]
    refine ⟨rfl, hf, .inl ⟨rfl, .of_pool h.space h.space.pool rfl rfl, fun c L hc ↦ ?_⟩⟩
    rw [fileOf, hnone] at hc
    exact nomatch hc
  · dsimp only
    rw [wpe_bind, wpe_fs]
    refine hholds.wpe_ilock h.walkable.sound hsturdy fun g hg hload ↦ ?_
    refine wpe_kexecFile (i := i) h ⟨h.walkable, hsturdy, hg, hload, rfl⟩ rfl rfl ?_ hargs hlen
    rw [fileOf, hi]
    rfl

/-- The stops that are panics of the file system, of those in `F`. -/
def fsPanic (F : Panic → Prop) : Halt → Prop
  | .fs e => F e
  | _ => False

/-- **`kexec` is all or nothing.** From any process with a well-shaped address space, any file and
any allocations that fail, it does not stop but for a panic of the file system that the state of the
file system does not exclude. If it returns `-1`, the process, its memory and every other page in
use are as before, the same pages are free, no reference and no lock is kept, and every `begin_op`
is ended. -/
theorem kexec_allOrNothing {F : Panic → Prop} (hfs : Walkable F sb x.fs)
    (hspace : Space S M x.phys x.proc.pagetable [])
    (hshape : WellShaped x.phys.mem x.proc.pagetable x.proc.sz) (path : List Byte)
    (hlen : argv.length ≤ maxarg - 1) (hargs : ∀ a ∈ argv, a.strlen ≤ pgsize - 1) :
    wpe (fsPanic F) (kexec sb path argv) (fun r y ↦ r = -1 →
      y.proc = x.proc ∧ mapped y.phys.mem x.proc.pagetable = mapped x.phys.mem x.proc.pagetable ∧
      (∀ pg, x.phys.freelist.count pg = 0 → y.phys.mem pg = x.phys.mem pg) ∧
      (∀ pg, y.phys.freelist.count pg = x.phys.freelist.count pg) ∧
      (∀ i, refs y.fs i = refs x.fs i) ∧ (∀ e, (y.fs.inode e).locked = false) ∧
      y.fs.disk = x.fs.disk ∧ y.ops = x.ops) x := by
  have hready : Ready (fsPanic F) sb S M x := ⟨hfs, hspace, hshape⟩
  refine (wpe_kexec hready (fun a ha ↦ (hargs a ha).trans_lt (by decide))
    (.inr (hlen.trans_lt (by decide)).ne)).mono fun r y hy hr ↦ ?_
  rcases hy.result with ⟨-, hundone, -⟩ | ⟨hr', -⟩
  · refine ⟨hundone.proc, (hspace.keeps hundone.mem).2, hundone.mem, hundone.free, fun i ↦ ?_,
      fun e ↦ hy.idle.table.unlocked (Finset.notMem_empty e), hy.idle.disk, hy.ops⟩
    have hrefs := hy.idle.refs.refs i
    rw [Pi.zero_apply, add_zero] at hrefs
    exact_mod_cast hrefs
  · omega

section

-- a run of the small machine is not to be evaluated where only its type is looked at
attribute [local irreducible] wpe

omit [Image] in
/-- `kexec("/a", {})` where `/a` is not a program. -/
theorem kexec_allOrNothing_small : ∃ s pt,
    wpe (fsPanic fun _ ↦ False) (@kexec smallImage smallSb [slash, 0x61] [])
      (fun r y ↦ r = -1 ∧ y.proc = ⟨pt, 4096, 0x8000C000, 0, 0, 0, []⟩ ∧
        mapped y.phys.mem pt = mapped s.mem pt ∧ y.ops = 0)
      ⟨s, small fun _ ↦ none, 0, ⟨pt, 4096, 0x8000C000, 0, 0, 0, []⟩⟩ := by
  let _ : Image := smallImage
  obtain ⟨s, pt, hspace, hshape, -⟩ := exists_lazy_process
  let x : Machine := ⟨s, small fun _ ↦ none, 0, ⟨pt, 4096, 0x8000C000, 0, 0, 0, []⟩⟩
  have hready : Ready (fsPanic fun _ ↦ False) smallSb tenFreeEstate tenFree.mem x :=
    ⟨walkable_small, hspace, hshape⟩
  have hfile : fileOf smallSb (small fun _ ↦ none) [slash, 0x61] = some (List.replicate 16 0) := by
    decide +kernel
  have hargs : ∀ a ∈ ([] : List CString), a.strlen ≤ pgsize - 1 := nofun
  refine ⟨s, pt, ((wpe_kexec hready (fun a ha ↦ (hargs a ha).trans_lt (by decide))
    (.inr (by decide))).and (kexec_allOrNothing (x := x)
    (F := fun _ ↦ False) walkable_small hspace hshape _ (by decide) hargs)).mono fun r y
      ⟨hy, hall⟩ ↦ ?_⟩
  rcases hy.result with ⟨hr, -⟩ | ⟨-, -, c, L, hc, hL, -⟩
  · obtain ⟨hproc, hmapped, -, -, -, -, -, hops⟩ := hall hr
    exact ⟨hr, hproc, hmapped, hops⟩
  · obtain rfl : List.replicate 16 0 = c := Option.some.inj (hfile.symm.trans hc)
    rw [program, if_neg (by decide)] at hL
    exact nomatch hL

end

/-! ### A program -/

section

variable {F : Panic → Prop} {f g : Kfs}

omit [Image]

/-- Paths can be followed as before when a file is written that is not a directory. -/
theorem walkable_of_writes {off : ℕ} {data : List Byte} (h : Walkable F sb f)
    (hw : Writes sb f g ip i off data) (hip : 0 < (f.inode ip).ref)
    (hfile : (node sb f.disk i).type ≠ tDir) : Walkable F sb g := by
  have hnode : ∀ j < sb.ninodes, (node sb g.disk j).type = (node sb f.disk j).type ∧
      (node sb g.disk j).nlink = (node sb f.disk j).nlink := fun j hj ↦ by
    by_cases hji : j = i
    · rw [hji, node, node]
      dsimp only
      rw [Dinode.type_eq_attrs, Dinode.nlink_eq_attrs, hw.attrs, ← Dinode.type_eq_attrs,
        ← Dinode.nlink_eq_attrs]
      exact ⟨rfl, rfl⟩
    · rw [hw.node j hj hji]
      exact ⟨rfl, rfl⟩
  have hslot : ∀ e, (g.inode e).ref = (f.inode e).ref ∧ (g.inode e).inum = (f.inode e).inum :=
    fun e ↦ by
      by_cases he : e = ip
      · rw [he, hw.slot]
        exact ⟨rfl, rfl⟩
      · rw [hw.others e he]
        exact ⟨rfl, rfl⟩
  have hsturdy : ∀ {j}, Sturdy F sb f j → Sturdy F sb g j := fun {j} hj ↦ by
    obtain ⟨htype, hnlink⟩ := hnode j hj.lt
    refine ⟨hj.lt, ?_, ?_⟩
    · rw [htype]
      exact hj.type
    · rw [htype, hnlink, hw.refs.refs, Pi.zero_apply, add_zero]
      exact hj.link
  have hdir : ∀ j < sb.ninodes, (node sb g.disk j).type = tDir →
      (node sb f.disk j).type = tDir ∧ node sb g.disk j = node sb f.disk j := fun j hj hd ↦ by
    rw [(hnode j hj).1] at hd
    exact ⟨hd, hw.node j hj fun hji ↦ hfile (hji ▸ hd)⟩
  refine ⟨hw.loaded.sound, hw.toEdits.table h.table hip, fun j hj hd ↦ ?_, ?_, ?_, hsturdy h.root,
    ?_, ?_⟩
  · obtain ⟨hd', hsame⟩ := hdir j hj hd
    rw [hsame]
    exact fun off hoff hne ↦ hsturdy (h.entry j hj hd' off hoff hne)
  · refine h.read.imp_right fun hread j hj hd ↦ ?_
    obtain ⟨hd', hsame⟩ := hdir j hj hd
    rw [hsame]
    exact hread j hj hd'
  · refine h.room.imp_right fun hroom ↦ ?_
    rw [freeSlots, Finset.filter_congr fun e _ ↦ by rw [(hslot e).1]]
    exact hroom
  · rw [hw.aside.cwd, (hslot _).1]
    exact h.cwd.1
  · rw [hw.aside.cwd, (hslot _).2]
    exact hsturdy h.cwd.2

/-- A file can be given any contents for which there is room, if they are not shorter. -/
theorem exists_written (h : Loaded sb f ip i) {n : BitVec 32} (hn : n.toNat = c.length)
    (hle : (dinode sb f.disk i).size.toNat ≤ c.length)
    (hfits : Kernel.Fits (dinode sb f.disk i).size 0 n)
    (hroom : lacking f.disk (dinode sb f.disk i) (span 0 n.toNat) ≤ freeBlocks sb f.disk) :
    ∃ g, Writes sb f g ip i 0 c ∧ (node sb g.disk i).data = c := by
  have hwrite : wpe (fun _ ↦ False) (Kernel.writei sb ip (.kernel fun k ↦ c.getD k 0) 0 n) _ f :=
    h.writei
  obtain ⟨r, g, -, -, hr⟩ := wp_iff_wpe.2 hwrite
  obtain ⟨data, -, hw⟩ := (hr hfits).2.2 fun ⟨_, _, hnone, _⟩ ↦ by cases hnone
  have hm := (hw.all fun _ _ ↦ rfl).2 hroom
  rw [hn] at hm
  obtain rfl : data = c := List.ext_getElem? fun k ↦ by
    rcases Nat.lt_or_ge k data.length with hlt | hge
    · rw [hw.byte k hlt, Src.byte, List.getD_eq_getElem?_getD,
        List.getElem?_eq_getElem (hm ▸ hlt), getD_some]
    · rw [List.getElem?_eq_none hge, List.getElem?_eq_none (hm ▸ hge)]
  refine ⟨g, hw.toWrites, hw.bytes.trans ?_⟩
  show splice _ 0 data = data
  rw [splice, Nat.zero_add, List.take_zero, List.nil_append, List.drop_eq_nil_of_le,
    List.append_nil]
  exact (length_data sb f.disk i).trans_le hle

end

/-- A program of one instruction, with a header of 64 bytes, a program header of 56 bytes and a
segment of 4 bytes, for which there are 8 in memory. -/
def tinyProgram : List Byte :=
  [0x7F, 0x45, 0x4C, 0x46] ++ List.replicate 28 0 ++ [64, 0, 0, 0, 0, 0, 0, 0] ++
    List.replicate 16 0 ++ [1, 0] ++ List.replicate 6 0 ++
  [1, 0, 0, 0, 5, 0, 0, 0, 120, 0, 0, 0, 0, 0, 0, 0] ++ List.replicate 16 0 ++
    [4, 0, 0, 0, 0, 0, 0, 0, 8, 0, 0, 0, 0, 0, 0, 0] ++ List.replicate 8 0 ++
  [0x73, 0, 0, 0]

omit [Image] in
theorem program_tinyProgram : ∃ L, program tinyProgram = some L ∧ L.sz = 8 := by
  have hsz : (program tinyProgram).map Layout.sz = some 8 := by decide +kernel
  exact map_eq_some_iff.1 hsz

omit [Image] in
/-- A file system where `/a` is the program. -/
theorem exists_tinyProgram : ∃ f, Walkable (fun _ ↦ False) smallSb f ∧
    fileOf smallSb f [slash, 0x61] = some tinyProgram := by
  have hlen : tinyProgram.length = 124 := by decide +kernel
  have hroom : lacking smallDisk smallFile (span 0 124) ≤ freeBlocks smallSb smallDisk := by
    decide +kernel
  have hload := loaded_small fun _ ↦ none
  obtain ⟨g, hg, hdata⟩ := exists_written hload (n := 124) (c := tinyProgram) hlen.symm
    (by rw [small_disk, dinode_small_two, hlen]; decide +kernel)
    (by rw [small_disk, dinode_small_two]; exact ⟨by decide +kernel, by decide⟩)
    (by rw [small_disk, dinode_small_two]; exact hroom)
  refine ⟨g, walkable_of_writes walkable_small hg (by decide) (by decide +kernel), ?_⟩
  have hroot : node smallSb g.disk 1 = node smallSb smallDisk 1 := hg.node 1 (by decide) (by decide)
  have hwalk : Kernel.walk (node smallSb g.disk) 1 [[0x61]] = some 2 := by
    have hold : Kernel.walk (node smallSb smallDisk) 1 [[0x61]] = some 2 := by decide +kernel
    rw [Kernel.walk, child] at hold ⊢
    rwa [hroot]
  rw [fileOf, show components [slash, 0x61] = [[0x61]] by decide,
    show start g [slash, 0x61] = 1 from rfl, hwalk, map_some, hdata]

omit [Image]

/-- A machine with twenty free pages. -/
def twentyFree : Phys :=
  { tenFree with freelist := (List.range 20).map fun k ↦ 0x80002000 + pgsize * k }

/-- The free pages of a machine with twenty. -/
def twentyEstate : @Estate smallImage :=
  @Estate.mk smallImage (fun pg ↦ twentyFree.freelist.count pg)
    (List.nodup_iff_count_le_one.1 (by decide))
    fun pg h ↦ by
      let _ : Image := smallImage
      have hall : ∀ pg ∈ twentyFree.freelist, IsPage pg := by decide
      exact hall pg (List.count_pos_iff.1 (Nat.pos_of_ne_zero h))

/-- A machine that can run the program. -/
theorem exists_ready_tinyProgram : ∃ x,
    @Ready smallImage (fsPanic fun _ ↦ False) smallSb twentyEstate twentyFree.mem x ∧
    fileOf smallSb x.fs [slash, 0x61] = some tinyProgram ∧
    ∃ L, program tinyProgram = some L ∧ Ample x.phys (pagesFor L) := by
  let _ : Image := smallImage
  obtain ⟨f, hwalkable, hfile⟩ := exists_tinyProgram
  obtain ⟨L, hL, hsz⟩ := program_tinyProgram
  have hpool : Pool twentyEstate twentyFree.mem twentyFree [] :=
    ⟨fun pg ↦ by rw [List.count_nil]; rfl, fun _ _ ↦ rfl⟩
  have hrun : wp (procPagetable 0x80018000) _ twentyFree := hpool.procPagetable
  obtain ⟨pt, s, -, hr, hample⟩ := hrun
  obtain ⟨hne, hample⟩ := hample 15 ⟨rfl, by decide⟩
  rcases hr with ⟨h0, -⟩ | ⟨-, hs, hshape⟩
  · exact absurd h0 hne
  refine ⟨⟨s, f, 0, ⟨pt, 0, 0x80018000, 0, 0, 0, []⟩⟩, ⟨hwalkable, hs, hshape⟩, hfile, L, hL,
    hample.mono ?_⟩
  rw [pagesFor, hsz]
  decide

end Xv6.Exec

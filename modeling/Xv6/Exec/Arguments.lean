import Xv6.Exec.Kexec

/-!
# What a program finds on its stack

The array of pointers at the stack pointer, the strings above it, and the guard page below the stack
(`ArgStack`). It is read off the layout that `kexec` has made, where the strings are below each
other in the order of `argv` and the array is below them all.
-/

namespace Xv6.Exec

open Fs Fs.Kernel Option

/-! ### The strings in a layout -/

/-- The strings, with their addresses below `sp`. -/
def placed (sp : ℕ) (argv : List CString) : List (ℕ × CString) := (stringAddrs sp argv).zip argv

variable {L : Layout} {sp : ℕ} {argv : List CString}

theorem placed_cons (sp : ℕ) (a : CString) (argv : List CString) :
    placed sp (a :: argv) =
      (sp - room (a.strlen + 1), a) :: placed (sp - room (a.strlen + 1)) argv := rfl

/-- Every string is at a multiple of 16, within what is made room for. -/
theorem placed_inside (hsp : sp % 16 = 0) (hroom : stringsRoom argv ≤ sp) :
    ∀ p ∈ placed sp argv, p.1 % 16 = 0 ∧ sp - stringsRoom argv ≤ p.1 ∧
      p.1 + (p.2.strlen + 1) ≤ sp := by
  induction argv generalizing sp with
  | nil => exact nofun
  | cons a argv ih =>
    obtain ⟨hle, hmod⟩ := le_room (a.strlen + 1)
    rw [stringsRoom_cons] at hroom ⊢
    rw [placed_cons, List.forall_mem_cons]
    refine ⟨?_, fun p hp ↦ ?_⟩
    · dsimp only
      omega
    · obtain ⟨hal, hlow, hhigh⟩ := ih (by omega) (by omega) p hp
      omega

/-- Every string is below those before it. -/
theorem placed_pairwise (hsp : sp % 16 = 0) (hroom : stringsRoom argv ≤ sp) :
    (placed sp argv).Pairwise fun p q ↦ q.1 + (q.2.strlen + 1) ≤ p.1 := by
  induction argv generalizing sp with
  | nil => exact .nil
  | cons a argv ih =>
    obtain ⟨hle, hmod⟩ := le_room (a.strlen + 1)
    rw [stringsRoom_cons] at hroom
    rw [placed_cons, List.pairwise_cons]
    exact ⟨fun p hp ↦ (placed_inside (by omega) (by omega) p hp).2.2, ih (by omega) (by omega)⟩

/-- The strings are between the bounds, and nothing else is changed. -/
theorem byte_withStrings_of_not {b : ℕ} (hroom : stringsRoom argv ≤ sp)
    (hb : b < sp - stringsRoom argv ∨ sp ≤ b) : (withStrings L sp argv).byte b = L.byte b := by
  induction argv generalizing L sp with
  | nil => rfl
  | cons a argv ih =>
    have hle := (le_room (a.strlen + 1)).1
    rw [stringsRoom_cons] at hroom hb
    rw [withStrings, ih (by omega) (by omega)]
    exact if_neg (by omega)

/-- The bytes of the strings. -/
theorem byte_withStrings (hsp : sp % 16 = 0) (hroom : stringsRoom argv ≤ sp) :
    ∀ p ∈ placed sp argv, ∀ k ≤ p.2.strlen,
      (withStrings L sp argv).byte (p.1 + k) = p.2.byte k := by
  induction argv generalizing L sp with
  | nil => exact nofun
  | cons a argv ih =>
    obtain ⟨hle, hmod⟩ := le_room (a.strlen + 1)
    rw [stringsRoom_cons] at hroom
    rw [placed_cons, List.forall_mem_cons]
    refine ⟨fun k hk ↦ ?_, ih (by omega) (by omega)⟩
    dsimp only at hk ⊢
    rw [withStrings, byte_withStrings_of_not (by omega) (.inr (by omega)), Layout.load]
    dsimp only
    rw [if_pos (by omega), Nat.add_sub_cancel_left]

/-! ### The stack -/

/-- The addresses and lengths of the array of pointers at `sp` and of the strings at `addrs`. -/
def stackPieces (sp : ℕ) (argv : List CString) (addrs : List ℕ) : List (ℕ × ℕ) :=
  (sp, 8 * (argv.length + 1)) :: (addrs.zip argv).map fun p ↦ (p.1, p.2.strlen + 1)

/-- User memory has `argv` on the stack of a process of the size `sz`, with the array of pointers at
`sp` and the strings at the addresses `addrs`. -/
structure ArgStack (U : View) (sz sp : ℕ) (argv : List CString) (addrs : List ℕ) : Prop where
  length : addrs.length = argv.length
  aligned : sp % 16 = 0
  /-- All is between `stackbase` and `sz`. -/
  inside : ∀ p ∈ stackPieces sp argv addrs, sz - userstack * pgsize ≤ p.1 ∧ p.1 + p.2 ≤ sz
  apart : (stackPieces sp argv addrs).Pairwise fun p q ↦ p.1 + p.2 ≤ q.1 ∨ q.1 + q.2 ≤ p.1
  /-- The array: eight bytes for every address, and for a zero at the end. -/
  pointer : ∀ i ≤ argv.length, ∀ k < 8,
    U.byte (sp + 8 * i + k) = some (.ofNat 8 ((addrs ++ [0]).getD i 0 / 256 ^ k))
  /-- The strings, with a zero at the end. -/
  string : ∀ p ∈ addrs.zip argv, p.1 % 16 = 0 ∧
    (∀ k < p.2.1.length, U.byte (p.1 + k) = p.2.1[k]?) ∧ U.byte (p.1 + p.2.1.length) = some 0
  guard : ∃ f b, U ((sz - userstack * pgsize) / pgsize - 1) = some (f, b) ∧ hasFlag f pteU = false

variable [Image] {S : Estate} {M : Memory} {s : Phys} {pt : ℕ}

/-- There is room for the stack. -/
theorem sizeWithStack_le (h : Built S M s pt (image L argv)) :
    sizeWithStack L ≤ trapframeVa := by
  refine le_trans ?_ h.shape.size
  rw [image, withArgs, Layout.load, (withStrings_eq _ _ _).1]
  exact (Layout.le_grow _ _ _).2.1

/-- What the user finds on the stack. -/
theorem byte_stack (h : Built S M s pt (image L argv)) {a : ℕ}
    (hlow : sizeWithStack L - userstack * pgsize ≤ a) (hhigh : a < sizeWithStack L) :
    (mapped s.mem pt).byte a = some ((image L argv).byte a) := by
  obtain ⟨hsz, hflags⟩ := withStrings_eq (withStack L) (sizeWithStack L) argv
  obtain ⟨hsize, hpages, -⟩ := withStack_eq L (sizeWithStack_le h)
  have hsz' : (image L argv).sz = sizeWithStack L := hsz.trans hsize
  have hflags' : (image L argv).flags = (withStack L).flags := hflags
  have hT := sizeWithStack_eq L
  have hpage : a / pgsize < pagesOf (sizeWithStack L) := by
    rw [hpages, pgsize_eq]
    omega
  refine h.byte_eq ?_ ?_
  · rw [hsz', hpages, pgsize_eq]
    omega
  · rw [hflags']
    refine (stackPages_withStack (sizeWithStack_le h) _ (Nat.div_le_div_right hlow) ?_).1
    rwa [hsize]

/-- **An address space with arguments** shows them to the program. -/
theorem argStack_of_built (h : Built S M s pt (image L argv)) (hfits : Fits argv) :
    ArgStack (mapped s.mem pt) (sizeWithStack L) (sizeWithStack L - argsRoom argv) argv
      (stringAddrs (sizeWithStack L) argv) := by
  obtain ⟨hsize, hpages, -, hguard, -⟩ := withStack_eq L (sizeWithStack_le h)
  have hT := sizeWithStack_eq L
  have hmod : sizeWithStack L % 16 = 0 := by omega
  have hstack := stackSize_eq
  have hroom : argsRoom argv = stringsRoom argv + room ((argv.length + 1) * 8) := rfl
  have hle : argsRoom argv ≤ 4096 := hfits.2
  have hstrings := stringsRoom_mod argv
  obtain ⟨harray, hmod'⟩ := le_room ((argv.length + 1) * 8)
  have hplaced := placed_inside hmod (show stringsRoom argv ≤ _ by omega)
  refine ⟨length_stringAddrs _ _, by omega, ?_, ?_, fun i hi k hk ↦ ?_, fun p hp ↦ ?_, ?_⟩
  · rw [stackPieces, List.forall_mem_cons, List.forall_mem_map]
    refine ⟨?_, fun p hp ↦ ?_⟩
    · dsimp only
      omega
    · obtain ⟨-, hlow, hhigh⟩ := hplaced p hp
      dsimp only
      omega
  · rw [stackPieces, List.pairwise_cons, List.pairwise_map, List.forall_mem_map]
    refine ⟨fun p hp ↦ .inl ?_, (placed_pairwise hmod (by omega)).imp .inr⟩
    obtain ⟨-, hlow, -⟩ := hplaced p hp
    dsimp only
    omega
  · rw [byte_stack h (by omega) (by omega), image, withArgs, Layout.load]
    dsimp only
    rw [if_pos (by omega), wordByte]
    congr 4 <;> omega
  · obtain ⟨hal, hlow, hhigh⟩ := hplaced p hp
    have hbyte : ∀ k ≤ p.2.strlen, (mapped s.mem pt).byte (p.1 + k) = some (p.2.byte k) := by
      intro k hk
      rw [byte_stack h (by omega) (by omega), image, withArgs, Layout.load]
      dsimp only
      rw [if_neg (by omega), byte_withStrings hmod (by omega) p hp k hk]
    refine ⟨hal, fun k hk ↦ ?_, ?_⟩
    · rw [hbyte k hk.le, CString.byte, List.getD_eq_getElem?_getD, List.getElem?_eq_getElem hk,
        getD_some]
    · show (mapped s.mem pt).byte (p.1 + p.2.strlen) = _
      rw [hbyte _ le_rfl, CString.byte, CString.strlen, List.getD_eq_getElem?_getD,
        List.getElem?_eq_none le_rfl, getD_none]
  · have hv : (sizeWithStack L - userstack * pgsize) / pgsize - 1 = pagesOf L.sz := by
      rw [hstack, pgsize_eq]
      omega
    obtain ⟨hsz, hflags⟩ := withStrings_eq (withStack L) (sizeWithStack L) argv
    obtain ⟨b, hb, -⟩ := h.page (pagesOf L.sz) (by
      rw [show (image L argv).sz = sizeWithStack L from hsz.trans hsize, hpages]
      omega)
    rw [show (image L argv).flags = (withStack L).flags from hflags, hguard] at hb
    exact ⟨_, b, hv ▸ hb, by decide⟩

omit [Image] in
/-- What has no room is more than the stack, also if the array is not rounded up. -/
theorem not_fits_iff (hlen : argv.length < maxarg) : ¬Fits argv ↔
    userstack * pgsize < stringsRoom argv + 8 * (argv.length + 1) := by
  have hmod := stringsRoom_mod argv
  rw [Fits, and_iff_right hlen, argsRoom, room, stackSize_eq]
  omega

/-- **`kexec` builds the argument stack.** If it does not return `-1` it returns the number of
arguments, and the program finds them from its stack pointer on, which is also in `a1`. From a file
that can be loaded, with enough memory, it returns `-1` only if the strings, each rounded up, and
the array do not fit on the stack. -/
theorem kexec_arguments {F : Panic → Prop} {sb : Superblock} {x : Machine}
    (hfs : Walkable F sb x.fs) (hspace : Space S M x.phys x.proc.pagetable [])
    (hshape : WellShaped x.phys.mem x.proc.pagetable x.proc.sz) (path : List Byte)
    (hlen : argv.length ≤ maxarg - 1) (hargs : ∀ a ∈ argv, a.strlen ≤ pgsize - 1) :
    wpe (fsPanic F) (kexec sb path argv) (fun r y ↦
      (r ≠ -1 → r = argv.length ∧ y.proc.a1 = y.proc.sp ∧
        ∃ addrs, ArgStack (mapped y.phys.mem y.proc.pagetable) y.proc.sz y.proc.sp argv addrs) ∧
      ∀ c L, fileOf sb x.fs path = some c → program c = some L → Ample x.phys (pagesFor L) →
        r = -1 → userstack * pgsize < stringsRoom argv + 8 * (argv.length + 1)) x := by
  have hready : Ready (fsPanic F) sb S M x := ⟨hfs, hspace, hshape⟩
  have hlen' : argv.length < maxarg := hlen.trans_lt (by decide)
  refine (wpe_kexec hready (fun a ha ↦ (hargs a ha).trans_lt (by decide))
    (.inr hlen'.ne)).mono fun r y hy ↦ ?_
  rcases hy.result with ⟨hr, -, hno⟩ | ⟨hr, hfits, c, L, -, -, hdone⟩
  · refine ⟨fun hr' ↦ absurd hr hr', fun c L hc hL hn _ ↦ ?_⟩
    rw [← not_fits_iff hlen']
    exact fun hfits ↦ hno c L hc hL hfits hn
  · refine ⟨fun _ ↦ ⟨hr, ?_, stringAddrs (sizeWithStack L) argv, ?_⟩, fun _ _ _ _ _ hr' ↦ by omega⟩
    · rw [hdone.proc]
    · have hstack := argStack_of_built hdone.built hfits
      rw [hdone.proc]
      exact hstack

section

-- a run of the small machine is not to be evaluated where only its type is looked at
attribute [local irreducible] wpe

omit [Image] in
/-- `kexec("/a", {"a"})` where `/a` is a program. -/
theorem kexec_arguments_tiny : ∃ x,
    wpe (fsPanic fun _ ↦ False) (@kexec smallImage smallSb [slash, 0x61] [⟨[0x61], by decide⟩])
      (fun r y ↦ r = 1 ∧ ∃ addrs, ArgStack (mapped y.phys.mem y.proc.pagetable) y.proc.sz y.proc.sp
        [⟨[0x61], by decide⟩] addrs) x := by
  let _ : Image := smallImage
  obtain ⟨x, hready, hfile, L, hL, hample⟩ := exists_ready_tinyProgram
  have hargs : ∀ a ∈ ([⟨[0x61], by decide⟩] : List CString), a.strlen ≤ pgsize - 1 := by
    intro a ha
    rw [List.mem_singleton.1 ha]
    decide
  refine ⟨x, (kexec_arguments (F := fun _ ↦ False) hready.walkable hready.space hready.shape
    [slash, 0x61] (by decide) hargs).mono fun r y ⟨hok, hno⟩ ↦ ?_⟩
  obtain ⟨hr, -, hstack⟩ := hok fun hr ↦ absurd (hno _ L hfile hL hample hr) (by decide)
  exact ⟨hr, hstack⟩

end

end Xv6.Exec

import Xv6.Fs.Kernel.Calls
import Xv6.Fs.Kernel.Table
import Xv6.Library.Words

/-!
# Paths

What `namei` and `nameiparent` are for: a path is a list of names (`components`), and the names are
followed from directory to directory (`walk`, `walkParent`). `namex` does so, gives back each
reference it takes but the last, and unlocks what it has locked.
-/

namespace Xv6.Fs.Kernel

open List Option

variable {E : Panic → Prop} {sb : Superblock} {s t u : Kfs} {ip dp e : Slot} {i j off : ℕ}
  {name : List Byte}

/-! ### The elements of a path -/

/-- The maximal runs of bytes that are not slashes, each cut to its first 14 bytes. -/
def components (path : List Byte) : List (List Byte) :=
  (words (· = slash) path).map (·.take dirsiz)

theorem components_eq_nil_of_skipelem {path : List Byte} (h : skipelem path = none) :
    components path = [] := by
  rw [skipelem] at h
  split_ifs at h with hs
  rw [components, ← words_dropWhile, hs, words_nil, map_nil]

/-- `skipelem` takes the first element. -/
theorem components_of_skipelem {path rest : List Byte} (h : skipelem path = some (name, rest)) :
    components path = name :: components rest := by
  rw [skipelem] at h
  split_ifs at h with hs
  rw [some_inj, Prod.mk.injEq] at h
  have hnot : (fun c : Byte ↦ decide (c ≠ slash)) = fun c ↦ !decide (c = slash) :=
    funext fun c ↦ decide_not
  rw [← h.1, ← h.2, components, components, words_dropWhile, ← words_dropWhile _ path, hnot,
    words_takeWhile, map_cons]
  cases hc : path.dropWhile (· = slash) with
  | nil => exact absurd hc hs
  | cons c s =>
    have hhead := List.head?_dropWhile_not (fun c : Byte ↦ decide (c = slash)) path
    rw [hc] at hhead
    rw [takeWhile_cons_of_pos (by simpa using hhead)]
    exact cons_ne_nil _ _

/-- What `skipelem` leaves has no slash at its beginning. -/
theorem components_rest_eq_nil {path rest : List Byte} (h : skipelem path = some (name, rest)) :
    components rest = [] ↔ rest = [] := by
  refine ⟨fun hnil ↦ ?_, fun hnil ↦ by rw [hnil, components, words_nil, map_nil]⟩
  cases hrest : rest with
  | nil => rfl
  | cons c rest' =>
    rw [skipelem] at h
    split_ifs at h with hs
    rw [some_inj, Prod.mk.injEq] at h
    have hhead := List.head?_dropWhile_not (fun c : Byte ↦ decide (c = slash))
      ((path.dropWhile (· = slash)).dropWhile (· ≠ slash))
    rw [h.2, hrest] at hhead
    rw [components, map_eq_nil_iff, hrest, words_takeWhile] at hnil
    · exact absurd hnil (cons_ne_nil _ _)
    · rw [takeWhile_cons_of_pos (by simpa using hhead)]
      exact cons_ne_nil _ _

/-! ### Directories -/

/-- The entry at an offset of a directory. -/
def direntAt (c : List Byte) (off : ℕ) : List Byte := (c.drop off).take direntSize

/-- The entry at an offset is in use and has the name. -/
def isEntry (c name : List Byte) (off : ℕ) : Bool :=
  direntInum (direntAt c off) ≠ 0 ∧ namecmp name (direntName (direntAt c off)) = true

/-- The offset of the first entry with a name. -/
def findEntry (c name : List Byte) : Option ℕ := (direntOffsets c.length).find? (isEntry c name)

theorem mem_direntOffsets {size : ℕ} : off ∈ direntOffsets size ↔
    off % direntSize = 0 ∧ off < size := by
  rw [direntOffsets, List.mem_map]
  constructor
  · rintro ⟨k, hk, rfl⟩
    rw [mem_range] at hk
    simp only [direntSize, dirsiz] at hk ⊢
    omega
  · rintro ⟨hmod, hlt⟩
    refine ⟨off / direntSize, mem_range.2 ?_, ?_⟩
    · simp only [direntSize, dirsiz] at hmod ⊢
      omega
    · simp only [direntSize, dirsiz] at hmod ⊢
      omega

/-- Reading an entry. -/
theorem Loaded.wpe_readDirent (h : Loaded sb s dp i) {Q : ℤ × List Byte → Kfs → Prop}
    (hoff : off < (dinode sb s.disk i).size.toNat)
    (hQ : off + direntSize ≤ (dinode sb s.disk i).size.toNat →
      Q ((direntSize : ℤ), direntAt (contents s.disk (dinode sb s.disk i)) off) s)
    (hshort : (dinode sb s.disk i).size.toNat < off + direntSize →
      ∀ r : ℤ × List Byte, r.1 ≠ direntSize → Q r s) :
    wpe E (readi sb dp .kernel (.ofNat 32 off) (.ofNat 32 direntSize)) Q s := by
  have hsize := h.sound.size_le i h.lt
  have hmax : maxFile * bsize = 274432 := rfl
  have hlen : (contents s.disk (dinode sb s.disk i)).length = (dinode sb s.disk i).size.toNat :=
    length_slice _ _ _
  have hpiece : pieceOf (contents s.disk (dinode sb s.disk i)) (BitVec.ofNat 32 off).toNat
      (BitVec.ofNat 32 direntSize).toNat = direntAt (contents s.disk (dinode sb s.disk i)) off := by
    rw [toNat_ofNat_of_lt (by omega), toNat_ofNat_of_lt (by decide), pieceOf,
      if_pos (by simp only [direntSize, dirsiz]; omega), direntAt]
  have hread : wpe E (readi sb dp .kernel (.ofNat 32 off) (.ofNat 32 direntSize)) _ s :=
    h.inSlot.readi_kernel
  rw [h.din, hpiece] at hread
  refine hread.mono fun r t hdone ↦ ?_
  obtain ⟨ht, hr⟩ := hdone
  subst ht
  have hlen' : (direntAt (contents t.disk (dinode sb t.disk i)) off).length =
      min direntSize ((dinode sb t.disk i).size.toNat - off) := by
    rw [direntAt, length_take, length_drop, hlen]
  rw [hr]
  rcases lt_or_ge (dinode sb t.disk i).size.toNat (off + direntSize) with hlt | hge
  · refine hshort hlt _ ?_
    rw [hlen']
    omega
  · rw [hlen', min_eq_left (by omega)]
    exact hQ hge

/-- The loop of `dirlookup`. -/
theorem Loaded.dirlookupFrom (h : Loaded sb s dp i) {Q : Option (Slot × ℕ) → Kfs → Prop}
    {offs : List ℕ} (hoffs : ∀ off ∈ offs, off < (dinode sb s.disk i).size.toNat)
    (hread : E .dirlookupRead ∨ ∀ off ∈ offs, off + direntSize ≤ (dinode sb s.disk i).size.toNat)
    (hnone : offs.find? (isEntry (contents s.disk (dinode sb s.disk i)) name) = none → Q none s)
    (hsome : ∀ off, offs.find? (isEntry (contents s.disk (dinode sb s.disk i)) name) = some off →
      wpe E (iget (direntInum (direntAt (contents s.disk (dinode sb s.disk i)) off)))
        (fun e t ↦ Q (some (e, off)) t) s) :
    wpe E (Kernel.dirlookupFrom sb dp name offs) Q s := by
  induction offs with
  | nil => exact hnone rfl
  | cons off offs ih =>
    rw [Kernel.dirlookupFrom, wpe_bind]
    refine h.wpe_readDirent (hoffs off mem_cons_self) (fun hin ↦ ?_) fun hlt r hr ↦ ?_
    swap
    · dsimp only
      rw [wpe_ite, wpe_throw]
      refine ⟨fun _ ↦ ?_, fun hr' ↦ absurd hr hr'⟩
      rcases hread with hE | hall
      · exact hE
      · have hge := hall off mem_cons_self
        omega
    dsimp only
    have hrest := ih (fun off' hoff' ↦ hoffs off' (mem_cons_of_mem _ hoff'))
      (hread.imp_right fun hall off' hoff' ↦ hall off' (mem_cons_of_mem _ hoff'))
    rw [wpe_ite]
    refine ⟨fun hne ↦ absurd rfl hne, fun _ ↦ ?_⟩
    rw [wpe_ite]
    refine ⟨fun h0 ↦ ?_, fun h0 ↦ ?_⟩
    · have hno : ¬isEntry (contents s.disk (dinode sb s.disk i)) name off = true := by
        simp [isEntry, h0]
      rw [List.find?_cons_of_neg hno] at hnone hsome
      exact hrest hnone hsome
    rw [wpe_ite]
    refine ⟨fun hcmp ↦ ?_, fun hcmp ↦ ?_⟩
    · have hyes : isEntry (contents s.disk (dinode sb s.disk i)) name off = true := by
        simp [isEntry, h0, hcmp]
      rw [wpe_bind]
      exact hsome off (List.find?_cons_of_pos hyes)
    · have hno : ¬isEntry (contents s.disk (dinode sb s.disk i)) name off = true := by
        simp [isEntry, hcmp]
      rw [List.find?_cons_of_neg hno] at hnone hsome
      exact hrest hnone hsome

/-- **`dirlookup`** finds the first entry with a name, and takes a reference to its inode. -/
theorem Loaded.dirlookup (h : Loaded sb s dp i) {Q : Option (Slot × ℕ) → Kfs → Prop}
    (hdir : (dinode sb s.disk i).type = tDir)
    (hread : E .dirlookupRead ∨ (dinode sb s.disk i).size.toNat % direntSize = 0)
    (hnone : findEntry (contents s.disk (dinode sb s.disk i)) name = none → Q none s)
    (hsome : ∀ off, findEntry (contents s.disk (dinode sb s.disk i)) name = some off →
      wpe E (iget (direntInum (direntAt (contents s.disk (dinode sb s.disk i)) off)))
        (fun e t ↦ Q (some (e, off)) t) s) :
    wpe E (Kernel.dirlookup sb dp name) Q s := by
  have hlen : (contents s.disk (dinode sb s.disk i)).length = (dinode sb s.disk i).size.toNat :=
    length_slice _ _ _
  rw [findEntry, hlen] at hnone hsome
  rw [Kernel.dirlookup, wpe_bind, wpe_inode, h.din, wpe_ite]
  refine ⟨fun hne ↦ absurd hdir hne, fun _ ↦
    h.dirlookupFrom (fun off hoff ↦ (mem_direntOffsets.1 hoff).2) ?_ hnone hsome⟩
  refine hread.imp_right fun hmod off hoff ↦ ?_
  obtain ⟨h₁, h₂⟩ := mem_direntOffsets.1 hoff
  simp only [direntSize, dirsiz] at hmod h₁ ⊢
  omega

/-! ### Following names -/

variable {fs : ℕ → Node} {names : List (List Byte)}

/-- The inode that a directory has for a name. -/
def child (fs : ℕ → Node) (i : ℕ) (name : List Byte) : Option ℕ :=
  if (fs i).type = tDir then
    (findEntry (fs i).data name).map fun off ↦ direntInum (direntAt (fs i).data off)
  else none

/-- Follow names from a directory on. -/
def walk (fs : ℕ → Node) : ℕ → List (List Byte) → Option ℕ
  | i, [] => some i
  | i, name :: names => (child fs i name).bind fun j ↦ walk fs j names

/-- Follow all names but the last, to a directory. -/
def walkParent (fs : ℕ → Node) (i : ℕ) (names : List (List Byte)) : Option (ℕ × List Byte) :=
  names.getLast?.bind fun name ↦ (walk fs i names.dropLast).bind fun j ↦
    if (fs j).type = tDir then some (j, name) else none

theorem walkParent_nil (fs : ℕ → Node) (i : ℕ) : walkParent fs i [] = none := rfl

theorem walkParent_singleton (fs : ℕ → Node) (i : ℕ) (name : List Byte) :
    walkParent fs i [name] = if (fs i).type = tDir then some (i, name) else none := rfl

theorem walkParent_cons (h : names ≠ []) :
    walkParent fs i (name :: names) = (child fs i name).bind fun j ↦ walkParent fs j names := by
  cases names with
  | nil => exact absurd rfl h
  | cons name' names =>
    rw [walkParent, List.getLast?_cons_cons, dropLast_cons_cons, walk]
    cases hc : child fs i name with
    | none =>
      rw [bind_none, bind_none]
      cases (name' :: names).getLast? <;> rfl
    | some j => rfl

theorem child_eq_some (h : child fs i name = some j) : (fs i).type = tDir ∧
    ∃ off ∈ direntOffsets (fs i).data.length,
      direntInum (direntAt (fs i).data off) = j ∧ j ≠ 0 := by
  rw [child] at h
  split_ifs at h with hdir
  obtain ⟨off, hoff, hj⟩ := map_eq_some_iff.1 h
  rw [findEntry] at hoff
  have hentry := List.find?_some hoff
  refine ⟨hdir, off, mem_of_find?_eq_some hoff, hj, ?_⟩
  rw [← hj]
  rw [isEntry, decide_eq_true_eq] at hentry
  exact hentry.1

/-- What `dirlookup` returns and leaves: nothing, or a new reference. -/
def Looked (sb : Superblock) (s t : Kfs) (L : Finset Slot) (i : ℕ) (name : List Byte)
    (r : Option (Slot × ℕ)) : Prop :=
  r = none ∧ t = s ∧ child (node sb s.disk) i name = none ∨
    ∃ e off j, r = some (e, off) ∧ findEntry (node sb s.disk i).data name = some off ∧
      child (node sb s.disk) i name = some j ∧ Table sb t L ∧ Refs s t (Pi.single j 1) ∧
      t.disk = s.disk ∧ 0 < (t.inode e).ref ∧ (t.inode e).inum = j

theorem Table.dirlookup {L : Finset Slot} (ht : Table sb s L) (h : Loaded sb s dp i)
    (hdir : (node sb s.disk i).type = tDir)
    (hread : E .dirlookupRead ∨ (node sb s.disk i).data.length % direntSize = 0)
    (hentry : ∀ j, child (node sb s.disk) i name = some j → j < sb.ninodes)
    (hroom : E .igetNoInodes ∨ ∃ e, (s.inode e).ref = 0) :
    wpe E (Kernel.dirlookup sb dp name) (fun r t ↦ Looked sb s t L i name r) s := by
  have hlen : (node sb s.disk i).data.length = (dinode sb s.disk i).size.toNat := length_slice _ _ _
  rw [hlen] at hread
  refine h.dirlookup hdir hread (fun hnone ↦ .inl ⟨rfl, rfl, ?_⟩) fun off hoff ↦ ?_
  · rw [child, if_pos hdir, show (node sb s.disk i).data =
      contents s.disk (dinode sb s.disk i) from rfl,
      hnone, map_none]
  · have hchild : child (node sb s.disk) i name =
        some (direntInum (direntAt (contents s.disk (dinode sb s.disk i)) off)) := by
      rw [child, if_pos hdir,
        show (node sb s.disk i).data = contents s.disk (dinode sb s.disk i) from rfl, hoff,
        map_some]
    refine (ht.iget (hentry _ hchild) hroom).mono fun e t ⟨h₁, h₂, h₃, h₄, h₅⟩ ↦ ?_
    exact .inr ⟨e, off, _, rfl, hoff, hchild, h₁, h₂, h₃, h₄, h₅⟩

/-! ### `namex` -/

/-- The number of entries of the table that are not in use. -/
def freeSlots (s : Kfs) : ℕ := (Finset.univ.filter fun e ↦ (s.inode e).ref = 0).card

/-- An inode that can be locked, and that is not freed when a new reference to it is given back. -/
structure Sturdy (E : Panic → Prop) (sb : Superblock) (s : Kfs) (i : ℕ) : Prop where
  lt : i < sb.ninodes
  type : E .ilockNoType ∨ (node sb s.disk i).type ≠ 0
  link : (node sb s.disk i).type ≠ 0 → (node sb s.disk i).nlink ≠ 0 ∨ 0 < refs s i

/-- A file system in which paths can be followed, up to the stops in `E`. -/
structure Walkable (E : Panic → Prop) (sb : Superblock) (s : Kfs) : Prop where
  sound : Sound sb s.disk (dinode sb s.disk) ∅
  table : Table sb s ∅
  entry : ∀ i < sb.ninodes, (node sb s.disk i).type = tDir →
    ∀ off ∈ direntOffsets (node sb s.disk i).data.length,
      direntInum (direntAt (node sb s.disk i).data off) ≠ 0 →
        Sturdy E sb s (direntInum (direntAt (node sb s.disk i).data off))
  read : E .dirlookupRead ∨ ∀ i < sb.ninodes, (node sb s.disk i).type = tDir →
    (node sb s.disk i).data.length % direntSize = 0
  room : E .igetNoInodes ∨ 2 ≤ freeSlots s
  root : Sturdy E sb s rootIno
  cwd : 0 < (s.inode s.cwd).ref ∧ Sturdy E sb s (s.inode s.cwd).inum

/-- Since `s` one reference was taken, to inode `i` in the entry `ip`, and the entries in `L` are
locked. -/
structure Holds (sb : Superblock) (s t : Kfs) (L : Finset Slot) (ip : Slot) (i : ℕ) : Prop where
  table : Table sb t L
  refs : Refs s t (Pi.single i 1)
  disk : t.disk = s.disk
  pos : 0 < (t.inode ip).ref
  inum : (t.inode ip).inum = i

/-- Since `s` no reference was taken for good. -/
structure Idle (sb : Superblock) (s t : Kfs) : Prop where
  table : Table sb t ∅
  refs : Refs s t 0
  disk : t.disk = s.disk

namespace Holds

variable {L L' : Finset Slot}

theorem one_le (h : Holds sb s t L ip i) : 1 ≤ (Pi.single i 1 : ℕ → ℤ) (t.inode ip).inum := by
  rw [h.inum, Pi.single_eq_same]

theorem wpe_iput {Q : Unit → Kfs → Prop} (h : Holds sb s t ∅ ip i) (hs : Table sb s L')
    (hi : Sturdy E sb s i) (hQ : ∀ u, Idle sb s u → Q () u) : wpe E (iput sb ip) Q t := by
  have hdrop := h.refs.drop hs h.table h.pos h.one_le
  rw [h.inum, sub_self] at hdrop
  refine h.refs.wpe_iput h.table h.pos h.one_le ?_ (hQ _ ⟨h.table.drop h.pos, hdrop, h.disk⟩)
  rw [h.inum, h.disk]
  exact hi.link

theorem wpe_iunlockput {Q : Unit → Kfs → Prop} (h : Holds sb s t {ip} ip i) (hs : Table sb s L')
    (hi : Sturdy E sb s i) (hQ : ∀ u, Idle sb s u → Q () u) : wpe E (iunlockput sb ip) Q t := by
  have hput := h.refs.put hs h.table h.pos h.one_le
  have htable := h.table.put h.pos
  rw [h.inum, sub_self] at hput
  rw [Finset.erase_singleton] at htable
  refine h.refs.wpe_iunlockput h.table (Finset.mem_singleton_self ip) h.pos h.one_le ?_
    (hQ _ ⟨htable, hput, h.disk⟩)
  rw [h.inum, h.disk]
  exact hi.link

theorem wpe_ilock {Q : Unit → Kfs → Prop} (h : Holds sb s t ∅ ip i)
    (hsound : Sound sb s.disk (dinode sb s.disk) ∅) (hi : Sturdy E sb s i)
    (hQ : ∀ u, Holds sb s u {ip} ip i → Loaded sb u ip i → Q () u) : wpe E (ilock sb ip) Q t := by
  refine Kernel.wpe_ilock h.pos ?_ ?_ fun hlock ↦ ?_
  · exact h.table.unlocked (Finset.notMem_empty ip)
  · rw [h.table.current_eq h.pos, h.disk, h.inum]
    exact hi.type.imp_right .inr
  have hslot : (t.lock sb ip).inode ip =
      { t.inode ip with locked := true, valid := true, din := current sb t ip } :=
    setInode_inode_self _
  have hrefs := h.refs.trans (.lock sb t ip)
  rw [add_zero] at hrefs
  have hheld : Holds sb s (t.lock sb ip) {ip} ip i :=
    ⟨h.table.lock h.pos (h.table.type_ne h.pos hlock), hrefs, h.disk, by rw [hslot]; exact h.pos,
      by rw [hslot]; exact h.inum⟩
  have hload := hheld.table.loaded (e := ip) (by rw [hheld.disk]; exact hsound) hheld.pos
    (by rw [hslot])
  rw [hheld.inum] at hload
  exact hQ _ hheld hload

theorem wpe_iunlock {Q : Unit → Kfs → Prop} (h : Holds sb s t {ip} ip i)
    (hQ : ∀ u, Holds sb s u ∅ ip i → Q () u) : wpe E (iunlock ip) Q t := by
  have htable := h.table.unlock h.pos
  have hrefs := h.refs.trans (.unlock t ip)
  have hslot : (t.unlock ip).inode ip = { t.inode ip with locked := false } :=
    setInode_inode_self _
  rw [Finset.erase_singleton] at htable
  rw [add_zero] at hrefs
  refine Kernel.wpe_iunlock ((h.table.locked ip).2 (Finset.mem_singleton_self ip)) h.pos
    (hQ _ ⟨htable, hrefs, h.disk, ?_, ?_⟩)
  · rw [hslot]
    exact h.pos
  · rw [hslot]
    exact h.inum

/-- From a directory to an inode that was looked up in it. -/
theorem wpe_iunlockput_of_next {Q : Unit → Kfs → Prop} (h : Holds sb s t {ip} ip i)
    (hs : Table sb s L') (hi : Sturdy E sb s i) (hu : Table sb u {ip})
    (hr : Refs t u (Pi.single j 1)) (hdisk : u.disk = t.disk) (he : 0 < (u.inode e).ref)
    (hj : (u.inode e).inum = j) (hQ : ∀ v, Holds sb s v ∅ e j → Q () v) :
    wpe E (iunlockput sb ip) Q u := by
  obtain ⟨hpos, hinum, -⟩ := hr.kept ip h.pos
  rw [h.inum] at hinum
  have hrefs := h.refs.trans hr
  have hone : 1 ≤ (Pi.single i 1 + Pi.single j 1 : ℕ → ℤ) (u.inode ip).inum := by
    rw [hinum, Pi.add_apply, Pi.single_eq_same, Pi.single_apply]
    split_ifs <;> decide
  have htable := hu.put hpos
  have hput := hrefs.put hs hu hpos hone
  rw [Finset.erase_singleton] at htable
  rw [hinum, add_sub_cancel_left] at hput
  obtain ⟨hpos', hinum'⟩ := hrefs.put_pos hs hu (e := ip) he fun hee ↦ by
    rw [hee, hinum] at hj
    rw [hinum, Pi.add_apply, hj, Pi.single_eq_same]
    decide
  refine hrefs.wpe_iunlockput hu (Finset.mem_singleton_self ip) hpos hone ?_
    (hQ _ ⟨htable, hput, hdisk.trans h.disk, hpos', hinum'.trans hj⟩)
  rw [hinum, hdisk, h.disk]
  exact hi.link

end Holds

/-- What `namex` returns, and leaves, where `w` is the inode it should find and the last name. -/
structure Found (sb : Superblock) (s t : Kfs) (r : Option (Slot × List Byte))
    (w : Option (ℕ × List Byte)) : Prop where
  missing : w = none → r = none ∧ Idle sb s t
  found : ∀ j name, w = some (j, name) → ∃ e, r = some (e, name) ∧ Holds sb s t ∅ e j

theorem Found.of_none {w : Option (ℕ × List Byte)} (hw : w = none) (h : Idle sb s t) :
    Found sb s t none w :=
  ⟨fun _ ↦ ⟨rfl, h⟩, fun _ _ h ↦ nomatch hw.symm.trans h⟩

theorem Found.of_some {w : Option (ℕ × List Byte)} (hw : w = some (j, name))
    (h : Holds sb s t ∅ e j) : Found sb s t (some (e, name)) w := by
  refine ⟨fun h ↦ (nomatch hw.symm.trans h), fun j' name' h' ↦ ?_⟩
  obtain ⟨rfl, rfl⟩ := Prod.mk.inj (Option.some.inj (hw.symm.trans h'))
  exact ⟨e, rfl, h⟩

/-- While one reference more is held, there is room for another. -/
theorem exists_free_of_refs {L L' : Finset Slot} (hs : Table sb s L) (ht : Table sb t L')
    (hr : Refs s t (Pi.single i 1)) (hroom : 2 ≤ freeSlots s) : ∃ e, (t.inode e).ref = 0 := by
  by_contra hno
  have hpos : ∀ e, 0 < (t.inode e).ref := fun e ↦
    lt_of_le_of_ne (ht.nonneg e) fun h ↦ hno ⟨e, h.symm⟩
  -- all entries are in use, for as many inodes
  have hcard : (Finset.univ.image fun e ↦ (t.inode e).inum).card = ninode := by
    rw [Finset.card_image_of_injective, Finset.card_univ, Fintype.card_fin]
    exact fun e e' h ↦ ht.unique e e' (hpos e) (hpos e') h
  have hsub : (Finset.univ.image fun e ↦ (t.inode e).inum) ⊆
      insert i ((Finset.univ.filter fun e ↦ ¬(s.inode e).ref = 0).image fun e ↦
        (s.inode e).inum) := by
    intro k hk
    obtain ⟨e, -, rfl⟩ := Finset.mem_image.1 hk
    by_cases hki : (t.inode e).inum = i
    · exact Finset.mem_insert.2 (.inl hki)
    have hrefs := hr.refs (t.inode e).inum
    rw [ht.refs_eq (hpos e), Pi.single_apply, if_neg hki, add_zero] at hrefs
    obtain ⟨e', he', hinum⟩ := hs.refs_pos_iff.1 (hrefs ▸ hpos e)
    refine Finset.mem_insert_of_mem (Finset.mem_image.2 ⟨e', ?_, hinum⟩)
    exact Finset.mem_filter.2 ⟨Finset.mem_univ e', he'.ne'⟩
  have hle := (Finset.card_le_card hsub).trans (Finset.card_insert_le _ _)
  have himage := @Finset.card_image_le _ _ (Finset.univ.filter fun e ↦ ¬(s.inode e).ref = 0)
    (fun e ↦ (s.inode e).inum) _
  have hsum := Finset.card_filter_add_card_filter_not (s := (Finset.univ : Finset Slot))
    (fun e ↦ (s.inode e).ref = 0)
  rw [Finset.card_univ, Fintype.card_fin] at hsum
  rw [freeSlots] at hroom
  rw [hcard] at hle
  omega

/-- What `namex` is to find from inode `i` on. -/
def target (fs : ℕ → Node) (nameiparent : Bool) (i : ℕ) (names : List (List Byte)) :
    Option (ℕ × List Byte) :=
  if nameiparent then walkParent fs i names else (walk fs i names).map (·, [])

theorem target_cons {b : Bool} (h : names ≠ [] ∨ b = false) :
    target fs b i (name :: names) = (child fs i name).bind fun j ↦ target fs b j names := by
  cases b with
  | false =>
    rw [target, if_neg (by decide), walk]
    cases child fs i name <;> rfl
  | true =>
    rw [target, if_pos rfl, walkParent_cons (h.resolve_right (by decide))]
    rfl

theorem target_cons_of_not_dir {b : Bool} (h : (fs i).type ≠ tDir) :
    target fs b i (name :: names) = none := by
  have hchild : child fs i name = none := if_neg h
  by_cases hnames : names ≠ [] ∨ b = false
  · rw [target_cons hnames, hchild, bind_none]
  · rw [not_or, not_not, Bool.not_eq_false] at hnames
    rw [hnames.1, hnames.2, target, if_pos rfl, walkParent_singleton, if_neg h]

/-- What a directory has for a name can be locked. -/
theorem Walkable.sturdy_child (h : Walkable E sb s) (hi : i < sb.ninodes)
    (hj : child (node sb s.disk) i name = some j) : Sturdy E sb s j := by
  obtain ⟨hdir, off, hoff, hoj, hj0⟩ := child_eq_some hj
  subst hoj
  exact h.entry i hi hdir off hoff hj0

theorem Walkable.sturdy_walk (h : Walkable E sb s) (hi : Sturdy E sb s i)
    (hj : walk (node sb s.disk) i names = some j) : Sturdy E sb s j := by
  induction names generalizing i with
  | nil =>
    obtain rfl : i = j := Option.some.inj hj
    exact hi
  | cons name names ih =>
    obtain ⟨k, hk, hj⟩ := bind_eq_some_iff.1 hj
    exact ih (h.sturdy_child hi.lt hk) hj

theorem Walkable.dirlookup (h : Walkable E sb s) (ht : Holds sb s t {ip} ip i)
    (hload : Loaded sb t ip i) (hdir : (node sb s.disk i).type = tDir) :
    wpe E (Kernel.dirlookup sb ip name) (fun r u ↦ Looked sb t u {ip} i name r) t := by
  have hlt : i < sb.ninodes := hload.lt
  refine ht.table.dirlookup hload ?_ ?_ (fun j hj ↦ ?_) ?_
  · rwa [ht.disk]
  · rw [ht.disk]
    exact h.read.imp_right fun hall ↦ hall i hlt hdir
  · rw [ht.disk] at hj
    exact (h.sturdy_child hlt hj).lt
  · exact h.room.imp_right fun hroom ↦ exists_free_of_refs h.table ht.table ht.refs hroom

/-- The loop of `namex`, with one reference more than at the beginning. -/
theorem Walkable.namexFrom (h : Walkable E sb s) {b : Bool} {turns : ℕ} {path : List Byte}
    (hturns : path.length < turns) (ht : Holds sb s t ∅ ip i) (hi : Sturdy E sb s i) :
    wpe E (Kernel.namexFrom sb b turns ip path)
      (fun r u ↦ Found sb s u r (target (node sb s.disk) b i (components path))) t := by
  induction turns generalizing t ip i path with
  | zero => exact absurd hturns (Nat.not_lt_zero _)
  | succ turns ih =>
    rw [Kernel.namexFrom]
    cases hskip : skipelem path with
    | none =>
      rw [components_eq_nil_of_skipelem hskip]
      dsimp only
      rw [wpe_ite, wpe_pure]
      refine ⟨fun hb ↦ ?_, fun hb ↦ .of_some ?_ ht⟩
      · rw [wpe_bind]
        refine ht.wpe_iput h.table hi fun u hu ↦ .of_none ?_ hu
        rw [target, if_pos hb, walkParent_nil]
      · rw [target, if_neg hb]
        rfl
    | some p =>
      obtain ⟨name, rest⟩ := p
      rw [components_of_skipelem hskip]
      dsimp only
      rw [wpe_bind]
      refine ht.wpe_ilock h.sound hi fun u hu hload ↦ ?_
      -- the exits that give the directory back
      have hexit : target (node sb s.disk) b i (name :: components rest) = none →
          wpe E (do iunlockput sb ip; return none) (fun r u ↦ Found sb s u r
            (target (node sb s.disk) b i (name :: components rest))) u := fun hnone ↦ by
        rw [wpe_bind]
        exact hu.wpe_iunlockput h.table hi fun v hv ↦ .of_none hnone hv
      rw [wpe_bind, wpe_inode, hload.din, hu.disk, wpe_ite]
      refine ⟨fun hdir ↦ hexit (target_cons_of_not_dir hdir), fun hdir ↦ ?_⟩
      rw [not_not] at hdir
      rw [wpe_ite]
      refine ⟨fun hlast ↦ ?_, fun hlast ↦ ?_⟩
      · -- one level early
        rw [wpe_bind]
        refine hu.wpe_iunlock fun v hv ↦ .of_some ?_ hv
        rw [(components_rest_eq_nil hskip).2 hlast.2, target, if_pos hlast.1, walkParent_singleton]
        exact if_pos hdir
      have htarget : target (node sb s.disk) b i (name :: components rest) =
          (child (node sb s.disk) i name).bind fun j ↦
            target (node sb s.disk) b j (components rest) := by
        refine target_cons ?_
        rw [Ne, components_rest_eq_nil hskip, ← Bool.not_eq_true]
        exact (not_and_or.1 hlast).symm
      rw [wpe_bind]
      refine (h.dirlookup hu hload hdir).mono fun r v hv ↦ ?_
      rcases hv with ⟨rfl, rfl, hchild⟩ | ⟨e, off, j, rfl, -, hchild, hv, hr, hdisk, he, hj⟩
      · rw [hu.disk] at hchild
        refine hexit ?_
        rw [htarget, hchild, bind_none]
      · rw [hu.disk] at hchild
        rw [htarget, hchild, bind_some]
        dsimp only
        rw [wpe_bind]
        refine hu.wpe_iunlockput_of_next h.table hi hv hr hdisk he hj fun w hw ↦
          ih ?_ hw (h.sturdy_child hload.lt hchild)
        have hlt := length_lt_of_skipelem hskip
        omega

/-- The inode where a path begins. -/
def start (s : Kfs) (path : List Byte) : ℕ :=
  if path.head? = some slash then rootIno else (s.inode s.cwd).inum

/-- **`namex`** finds what the names of the path lead to. -/
theorem Walkable.namex (h : Walkable E sb s) (path : List Byte) (b : Bool) :
    wpe E (Kernel.namex sb path b) (fun r t ↦ Found sb s t r
      (target (node sb s.disk) b (start s path) (components path))) s := by
  have hloop : ∀ i t ip, Sturdy E sb s i → Table sb t ∅ ∧ Refs s t (Pi.single i 1) ∧
      t.disk = s.disk ∧ 0 < (t.inode ip).ref ∧ (t.inode ip).inum = i →
      wpe E (Kernel.namexFrom sb b (path.length + 1) ip path) (fun r u ↦ Found sb s u r
        (target (node sb s.disk) b i (components path))) t :=
    fun i t ip hi ⟨h₁, h₂, h₃, h₄, h₅⟩ ↦
      h.namexFrom (Nat.lt_succ_self _) ⟨h₁, h₂, h₃, h₄, h₅⟩ hi
  rw [Kernel.namex, start]
  split_ifs with hslash
  · rw [wpe_bind]
    refine (h.table.iget h.root.lt ?_).mono fun ip t ht ↦ hloop _ t ip h.root ht
    refine h.room.imp_right fun hroom ↦ ?_
    obtain ⟨e, he⟩ := Finset.card_pos.1 (show 0 < freeSlots s by omega)
    exact ⟨e, (Finset.mem_filter.1 he).2⟩
  · rw [wpe_bind, wpe_get, wpe_bind]
    exact (h.table.idup h.cwd.1 rfl).mono fun ip t ht ↦ hloop _ t ip h.cwd.2 ht

/-! ### `namei` and `nameiparent` -/

theorem Walkable.sturdy_start (h : Walkable E sb s) (path : List Byte) :
    Sturdy E sb s (start s path) := by
  rw [start]
  split_ifs
  · exact h.root
  · exact h.cwd.2

/-- `namei`, with what is needed to lock the inode it finds and to put it away. -/
theorem Walkable.namei (h : Walkable E sb s) {path : List Byte} {Q : Option Slot → Kfs → Prop}
    (hnone : walk (node sb s.disk) (start s path) (components path) = none →
      ∀ t, Idle sb s t → Q none t)
    (hsome : ∀ j e t, walk (node sb s.disk) (start s path) (components path) = some j →
      Sturdy E sb s j → Holds sb s t ∅ e j → Q (some e) t) :
    wpe E (Kernel.namei sb path) Q s := by
  rw [Kernel.namei, wpe_bind]
  refine (h.namex path false).mono fun r t hr ↦ ?_
  rw [wpe_pure]
  cases hw : walk (node sb s.disk) (start s path) (components path) with
  | none =>
    obtain ⟨rfl, hidle⟩ := hr.missing (by rw [target, if_neg (by decide), hw]; rfl)
    exact hnone hw t hidle
  | some j =>
    obtain ⟨e, rfl, hholds⟩ := hr.found j [] (by rw [target, if_neg (by decide), hw]; rfl)
    exact hsome j e t hw (h.sturdy_walk (h.sturdy_start path) hw) hholds

/-- The state after a search for an inode that should find `w`: there is one reference more to what
was found, and nothing else has changed. -/
structure Resolved (s t : Kfs) (r : Option Slot) (w : Option ℕ) : Prop where
  inum : r.map (fun e ↦ (t.inode e).inum) = w
  refs : ∀ i, refs t i = refs s i + if w = some i then 1 else 0
  unlocked : ∀ e, (t.inode e).locked = false
  disk : t.disk = s.disk

theorem Found.resolved {r : Option (Slot × List Byte)} {w : Option (ℕ × List Byte)}
    (h : Found sb s t r w) :
    Resolved s t (r.map Prod.fst) (w.map Prod.fst) ∧ r.map Prod.snd = w.map Prod.snd := by
  cases w with
  | none =>
    obtain ⟨rfl, hidle⟩ := h.missing rfl
    exact ⟨⟨rfl, hidle.refs.refs, fun e ↦ hidle.table.unlocked (Finset.notMem_empty e),
      hidle.disk⟩, rfl⟩
  | some w =>
    obtain ⟨j, name⟩ := w
    obtain ⟨e, rfl, hholds⟩ := h.found j name rfl
    refine ⟨⟨congrArg some hholds.inum, fun i ↦ ?_,
      fun e ↦ hholds.table.unlocked (Finset.notMem_empty e), hholds.disk⟩, rfl⟩
    rw [hholds.refs.refs, Pi.single_apply]
    simp only [map_some, Option.some.injEq, eq_comm]

/-- **Paths are resolved, and no reference is lost.** `namei` finds the inode that the elements of
the path lead to, and `nameiparent` the directory that all but the last lead to, with the last;
there is one reference more to what was found, and none to anything else, and no inode is locked. -/
theorem namei_resolves (h : Walkable (fun _ ↦ False) sb s) (path : List Byte) :
    wp (namei sb path) (fun r t ↦
      Resolved s t r (walk (node sb s.disk) (start s path) (components path))) s ∧
    wp (nameiparent sb path) (fun r t ↦
      Resolved s t (r.map Prod.fst)
        ((walkParent (node sb s.disk) (start s path) (components path)).map Prod.fst) ∧
      r.map Prod.snd =
        (walkParent (node sb s.disk) (start s path) (components path)).map Prod.snd) s := by
  refine ⟨?_, ?_⟩
  · rw [wp_iff_wpe, namei, wpe_bind]
    refine (h.namex path false).mono fun r t hr ↦ ?_
    rw [wpe_pure]
    have hres := hr.resolved.1
    rwa [target, if_neg (by decide), Option.map_map,
      show (Prod.fst ∘ fun j ↦ (j, ([] : List Byte))) = id from rfl, Option.map_id, id_eq] at hres
  · rw [wp_iff_wpe, nameiparent]
    refine (h.namex path true).mono fun r t hr ↦ ?_
    have hres := hr.resolved
    rwa [target, if_pos rfl] at hres

theorem walkable_small : Walkable (fun _ ↦ False) smallSb (small fun _ ↦ none) := by
  have hnode : ∀ i < 3, (node smallSb smallDisk i).type = tDir →
      (node smallSb smallDisk i).data.length % direntSize = 0 ∧
      ∀ off ∈ direntOffsets (node smallSb smallDisk i).data.length,
        direntInum (direntAt (node smallSb smallDisk i).data off) ≠ 0 →
          direntInum (direntAt (node smallSb smallDisk i).data off) < 3 ∧
          (node smallSb smallDisk (direntInum
            (direntAt (node smallSb smallDisk i).data off))).type ≠ 0 ∧
          (node smallSb smallDisk
            (direntInum (direntAt (node smallSb smallDisk i).data off))).nlink ≠ 0 := by
    decide +kernel
  have hroot : (node smallSb smallDisk 1).type ≠ 0 ∧ (node smallSb smallDisk 1).nlink ≠ 0 := by
    decide +kernel
  refine ⟨sound_small, table_small _, fun i hi hdir off hoff hne ↦ ?_,
    .inr fun i hi hdir ↦ (hnode i hi hdir).1,
    .inr (by decide +kernel), ?_, by decide, ?_⟩
  · obtain ⟨h₁, h₂, h₃⟩ := (hnode i hi hdir).2 off hoff hne
    exact ⟨h₁, .inr h₂, fun _ ↦ .inl h₃⟩
  · exact ⟨by decide, .inr hroot.1, fun _ ↦ .inl hroot.2⟩
  · exact ⟨by decide, .inr hroot.1, fun _ ↦ .inl hroot.2⟩

theorem namei_resolves_small : wp (namei smallSb [slash, 0x61])
    (fun r t ↦ Resolved (small fun _ ↦ none) t r (some 2)) (small fun _ ↦ none) := by
  have hwalk : walk (node smallSb smallDisk) 1 (components [slash, 0x61]) = some 2 := by
    decide +kernel
  have hres := (namei_resolves walkable_small [slash, 0x61]).1
  rwa [small_disk, show start (small fun _ ↦ none) [slash, 0x61] = 1 from rfl, hwalk] at hres

end Xv6.Fs.Kernel

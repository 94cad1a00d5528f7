import Mathlib.Data.List.TakeWhile
import Xv6.Fs.Read
import Xv6.Strings.Memmove

/-!
# File names

How a name goes from a path into a directory entry and is found again: `skipelem` and `namecmp` of
`kernel/fs.c` with `strncmp` and `strncpy` of `kernel/string.c`, on a memory of bytes. A name is in
a field of `DIRSIZ` bytes and need not end there: `skipelem` writes a `NUL` behind a short name
only, `strncpy` fills the field up, and `strncmp` stops at either. What matters of a field that
holds the name `s` is therefore `(s ++ [0]).take DIRSIZ`, and each function is specified by that.

The length of a path element is an `int` in `skipelem`. The specification `wp_skipelem` has the
length as the source has it, cut to 32 bits; up to `2 ^ 31` bytes this is the length, and there
`skipelem` is the function on lists that path lookup is built on (`skipelem_refines`).
-/

namespace Xv6.Strings

open CMemory Fs List

/-- `strncmp`. -/
def strncmp (p q : Ptr) : ℕ → C ℤ
  | 0 => return 0
  | n + 1 => do
    let a ← load p
    let b ← load q
    if a ≠ 0 ∧ a = b then strncmp (p + 1) (q + 1) n
    else return (a.toNat : ℤ) - b.toNat

def namecmp (s t : Ptr) : C ℤ := strncmp s t dirsiz

/-- The second loop of `strncpy`. -/
def strncpyPad (s : Ptr) : ℕ → C Unit
  | 0 => return ()
  | n + 1 => do
    store s 0
    strncpyPad (s + 1) n

/-- `strncpy`, from its first loop on. -/
def strncpyFrom (s t : Ptr) : ℕ → C Unit
  | 0 => return ()
  | n + 1 => do
    let c ← load t
    store s c
    if c ≠ 0 then strncpyFrom (s + 1) (t + 1) n else strncpyPad (s + 1) n

def strncpy (s t : Ptr) (n : ℕ) : C Ptr := do
  strncpyFrom s t n
  return s

/-- A loop over a string makes at most as many turns as there are addresses. -/
abbrev turns : ℕ := 2 ^ 64

/-- How `skipelem` fills in the name; `len` is an `int`. -/
def copyElem (name s : Ptr) (len : BitVec 32) : C Unit := do
  if (dirsiz : ℤ) ≤ len.toInt then
    let _ ← memmove name s (BitVec.ofNat 32 dirsiz)
    return ()
  else
    let _ ← memmove name s len
    store (name + len.signExtend 64) 0

def skipelem (path name : Ptr) : C (Option Ptr) := do
  let s ← scan (· = slash) turns path
  if (← load s) = 0 then return none
  else
    let path ← scan (fun c ↦ c ≠ slash ∧ c ≠ 0) turns s
    copyElem name s ((path - s).setWidth 32)
    let path ← scan (· = slash) turns path
    return some path

/-! ### Names in fields -/

variable {m : Mem} {p q : Ptr} {n : ℕ} {s t : List Byte}

/-- The part of a field of `n` bytes that matters when it holds the name `s`. -/
def field (n : ℕ) (s : List Byte) : List Byte := (s ++ [0]).take n

theorem field_nil : field (n + 1) [] = [0] := by
  rw [field, nil_append, take_succ_cons, take_nil]

theorem field_cons (c : Byte) : field (n + 1) (c :: s) = c :: field n s := by
  rw [field, cons_append, take_succ_cons, field]

theorem length_field_le : (field n s).length ≤ n := by
  rw [field, length_take]
  exact min_le_left _ _

theorem field_take : field n (s.take n) = field n s := by
  rw [field, field, take_append, take_append, take_take, min_self,
    length_take]
  congr 2
  omega

/-- **Comparison of names** in fields. -/
theorem wp_strncmp (hp : Holds m p (field n s)) (hq : Holds m q (field n t)) (hs : 0 ∉ s)
    (ht : 0 ∉ t) (hn : n ≤ 2 ^ 64) :
    wp (strncmp p q n) (fun r u ↦ u = m ∧ (r = 0 ↔ s.take n = t.take n)) m := by
  induction n generalizing p q s t with
  | zero =>
    rw [strncmp, wp_pure]
    exact ⟨rfl, iff_of_true rfl (by rw [take_zero, take_zero])⟩
  | succ n ih =>
    cases s with
    | nil =>
      cases t with
      | nil =>
        rw [field_nil] at hp hq
        rw [strncmp, wp_bind, wp_load hp.head, wp_bind, wp_load hq.head, if_neg (fun h ↦ h.1 rfl),
          wp_pure]
        exact ⟨rfl, iff_of_true rfl rfl⟩
      | cons d t =>
        rw [field_nil] at hp
        rw [field_cons] at hq
        have hd : d ≠ 0 := fun h ↦ ht (h ▸ mem_cons_self)
        rw [strncmp, wp_bind, wp_load hp.head, wp_bind, wp_load hq.head, if_neg (fun h ↦ h.1 rfl),
          wp_pure]
        refine ⟨rfl, iff_of_false (fun h ↦ hd ?_) (by simp)⟩
        bv_omega
    | cons c s =>
      have hc : c ≠ 0 := fun h ↦ hs (h ▸ mem_cons_self)
      rw [field_cons] at hp
      cases t with
      | nil =>
        rw [field_nil] at hq
        rw [strncmp, wp_bind, wp_load hp.head, wp_bind, wp_load hq.head, if_neg (fun h ↦ hc h.2),
          wp_pure]
        refine ⟨rfl, iff_of_false (fun h ↦ hc ?_) (by simp)⟩
        bv_omega
      | cons d t =>
        rw [field_cons] at hq
        rw [strncmp, wp_bind, wp_load hp.head, wp_bind, wp_load hq.head, wp_ite,
          take_succ_cons,
          take_succ_cons, List.cons.injEq]
        have hlen : ∀ l : List Byte, (field n l).length < 2 ^ 64 := fun l ↦
          lt_of_le_of_lt length_field_le hn
        refine ⟨fun ⟨_, hcd⟩ ↦ ?_, fun hne ↦ ?_⟩
        · refine (ih (hp.tail (hlen s)) (hq.tail (hlen t)) (fun h ↦ hs (mem_cons_of_mem _ h))
            (fun h ↦ ht (mem_cons_of_mem _ h)) (by omega)).mono fun r u ⟨hu, hr⟩ ↦ ⟨hu, ?_⟩
          rw [hr, and_iff_right hcd]
        · rw [wp_pure]
          refine ⟨rfl, iff_of_false (fun h ↦ hne ⟨hc, ?_⟩) fun h ↦ hne ⟨hc, h.1⟩⟩
          bv_omega

/-! ### Storing a name -/

theorem wp_strncpyPad (hp : Has m p n) (hn : n ≤ 2 ^ 64) :
    wp (strncpyPad p n) (fun _ u ↦ u = written m p (List.replicate n 0)) m := by
  induction n generalizing m p with
  | zero =>
    rw [strncpyPad, wp_pure]
    exact written_nil.symm
  | succ n ih =>
    rw [strncpyPad, wp_bind, wp_store hp.head]
    refine (ih (hp.tail hn).update (by omega)).mono fun _ u hu ↦ ?_
    rw [hu, written_update_head (by rw [length_replicate]; omega), replicate_succ]

/-- **A name is stored** with `NUL`s up to the end of the field. -/
theorem wp_strncpyFrom {k : ℕ} (hp : Has m p n) (hq : Holds m q (field n s)) (hs : 0 ∉ s)
    (hapart : Apart p n q n) (hn : n ≤ 2 ^ 64) (hk : n ≤ k) :
    wp (strncpyFrom p q n) (fun _ u ↦ u = written m p ((s ++ List.replicate k 0).take n)) m := by
  induction n generalizing m p q s with
  | zero =>
    rw [strncpyFrom, wp_pure, take_zero]
    exact written_nil.symm
  | succ n ih =>
    cases s with
    | nil =>
      rw [field_nil] at hq
      rw [strncpyFrom, wp_bind, wp_load hq.head, wp_bind, wp_store hp.head, if_neg (fun h ↦ h rfl)]
      refine (wp_strncpyPad (hp.tail hn).update (by omega)).mono fun _ u hu ↦ ?_
      rw [hu, written_update_head (by rw [length_replicate]; omega), ← replicate_succ,
        nil_append, take_replicate, min_eq_left hk]
    | cons c s =>
      have hc : c ≠ 0 := fun h ↦ hs (h ▸ mem_cons_self)
      rw [field_cons] at hq
      have hlen : (field n s).length < 2 ^ 64 := lt_of_le_of_lt length_field_le hn
      have hrest : Apart (p + 1) n (q + 1) n := ((hapart.tail hn).symm.tail hn).symm
      have hq' : Holds (Function.update m p (some c)) (q + 1) (field n s) := by
        rw [update_eq_written]
        exact (hq.tail hlen).written ((hapart.symm.tail hn).symm.mono (Nat.succ_le_succ n.zero_le)
          length_field_le)
      rw [strncpyFrom, wp_bind, wp_load hq.head, wp_bind, wp_store hp.head, if_pos hc]
      refine (ih (hp.tail hn).update hq' (fun h ↦ hs (mem_cons_of_mem _ h)) hrest (by omega)
        (by omega)).mono fun _ u hu ↦ ?_
      rw [hu, written_update_head (lt_of_le_of_lt (length_take_le _ _) hn),
        cons_append, take_succ_cons]

/-! ### Taking an element from a path -/

/-- A path and its first component. -/
structure Path where
  pre : List Byte
  comp : List Byte
  post : List Byte
  rest : List Byte
  pre_slash : ∀ c ∈ pre, c = slash
  comp_ne_nil : comp ≠ []
  comp_byte : ∀ c ∈ comp, c ≠ slash ∧ c ≠ 0
  post_slash : ∀ c ∈ post, c = slash
  /-- The component ends at a slash or at the end of the path. -/
  rest_of_post : post = [] → rest = []
  rest_head : ∀ c ∈ rest.head?, c ≠ slash

namespace Path

variable {l : Path} {path name : Ptr}

def bytes (l : Path) : List Byte := l.pre ++ (l.comp ++ (l.post ++ l.rest))

/-- The path is in memory, with its `NUL`. -/
structure At (l : Path) (m : Mem) (p : Ptr) : Prop where
  holds : Holds m p (l.bytes ++ [0])
  fits : p.toNat + l.bytes.length < 2 ^ 64

/-- The `int` that `skipelem` has for the length of the component. -/
def len (l : Path) : BitVec 32 := BitVec.ofNat 32 l.comp.length

end Path

/-- What `skipelem` writes into the name: as much of the component as fits, and a `NUL` behind it if
there is room. -/
theorem wp_copyElem {name src : Ptr} {comp : List Byte} {len : BitVec 32}
    (hcomp : Holds m src comp) (hname : Has m name dirsiz) (hlen : 0 ≤ len.toInt)
    (hle : len.toNat ≤ comp.length) (hsrc : src.toNat + comp.length ≤ 2 ^ 64)
    (hfits : name.toNat + dirsiz ≤ 2 ^ 64) :
    wp (copyElem name src len)
      (fun _ u ↦ u = written m name (field dirsiz (comp.take len.toNat))) m := by
  have hnat : len.toInt = len.toNat := by
    have hlt := len.isLt
    rw [BitVec.toInt_eq_toNat_cond] at hlen ⊢
    split_ifs at hlen ⊢ <;> omega
  have hmove : ∀ n : BitVec 32, n.toNat ≤ len.toNat → n.toNat ≤ dirsiz →
      wp (memmove name src n) (fun _ u ↦ u = written m name (comp.take n.toNat)) m := by
    intro n hn hdir
    have htake : (comp.take n.toNat).length = n.toNat := length_take_of_le (by omega)
    refine (wp_memmove (by omega) (by omega) ?_ (hname.mono hdir)).mono fun r u ⟨_, hu⟩ ↦ ?_
    · exact (hcomp.has).mono (by omega)
    · have hmoved : moved m name src (comp.take n.toNat).length = _ :=
        moved_eq_written (hcomp.take n.toNat)
      rw [htake] at hmoved
      rw [hu, hmoved]
  have hlentake : (comp.take len.toNat).length = len.toNat := length_take_of_le hle
  rw [copyElem, wp_ite, hnat, wp_bind, wp_bind, field]
  refine ⟨fun hge ↦ ?_, fun hlt ↦ ?_⟩
  · have hdir : dirsiz ≤ len.toNat := by exact_mod_cast hge
    refine (hmove (BitVec.ofNat 32 dirsiz) hdir (le_refl _)).mono fun _ u hu ↦ wp_pure.2 ?_
    rw [hu, take_append_of_le_length (by rw [hlentake]; exact hdir), take_take,
      min_eq_left hdir]
    rfl
  · have hdir : len.toNat < dirsiz := by omega
    refine (hmove len (le_refl _) (le_of_lt hdir)).mono fun _ u hu ↦ ?_
    have hext : len.signExtend 64 = BitVec.ofNat 64 (comp.take len.toNat).length := by
      rw [BitVec.signExtend, hnat, hlentake]
      rfl
    have hplace : (u (name + len.signExtend 64)).isSome := by
      rw [hu]
      exact hname.written _ (by rw [hext, hlentake]; bv_omega)
    have hall : (comp.take len.toNat ++ [0]).length ≤ dirsiz := by
      rw [length_append, length_singleton, hlentake]
      exact hdir
    rw [wp_store hplace, hext, hu, update_written (by omega), take_of_length_le hall]

namespace Path

variable {l : Path} {path name : Ptr}

/-- The component ends at a slash or at the `NUL`. -/
theorem exists_after_comp (l : Path) :
    ∃ c rest, l.post ++ (l.rest ++ [0]) = c :: rest ∧ (c = slash ∨ c = 0) := by
  cases hpost : l.post with
  | nil => exact ⟨0, [], by rw [l.rest_of_post hpost]; rfl, .inr rfl⟩
  | cons c post =>
    exact ⟨c, post ++ (l.rest ++ [0]), rfl, .inl (l.post_slash c (hpost ▸ mem_cons_self))⟩

/-- The slashes behind it end at something else. -/
theorem exists_after_post (l : Path) : ∃ c rest, l.rest ++ [0] = c :: rest ∧ c ≠ slash := by
  cases hrest : l.rest with
  | nil => exact ⟨0, [], rfl, by decide⟩
  | cons c rest => exact ⟨c, rest ++ [0], rfl, l.rest_head c (by rw [hrest]; rfl)⟩

theorem bytes_append (l : Path) :
    l.bytes ++ [0] = l.pre ++ (l.comp ++ (l.post ++ (l.rest ++ [0]))) := by
  rw [bytes, append_assoc, append_assoc, append_assoc]

theorem length_bytes (l : Path) : l.bytes.length =
    l.pre.length + (l.comp.length + (l.post.length + l.rest.length)) := by
  rw [bytes, length_append, length_append, length_append]

/-- The component, and what follows it, in any memory that has the path. -/
theorem holds_comp (h : Holds m path (l.bytes ++ [0])) (hlen : l.bytes.length < 2 ^ 64) :
    Holds m (path + BitVec.ofNat 64 l.pre.length) (l.comp ++ (l.post ++ (l.rest ++ [0]))) := by
  rw [bytes_append] at h
  rw [length_bytes] at hlen
  refine h.right ?_
  simp only [length_append, length_singleton]
  omega

theorem holds_post (h : Holds m path (l.bytes ++ [0])) (hlen : l.bytes.length < 2 ^ 64) :
    Holds m (path + BitVec.ofNat 64 l.pre.length + BitVec.ofNat 64 l.comp.length)
      (l.post ++ (l.rest ++ [0])) := by
  refine (holds_comp h hlen).right ?_
  rw [length_bytes] at hlen
  simp only [length_append, length_singleton]
  omega

/-- **`skipelem`** with the length as the source has it. -/
theorem wp_skipelem (h : l.At m path) (hname : Has m name dirsiz)
    (hfits : name.toNat + dirsiz ≤ 2 ^ 64) (hapart : Apart name dirsiz path (l.bytes.length + 1))
    (hlen : 0 ≤ l.len.toInt) :
    wp (Strings.skipelem path name) (fun r u ↦
      u = written m name (field dirsiz (l.comp.take l.len.toNat)) ∧
      ∃ p, r = some p ∧ Holds u p (l.rest ++ [0])) m := by
  obtain ⟨b, comp, hcomp⟩ := exists_cons_of_ne_nil l.comp_ne_nil
  obtain ⟨hbslash, hb0⟩ := l.comp_byte b (hcomp ▸ mem_cons_self)
  obtain ⟨c, rest, hc, hcend⟩ := l.exists_after_comp
  obtain ⟨d, rest', hd, hdslash⟩ := l.exists_after_post
  have hfit := h.fits
  have hbytes : l.bytes.length < 2 ^ 64 := by omega
  rw [length_bytes] at hfit
  have hbegin := holds_comp h.holds hbytes
  have hpath := h.holds
  rw [bytes_append, hcomp, cons_append] at hpath
  -- to the component
  rw [Strings.skipelem, wp_bind]
  refine (wp_scan hpath (fun c hc ↦ decide_eq_true (l.pre_slash c hc)) (decide_eq_false hbslash) ?_
    (le_refl _)).mono fun s u ⟨hs, hu⟩ ↦ ?_
  · rw [← cons_append, ← hcomp]
    simp only [length_append, length_singleton]
    omega
  have hb : m (path + BitVec.ofNat 64 l.pre.length) = some b := by
    rw [hcomp] at hbegin
    exact hbegin.head
  -- to its end
  rw [hs, hu, wp_bind, wp_load hb, if_neg hb0, wp_bind]
  rw [hc] at hbegin
  refine (wp_scan hbegin (fun c hc ↦ decide_eq_true (l.comp_byte c hc)) (decide_eq_false ?_) ?_
    (le_refl _)).mono fun p u ⟨hp, hu⟩ ↦ ?_
  · rintro ⟨h₁, h₂⟩
    exact hcend.elim h₁ h₂
  · rw [← hc]
    simp only [length_append, length_singleton]
    omega
  have hlength : (path + BitVec.ofNat 64 l.pre.length + BitVec.ofNat 64 l.comp.length -
      (path + BitVec.ofNat 64 l.pre.length)).setWidth 32 = l.len := by
    rw [len, BitVec.add_comm _ (BitVec.ofNat 64 l.comp.length), BitVec.add_sub_cancel,
      BitVec.setWidth_ofNat_of_le (by decide)]
  rw [hp, hu, wp_bind, hlength]
  refine (wp_copyElem hbegin.left hname hlen (Nat.mod_le _ _) (by bv_omega) hfits).mono
    fun _ u hu ↦ ?_
  -- over the slashes; the name is elsewhere
  have hkept : Holds u path (l.bytes ++ [0]) := by
    rw [hu]
    refine h.holds.written (hapart.mono length_field_le ?_)
    rw [length_append]
    exact le_refl _
  have hafter := holds_post hkept hbytes
  rw [hd] at hafter
  rw [wp_bind]
  refine (wp_scan hafter (fun c hc ↦ decide_eq_true (l.post_slash c hc))
    (decide_eq_false hdslash) ?_
    (le_refl _)).mono fun p u' ⟨hp, hu'⟩ ↦ wp_pure.2 ?_
  · rw [← hd]
    simp only [length_append, length_singleton]
    omega
  rw [hp, hu']
  refine ⟨hu, _, rfl, ?_⟩
  rw [← hd] at hafter
  refine hafter.right ?_
  simp only [length_append, length_singleton]
  omega

theorem zero_notMem_take (l : Path) (n : ℕ) : 0 ∉ l.comp.take n := fun h ↦
  (l.comp_byte 0 (mem_of_mem_take h)).2 rfl

theorem len_of_lt (h : l.comp.length < 2 ^ 31) :
    0 ≤ l.len.toInt ∧ l.comp.take l.len.toNat = l.comp := by
  have hnat : l.len.toNat = l.comp.length := by
    rw [len, BitVec.toNat_ofNat]
    omega
  refine ⟨?_, by rw [hnat, take_length]⟩
  rw [BitVec.toInt_eq_toNat_cond, hnat]
  split_ifs <;> omega

/-- Where skipping stops. -/
theorem head_of_dropWhile {p : Byte → Bool} {c : Byte} (h : s.dropWhile p = c :: t) :
    p c = false := by
  have hne : s.dropWhile p ≠ [] := h ▸ cons_ne_nil c t
  simpa [h] using head_dropWhile_not p hne

/-- A string that is more than slashes has a first component. -/
theorem exists_bytes_eq (h0 : 0 ∉ s) (hs : s.dropWhile (· = slash) ≠ []) :
    ∃ l : Path, l.bytes = s ∧ Fs.skipelem s = some (l.comp.take dirsiz, l.rest) := by
  refine ⟨{
    pre := s.takeWhile (· = slash)
    comp := (s.dropWhile (· = slash)).takeWhile (· ≠ slash)
    post := ((s.dropWhile (· = slash)).dropWhile (· ≠ slash)).takeWhile (· = slash)
    rest := ((s.dropWhile (· = slash)).dropWhile (· ≠ slash)).dropWhile (· = slash)
    pre_slash := fun _ hc ↦ by simpa using mem_takeWhile_imp hc
    comp_ne_nil := ?_
    comp_byte := fun c hc ↦ ⟨by simpa using mem_takeWhile_imp hc, fun hc0 ↦ h0
      ((dropWhile_sublist _).subset ((takeWhile_sublist _).subset (hc0 ▸ hc)))⟩
    post_slash := fun _ hc ↦ by simpa using mem_takeWhile_imp hc
    rest_of_post := fun hpost ↦ ?_
    rest_head := fun c hc ↦ ?_ }, ?_, if_neg hs⟩
  · obtain ⟨c, t, hct⟩ := exists_cons_of_ne_nil hs
    rw [hct, takeWhile_cons_of_pos (by simpa using head_of_dropWhile hct)]
    exact cons_ne_nil _ _
  · cases hd : (s.dropWhile (· = slash)).dropWhile (· ≠ slash) with
    | nil => rfl
    | cons c t =>
      rw [hd, takeWhile_cons_of_pos (by simpa using head_of_dropWhile hd)] at hpost
      cases hpost
  · obtain ⟨t, ht⟩ := head?_eq_some_iff.1 hc
    exact of_decide_eq_false (head_of_dropWhile ht)
  · simp only [bytes, takeWhile_append_dropWhile]

end Path

/-! ### A name is found again -/

/-- The name `s` in a directory entry. -/
def stored (s : List Byte) : List Byte := (s ++ List.replicate dirsiz 0).take dirsiz

theorem length_stored (s : List Byte) : (stored s).length = dirsiz := by
  refine length_take_of_le ?_
  rw [length_append, length_replicate]
  exact Nat.le_add_left _ _

/-- What matters of it. -/
theorem field_prefix_stored (s : List Byte) : field dirsiz s <+: stored s := by
  have hpad : List.replicate dirsiz (0 : Byte) = [0] ++ List.replicate 13 0 := rfl
  rw [stored, hpad, ← append_assoc, take_append]
  exact prefix_append _ _

/-- How a name gets into a directory entry: `nameiparent` and `dirlink`. -/
def createName (path name de : Ptr) : C Unit := do
  let _ ← skipelem path name
  let _ ← strncpy de name dirsiz
  return ()

/-- How an entry is compared with the next element of a path: `namex` and `dirlookup`. -/
def lookupName (path name de : Ptr) : C ℤ := do
  let _ ← skipelem path name
  namecmp name de

/-- Memory has a path, a name buffer and the name of a directory entry, apart from each other. -/
structure Fields (l : Path) (m : Mem) (path name de : Ptr) : Prop where
  at_path : l.At m path
  has_name : Has m name dirsiz
  has_de : Has m de dirsiz
  fits : name.toNat + dirsiz ≤ 2 ^ 64
  apart_path : Apart name dirsiz path (l.bytes.length + 1)
  apart_de : Apart name dirsiz de dirsiz

section Fields

variable {l : Path} {path name de : Ptr}

theorem Fields.wp_createName (h : Fields l m path name de) (hlen : 0 ≤ l.len.toInt) :
    wp (createName path name de) (fun _ u ↦
      u = written (written m name (field dirsiz (l.comp.take l.len.toNat))) de
        (stored (l.comp.take l.len.toNat))) m := by
  rw [createName, wp_bind]
  refine (Path.wp_skipelem h.at_path h.has_name h.fits h.apart_path hlen).mono fun _ u ⟨hu, _⟩ ↦ ?_
  rw [strncpy, wp_bind, wp_bind, hu]
  refine (wp_strncpyFrom h.has_de.written holds_written (l.zero_notMem_take _) h.apart_de.symm
    (by decide) (le_refl _)).mono fun _ u hu ↦ ?_
  rw [wp_pure, wp_pure, hu, stored]

theorem Fields.wp_lookupName (h : Fields l m path name de) (hlen : 0 ≤ l.len.toInt)
    (hs : Holds m de (field dirsiz s)) (h0 : 0 ∉ s) :
    wp (lookupName path name de) (fun r u ↦
      (r = 0 ↔ (l.comp.take l.len.toNat).take dirsiz = s.take dirsiz) ∧
      u = written m name (field dirsiz (l.comp.take l.len.toNat))) m := by
  rw [lookupName, wp_bind]
  refine (Path.wp_skipelem h.at_path h.has_name h.fits h.apart_path hlen).mono fun _ u ⟨hu, _⟩ ↦ ?_
  have hde : Holds u de (field dirsiz s) := by
    rw [hu]
    exact hs.written (h.apart_de.mono length_field_le length_field_le)
  have hname : Holds u name (field dirsiz (l.comp.take l.len.toNat)) := by
    rw [hu]
    exact holds_written
  refine (wp_strncmp hname hde (l.zero_notMem_take _) h0 (by decide)).mono fun r u' ⟨hu', hr⟩ ↦ ?_
  exact ⟨hr, hu'.trans hu⟩

end Fields

/-- The entry that is stored for `l` compares equal with the name taken from `l'` if and only if the
first `DIRSIZ` bytes of the two components are the same; only the two fields are written. -/
def NamesAgree (l l' : Path) (m m' : Mem) (path name de path' name' de' : Ptr) : Prop :=
  wp (createName path name de) (fun _ u ↦
    (∀ a, dirsiz ≤ (a - name).toNat → dirsiz ≤ (a - de).toNat → u a = m a) ∧
    ∃ entry, entry.length = dirsiz ∧ Holds u de entry ∧ (Holds m' de' entry →
      wp (lookupName path' name' de') (fun r u' ↦
        (r = 0 ↔ l.comp.take dirsiz = l'.comp.take dirsiz) ∧
        ∀ a, dirsiz ≤ (a - name').toNat → u' a = m' a) m')) m

/-- **Names agree**: a name that was stored is found by the paths with the same first `DIRSIZ`
bytes, and by no others, if components are shorter than an `int` can say. -/
theorem names_agree {l l' : Path} {m m' : Mem} {path name de path' name' de' : Ptr}
    (hlen : l.comp.length < 2 ^ 31) (hlen' : l'.comp.length < 2 ^ 31)
    (h : Fields l m path name de) (h' : Fields l' m' path' name' de') :
    NamesAgree l l' m m' path name de path' name' de' := by
  obtain ⟨hpos, htake⟩ := Path.len_of_lt hlen
  obtain ⟨hpos', htake'⟩ := Path.len_of_lt hlen'
  have h0 : 0 ∉ l.comp := fun h0 ↦ (l.comp_byte 0 h0).2 rfl
  refine (h.wp_createName hpos).mono fun _ u hu ↦ ⟨fun a hname hde ↦ ?_, stored l.comp,
    length_stored _, ?_, fun hentry ↦ ?_⟩
  · rw [hu, written_of_ge (by rwa [length_stored]),
      written_of_ge (le_trans length_field_le hname)]
  · rw [hu, htake]
    exact holds_written
  · obtain ⟨pad, hpad⟩ := field_prefix_stored l.comp
    rw [← hpad] at hentry
    refine (h'.wp_lookupName hpos' hentry.left h0).mono fun r u' ⟨hr, hu'⟩ ↦ ⟨?_, fun a ha ↦ ?_⟩
    · rw [hr, htake', eq_comm]
    · rw [hu', written_of_ge (le_trans length_field_le ha)]

/-- The path `a`. -/
def pathA : Path where
  pre := []
  comp := [0x61]
  post := []
  rest := []
  pre_slash := by simp
  comp_ne_nil := List.cons_ne_nil _ _
  comp_byte := by decide
  post_slash := by simp
  rest_of_post _ := rfl
  rest_head := by simp

/-- The path `/abcdefghijklmno//a`. -/
def pathLong : Path where
  pre := [slash]
  comp := (List.range 15).map fun k ↦ .ofNat 8 (0x61 + k)
  post := [slash, slash]
  rest := [0x61]
  pre_slash := by simp
  comp_ne_nil := cons_ne_nil _ _
  comp_byte := by decide +kernel
  post_slash := by simp
  rest_of_post := nofun
  rest_head := by decide

/-- The path `abcdefghijklmna`, with the same first 14 bytes. -/
def pathLike : Path where
  pre := []
  comp := pathLong.comp.take 14 ++ [0x61]
  post := []
  rest := []
  pre_slash := by simp
  comp_ne_nil := cons_ne_nil _ _
  comp_byte := by decide +kernel
  post_slash := by simp
  rest_of_post _ := rfl
  rest_head := by simp

/-- The one path is at 0, the entry of its component at 64 and the other path at 96. The bytes
between them, with the name at 32, are stale. -/
def layout : List Byte :=
  pathLong.bytes ++ [0] ++ List.replicate 44 0xff ++ stored pathLong.comp ++
    List.replicate 18 0xff ++ pathLike.bytes ++ [0]

def memLong : Mem := fun p ↦ layout[p.toNat]?

theorem has_memLong {p : Ptr} (hp : p.toNat ≤ 64) : Has memLong p 14 := by
  intro k hk
  have hlen : layout.length = 112 := by decide
  rw [memLong, isSome_getElem?, hlen]
  bv_omega

theorem at_memLong : pathLong.At memLong 0 := ⟨.of_forall_lt (by decide +kernel), by decide⟩

theorem apart_memLong : Apart 32 14 0 (pathLong.bytes.length + 1) := by
  intro i j hi hj
  have hj : j.toNat < 20 := hj
  bv_omega

theorem names_agree_pathLong :
    Fields pathLong memLong 0 32 64 ∧ Fields pathLike memLong 96 32 64 ∧
    Holds memLong 64 (stored pathLong.comp) ∧
    NamesAgree pathLong pathLike memLong memLong 0 32 64 96 32 64 := by
  have hde : Apart 32 14 64 14 := by
    intro i j hi hj
    bv_omega
  have hpath : Apart 32 14 96 16 := by
    intro i j hi hj
    bv_omega
  have hfields : Fields pathLong memLong 0 32 64 :=
    ⟨at_memLong, has_memLong (by decide), has_memLong (by decide), by decide, apart_memLong, hde⟩
  have hfields' : Fields pathLike memLong 96 32 64 :=
    ⟨⟨.of_forall_lt (by decide +kernel), by decide⟩, has_memLong (by decide),
      has_memLong (by decide), by decide, hpath, hde⟩
  exact ⟨hfields, hfields', .of_forall_lt (by decide +kernel),
    names_agree (by decide) (by decide) hfields hfields'⟩

/-- **The function on lists** that path lookup is built on is what `skipelem` computes, for every
path: it returns 0 where there is no element left, and otherwise fills in the name and returns the
rest of the path. Nothing else is written. -/
theorem skipelem_refines {path name : Ptr} (h0 : 0 ∉ s) (hpath : Holds m path (s ++ [0]))
    (hend : path.toNat + s.length < 2 ^ 64) (hlen : s.length < 2 ^ 31) (hname : Has m name dirsiz)
    (hfits : name.toNat + dirsiz ≤ 2 ^ 64) (hapart : Apart name dirsiz path (s.length + 1)) :
    wp (skipelem path name) (fun r u ↦
      (∀ a, dirsiz ≤ (a - name).toNat → u a = m a) ∧ (Fs.skipelem s = none → r = none) ∧
      ∀ elem rest, Fs.skipelem s = some (elem, rest) →
        Holds u name (field dirsiz elem) ∧ ∃ p, r = some p ∧ Holds u p (rest ++ [0])) m := by
  by_cases hs : s.dropWhile (· = slash) = []
  · have hnone : Fs.skipelem s = none := if_pos hs
    rw [skipelem, wp_bind, hnone]
    refine (wp_scan hpath (dropWhile_eq_nil_iff.1 hs) (decide_eq_false (by decide)) ?_
      (le_refl _)).mono fun p u hu ↦ ?_
    · simp only [length_append, length_singleton]
      omega
    · have hnul : m (path + BitVec.ofNat 64 s.length) = some 0 := (hpath.right (by
        simp only [length_append, length_singleton]
        omega)).head
      rw [hu.1, hu.2, wp_bind, wp_load hnul, if_pos rfl, wp_pure]
      exact ⟨fun _ _ ↦ rfl, fun _ ↦ rfl, nofun⟩
  · obtain ⟨l, rfl, hskip⟩ := Path.exists_bytes_eq h0 hs
    obtain ⟨hpos, htake⟩ := Path.len_of_lt (l := l) (by rw [Path.length_bytes] at hlen; omega)
    refine (Path.wp_skipelem ⟨hpath, hend⟩ hname hfits hapart hpos).mono fun r u hu ↦ ?_
    obtain ⟨hu, hrest⟩ := hu
    rw [hskip]
    refine ⟨fun a ha ↦ ?_, nofun, ?_⟩
    · rw [hu, written_of_ge (le_trans length_field_le ha)]
    · rintro _ _ ⟨⟩
      refine ⟨?_, hrest⟩
      rw [hu, htake, field_take]
      exact holds_written

theorem skipelem_refines_memLong : wp (skipelem 0 32) (fun r u ↦
    Holds u 32 (pathLong.comp.take dirsiz) ∧ ∃ p, r = some p ∧ Holds u p [0x61, 0]) memLong := by
  refine (skipelem_refines (by decide) at_memLong.holds at_memLong.fits (by decide)
    (has_memLong (by decide)) (by decide) apart_memLong).mono fun r u hu ↦ ?_
  exact hu.2.2 (pathLong.comp.take dirsiz) [0x61] (by decide)

/-- A component of `n + 1` times `a`. -/
def pathAs (n : ℕ) : Path where
  pre := []
  comp := List.replicate (n + 1) 0x61
  post := []
  rest := []
  pre_slash := by simp
  comp_ne_nil := List.cons_ne_nil _ _
  comp_byte c hc := by
    rw [List.eq_of_mem_replicate hc]
    decide
  post_slash := by simp
  rest_of_post _ := rfl
  rest_head := by simp

/-- A memory with that path at 0, so that the path `a` is at `n`, a name at `2 ^ 40`, and the entry
of `a` at `2 ^ 41`. -/
def memAs (n : ℕ) : Mem := fun p ↦ some (if p.toNat ≤ n ∨ p.toNat = 2 ^ 41 then 0x61 else 0)

theorem memAs_apply {n : ℕ} {p : Ptr} : memAs n p =
    some (if p.toNat ≤ n ∨ p.toNat = 2 ^ 41 then 0x61 else 0) := rfl

theorem holds_memAs {n : ℕ} (hn : n < 2 ^ 40) : Holds (memAs n) 0 ((pathAs n).bytes ++ [0]) := by
  have hbytes : (pathAs n).bytes = List.replicate (n + 1) 0x61 := by simp [Path.bytes, pathAs]
  rw [hbytes]
  intro k hk
  rw [length_append, length_replicate, length_singleton] at hk
  rw [memAs_apply, show 0 + k = k by bv_omega]
  by_cases hle : k.toNat ≤ n
  · rw [if_pos (.inl hle), List.getElem?_append_left (by rw [length_replicate]; omega),
      List.getElem?_replicate_of_lt (by omega)]
  · rw [if_neg (by omega), List.getElem?_append_right (by rw [length_replicate]; omega),
      length_replicate, show k.toNat - (n + 1) = 0 by omega]
    rfl

/-- The entry of `a`. -/
theorem holds_memAs_entry {n : ℕ} (hn : n < 2 ^ 40) :
    Holds (memAs n) 0x20000000000 (stored [0x61]) := by
  have hstored : stored [0x61] = 0x61 :: List.replicate 13 0 := by decide
  rw [hstored]
  refine .of_forall_lt fun i hi ↦ ?_
  rw [length_cons, length_replicate] at hi
  have haddr : ((0x20000000000 : Ptr) + BitVec.ofNat 64 i).toNat = 2 ^ 41 + i := by bv_omega
  rw [memAs_apply, haddr]
  cases i with
  | zero => rw [if_pos (.inr rfl)]; rfl
  | succ i =>
    rw [if_neg (by omega), List.getElem?_cons_succ, List.getElem?_replicate_of_lt (by omega)]

theorem fields_memAs {n : ℕ} {l : Path} {path : Ptr} (h : l.At (memAs n) path)
    (hend : path.toNat + l.bytes.length < 2 ^ 40) :
    Fields l (memAs n) path 0x10000000000 0x20000000000 := by
  have hhas : ∀ p k, Has (memAs n) p k := fun p k i _ ↦ rfl
  refine ⟨h, hhas _ _, hhas _ _, by decide, fun i j hi hj ↦ ?_, fun i j hi hj ↦ ?_⟩
  · have hi : i.toNat < 14 := hi
    bv_omega
  · have hi : i.toNat < 14 := hi
    have hj : j.toNat < 14 := hj
    bv_omega

/-- **A component of `2 ^ 32 + 1` bytes is taken for one of a single byte**, so the entry that is
stored for it is found under another name. -/
theorem long_names_disagree : ¬∀ (l l' : Path) (m m' : Mem) (path name de path' name' de' : Ptr),
    Fields l m path name de → Fields l' m' path' name' de' →
      NamesAgree l l' m m' path name de path' name' de' := by
  intro h
  obtain ⟨n, hn⟩ : ∃ n, n = 2 ^ 32 := ⟨_, rfl⟩
  have hn40 : n < 2 ^ 40 := by omega
  have hlen : (pathAs n).len = 1 := by
    rw [Path.len, show (pathAs n).comp.length = n + 1 from List.length_replicate, hn]
    rfl
  have htake : (pathAs n).comp.take (pathAs n).len.toNat = [0x61] := by
    rw [hlen]
    rfl
  have hlong : Fields (pathAs n) (memAs n) 0 0x10000000000 0x20000000000 := by
    have hbytes : (pathAs n).bytes.length = n + 1 := by simp [Path.bytes, pathAs]
    refine fields_memAs ⟨holds_memAs hn40, ?_⟩ ?_ <;>
    · rw [hbytes, show BitVec.toNat (0 : Ptr) = 0 from rfl]
      omega
  have hshort : Fields pathA (memAs n) (BitVec.ofNat 64 n) 0x10000000000 0x20000000000 := by
    have hn64 : (BitVec.ofNat 64 n).toNat = n := by
      rw [BitVec.toNat_ofNat]
      omega
    refine fields_memAs ⟨.of_forall_lt fun i hi ↦ ?_, ?_⟩ ?_
    · have hi : i < 2 := hi
      have haddr : (BitVec.ofNat 64 n + BitVec.ofNat 64 i).toNat = n + i := by bv_omega
      rw [memAs_apply, haddr]
      cases i with
      | zero => rw [if_pos (.inl (le_refl n))]; rfl
      | succ i =>
        rw [if_neg (by omega), show i = 0 by omega]
        rfl
    all_goals
      rw [hn64, show pathA.bytes.length = 1 from rfl]
      omega
  have hagree := h _ _ _ _ _ _ _ _ _ _ hlong hshort
  obtain ⟨-, u, -, hu, -, entry, hentry, hholds, hlookup⟩ :=
    (hlong.wp_createName (by rw [hlen]; decide)).and hagree
  rw [htake] at hu
  have hstored : entry = stored [0x61] := by
    refine hholds.unique ?_ (by rw [hentry, length_stored]) (by rw [hentry]; decide)
    rw [hu]
    exact holds_written
  have hlook := hlookup (hstored ▸ holds_memAs_entry hn40)
  have hfield : Holds (memAs n) 0x20000000000 (field dirsiz [0x61]) := by
    obtain ⟨pad, hpad⟩ := field_prefix_stored [0x61]
    have hheld := holds_memAs_entry hn40
    rw [← hpad] at hheld
    exact hheld.left
  obtain ⟨r, -, -, ⟨hr, -⟩, hr', -⟩ :=
    (hshort.wp_lookupName (by decide) hfield (by decide)).and hlook
  have heq := congrArg List.length (hr'.1 (hr.2 rfl))
  rw [List.length_take, List.length_take, show (pathAs n).comp.length = n + 1 from
    List.length_replicate, show pathA.comp.length = 1 from rfl, show dirsiz = 14 from rfl] at heq
  omega

end Xv6.Strings

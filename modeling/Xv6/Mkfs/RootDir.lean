import Mathlib.Data.List.TakeWhile
import Xv6.Mkfs.Image

/-!
# Lookups in the root directory of the image

The kernel's `dirlookup` reads the entries of a directory one after the other. In the root directory
of an image the first of them are those that `mkfs` has written, and what follows up to the end of
the last block are zeroes, which `dirlookup` skips. `namecmp` compares a name with the one in an
entry as one would expect.
-/

namespace Xv6.Mkfs

open Fs List

/-! ### Names -/

/-- `strncmp` on a name that `strncpy` has stored. -/
theorem strncmp_strncpy (n : ℕ) {s t : List Byte} (hs : 0 ∉ s) (ht : 0 ∉ t) :
    strncmp n s (strncpy n t) = decide (s.take n = t.take n) := by
  induction n generalizing s t with
  | zero => rfl
  | succ n ih =>
    rw [strncmp]
    cases s with
    | nil =>
      rw [if_neg fun h ↦ h.1 rfl]
      cases t with
      | nil => rfl
      | cons b t =>
        have hb : (0 : Byte) ≠ b := fun h ↦ ht (h ▸ mem_cons_self)
        rw [take_succ_cons, take_nil]
        exact (decide_eq_false hb).trans (decide_eq_false (cons_ne_nil _ _).symm).symm
    | cons a s =>
      have ha : a ≠ 0 := fun h ↦ hs (h ▸ mem_cons_self)
      rw [headD_cons, tail_cons, take_succ_cons]
      cases t with
      | nil =>
        have hhead : (strncpy (n + 1) []).headD 0 = 0 := rfl
        rw [hhead, if_neg fun h ↦ h.1 h.2, take_nil]
        exact (decide_eq_false ha).trans (decide_eq_false (cons_ne_nil _ _)).symm
      | cons b t =>
        have htail : (strncpy (n + 1) (b :: t)).tail = strncpy n t := by
          rw [strncpy, take_succ_cons, length_cons, Nat.add_sub_add_right]
          rfl
        have hhead : (strncpy (n + 1) (b :: t)).headD 0 = b := rfl
        have hrec := ih (s := s) (t := t) (fun h ↦ hs (mem_cons_of_mem _ h))
          fun h ↦ ht (mem_cons_of_mem _ h)
        rw [htail, hhead, hrec, take_succ_cons]
        by_cases hab : a = b
        · rw [if_pos ⟨ha, hab⟩, hab]
          simp only [List.cons.injEq, true_and]
        · rw [if_neg fun h ↦ hab h.2]
          simp only [List.cons.injEq, hab, false_and, decide_false]

/-- The kernel's comparison of a name with a directory entry. -/
theorem namecmp_dirent {s t : List Byte} (hs : 0 ∉ s) (ht : 0 ∉ t) (hs' : s.length ≤ dirsiz)
    (ht' : t.length ≤ dirsiz) (inum : ℕ) :
    namecmp s (direntName (dirent inum t)) = decide (s = t) := by
  have hname : direntName (dirent inum t) = strncpy dirsiz t := rfl
  rw [namecmp, hname, strncmp_strncpy dirsiz hs ht, take_of_length_le hs',
    take_of_length_le ht']

theorem direntInum_dirent {inum : ℕ} (h : inum < 2 ^ 16) (name : List Byte) :
    direntInum (dirent inum name) = inum := by
  show (xshort (xshort (.ofNat 16 inum))).toNat = inum
  rw [xshort_eq, xshort_eq, BitVec.toNat_ofNat, Nat.mod_eq_of_lt h]

/-- What is known of the name that a file gets. -/
theorem shortname_spec {path s : List Byte} (h : shortname path = .ok s) :
    (∀ c ∈ s, c ∈ path) ∧ slash ∉ s ∧ s.length ≤ dirsiz := by
  rw [shortname] at h
  dsimp only at h
  generalize hp : (if path.take 5 = userDir then path.drop 5 else path) = p at h
  have hsub : ∀ c ∈ p, c ∈ path := by
    rw [← hp]
    split_ifs
    · exact fun c hc ↦ mem_of_mem_drop hc
    · exact fun c hc ↦ hc
  split_ifs at h with hslash hhead hlen hlen
  · rw [Except.ok.injEq] at h
    subst h
    exact ⟨fun c hc ↦ hsub c (mem_of_mem_tail hc), fun hc ↦ hslash (mem_of_mem_tail hc),
      hlen⟩
  · rw [Except.ok.injEq] at h
    subst h
    exact ⟨hsub, hslash, hlen⟩

/-! ### The loop of `dirlookup` -/

section Loop

variable {d : Disk} {dp : Dinode} {name : List Byte}

/-- Entries that can be read: the first one with the name is found. -/
theorem dirlookupLoop_entries {es : List (ℕ × List Byte)} {k : ℕ} (hnul : 0 ∉ name)
    (hlen : name.length ≤ dirsiz)
    (hes : ∀ e ∈ es, e.1 ≠ 0 ∧ e.1 < 2 ^ 16 ∧ 0 ∉ e.2 ∧ e.2.length ≤ dirsiz)
    (hread : ∀ j e, es[j]? = some e → readi d dp (.ofNat 32 (direntSize * (k + j)))
      (.ofNat 32 direntSize) = .ok (dirent e.1 e.2)) :
    dirlookupLoop d dp name ((List.range' k es.length).map (direntSize * ·)) =
      .ok ((es.find? fun e ↦ name = e.2).map Prod.fst) := by
  induction es generalizing k with
  | nil => rfl
  | cons e es ih =>
    obtain ⟨hne, hlt, hnul', hlen'⟩ := hes e mem_cons_self
    have hhead := hread 0 e rfl
    rw [add_zero] at hhead
    have hnext : ∀ j e', es[j]? = some e' → readi d dp (.ofNat 32 (direntSize * (k + 1 + j)))
        (.ofNat 32 direntSize) = .ok (dirent e'.1 e'.2) := by
      intro j e' hj
      have hj' := hread (j + 1) e' hj
      rwa [show k + (j + 1) = k + 1 + j by omega] at hj'
    have hrest := ih (fun e' he' ↦ hes e' (mem_cons_of_mem _ he')) hnext
    rw [length_cons, List.range'_succ, map_cons, dirlookupLoop, hhead, except_ok_bind,
      if_neg fun h ↦ h (length_dirent _ _), direntInum_dirent hlt, if_neg hne,
      namecmp_dirent hnul hnul' hlen hlen', hrest]
    by_cases hname : name = e.2
    · rw [if_pos (decide_eq_true hname), List.find?_cons_of_pos (by simpa using hname)]
      rfl
    · rw [if_neg (by simpa using hname), List.find?_cons_of_neg (by simpa using hname)]

/-- If every entry can be read then the lookup returns. -/
theorem dirlookupLoop_ok {offs : List ℕ} (hread : ∀ off ∈ offs, ∃ de,
    readi d dp (.ofNat 32 off) (.ofNat 32 direntSize) = .ok de ∧ de.length = direntSize) :
    ∃ r, dirlookupLoop d dp name offs = .ok r := by
  induction offs with
  | nil => exact ⟨none, rfl⟩
  | cons off offs ih =>
    obtain ⟨de, hde, hlen⟩ := hread off mem_cons_self
    have hrest := ih fun off' h' ↦ hread off' (mem_cons_of_mem _ h')
    rw [dirlookupLoop, hde, except_ok_bind, if_neg fun h ↦ h hlen]
    split_ifs
    · exact hrest
    · exact ⟨_, rfl⟩
    · exact hrest

/-- What comes after the entry that is found is not read. -/
theorem dirlookupLoop_append (l₁ l₂ : List ℕ) :
    dirlookupLoop d dp name (l₁ ++ l₂) = (dirlookupLoop d dp name l₁ >>= fun r ↦
      match r with
      | some inum => .ok (some inum)
      | none => dirlookupLoop d dp name l₂) := by
  induction l₁ with
  | nil => rfl
  | cons off l₁ ih =>
    rw [cons_append, dirlookupLoop, dirlookupLoop]
    cases readi d dp (.ofNat 32 off) (.ofNat 32 direntSize) with
    | error e => rfl
    | ok de =>
      simp only [except_ok_bind]
      split_ifs
      · rfl
      · exact ih
      · rfl
      · exact ih

end Loop

/-! ### The entries -/

theorem drop_take_dirBytes {es : List (ℕ × List Byte)} {k : ℕ} {e : ℕ × List Byte}
    (h : es[k]? = some e) :
    ((dirBytes es).drop (direntSize * k)).take direntSize = dirent e.1 e.2 := by
  induction es generalizing k with
  | nil => exact nomatch h
  | cons e' es ih =>
    have hcons : dirBytes (e' :: es) = dirent e'.1 e'.2 ++ dirBytes es := flatMap_cons
    cases k with
    | zero =>
      rw [List.getElem?_cons_zero, Option.some_inj] at h
      rw [hcons, mul_zero, drop_zero, take_left' (length_dirent _ _), h]
    | succ k =>
      have hdrop : direntSize * (k + 1) = (dirent e'.1 e'.2).length + direntSize * k := by
        rw [length_dirent, mul_add, Nat.mul_one, add_comm]
      rw [hcons, hdrop, drop_length_add_append]
      exact ih h

variable {d : Disk} {first : ℕ} {files : List InputFile} {root : File} {fs : List File}

namespace Image

theorem length_root (h : Image d first files root fs) :
    root.bytes.length = direntSize * (files.length + 2) := by
  rw [h.root_bytes, length_dirBytes, length_entries]

/-- An entry that `mkfs` has written is read back. -/
theorem readi_entry (h : Image d first files root fs) {k : ℕ} {e : ℕ × List Byte}
    (he : (entries files)[k]? = some e) :
    readi d (dinode d rootIno) (.ofNat 32 (direntSize * k)) (.ofNat 32 direntSize) =
      .ok (dirent e.1 e.2) := by
  obtain ⟨hk, -⟩ := List.getElem?_eq_some_iff.1 he
  rw [length_entries] at hk
  have hlen := h.length_root
  have hle : direntSize * k + direntSize ≤ root.bytes.length := by
    rw [hlen, ← Nat.mul_add_one]
    exact Nat.mul_le_mul_left _ hk
  have hsize := h.root_size
  have hdiv := Nat.lt_div_mul_add (a := root.bytes.length) (show 0 < bsize by decide)
  rw [add_mul] at hsize
  rw [h.root_maps.readi_of_le (by omega) (le_trans hle h.root_maps.covers)]
  show Except.ok (slice (root.bytes.getD · 0) _ _) = _
  rw [slice_getD _ _ hle, h.root_bytes, drop_take_dirBytes he]

/-- The entries that `mkfs` has written come first. -/
theorem direntOffsets_eq (h : Image d first files root fs) :
    ∃ rest : List ℕ, direntOffsets (dinode d rootIno).size.toNat =
      (List.range (files.length + 2)).map (direntSize * ·) ++ rest.map (direntSize * ·) := by
  have hlen := h.length_root
  have hsize := h.root_size
  have hle : files.length + 2 ≤ ((dinode d rootIno).size.toNat + direntSize - 1) / direntSize := by
    have hd : direntSize = 16 := rfl
    rw [hsize, hd, bsize_eq]
    rw [hd] at hlen
    omega
  obtain ⟨r, hr⟩ := Nat.le.dest hle
  refine ⟨(List.range r).map (files.length + 2 + ·), ?_⟩
  rw [direntOffsets, ← hr, range_add, map_append]

/-- The entries are as the kernel expects them. -/
theorem mem_entries (hcount : files.length + 2 ≤ ninodes)
    (hname : ∀ f ∈ files, ∃ s, shortname f.path = .ok s) {e : ℕ × List Byte}
    (he : e ∈ entries files) : e.1 ≠ 0 ∧ e.1 < 2 ^ 16 ∧ 0 ∉ e.2 ∧ e.2.length ≤ dirsiz := by
  rw [entries, mem_append] at he
  rcases he with he | he
  · rw [mem_cons, mem_singleton] at he
    rcases he with rfl | rfl <;> decide
  · obtain ⟨i, hi, rfl⟩ := mem_mapIdx.1 he
    have hn : ninodes = 200 := rfl
    obtain ⟨s, hs⟩ := hname _ (getElem_mem hi)
    obtain ⟨hsub, -, hlen⟩ := shortname_spec hs
    rw [shortname_eq hs]
    exact ⟨by omega, by dsimp only; omega, fun h0 ↦ files[i].path_ne_nul (hsub 0 h0), hlen⟩

/-- The lookup of a name among the entries that `mkfs` has written. -/
theorem dirlookup_entries (h : Image d first files root fs) (hcount : files.length + 2 ≤ ninodes)
    (hname : ∀ f ∈ files, ∃ s, shortname f.path = .ok s) {name : List Byte} (hnul : 0 ∉ name)
    (hlen : name.length ≤ dirsiz) :
    dirlookupLoop d (dinode d rootIno) name
        ((List.range (files.length + 2)).map (direntSize * ·)) =
      .ok (((entries files).find? fun e ↦ name = e.2).map Prod.fst) := by
  rw [range_eq_range', ← length_entries]
  refine dirlookupLoop_entries hnul hlen (fun e he ↦ mem_entries hcount hname he) fun j e hj ↦ ?_
  rw [zero_add]
  exact h.readi_entry hj

/-- **A lookup finds the first entry with the name.** -/
theorem dirlookup_eq (h : Image d first files root fs) (hcount : files.length + 2 ≤ ninodes)
    (hname : ∀ f ∈ files, ∃ s, shortname f.path = .ok s) {k : ℕ} {e : ℕ × List Byte}
    (he : (entries files)[k]? = some e)
    (hfirst : ∀ j < k, ∀ e', (entries files)[j]? = some e' → e'.2 ≠ e.2) :
    dirlookup d (dinode d rootIno) e.2 = .ok (some e.1) := by
  obtain ⟨rest, hoffs⟩ := h.direntOffsets_eq
  obtain ⟨hk, hke⟩ := List.getElem?_eq_some_iff.1 he
  obtain ⟨-, -, hnul, hlen⟩ := mem_entries hcount hname (mem_of_getElem? he)
  have hfind : (entries files).find? (fun e' ↦ e.2 = e'.2) = some e := by
    refine List.find?_eq_some_iff_getElem.2 ⟨decide_eq_true rfl, k, hk, hke, fun j hj ↦ ?_⟩
    have hne := hfirst j hj _ (List.getElem?_eq_getElem (lt_trans hj hk))
    simpa using fun heq ↦ hne heq.symm
  rw [dirlookup, if_neg (by rw [h.root_maps.type, h.root_type]; exact fun hn ↦ hn rfl), hoffs,
    dirlookupLoop_append, h.dirlookup_entries hcount hname hnul hlen, hfind]
  rfl

/-- A path of one element from the root. -/
theorem namei_slash (h : Image d first files root fs) {name : List Byte} {inum : ℕ}
    (hne : name ≠ []) (hslash : slash ∉ name) (hlen : name.length ≤ dirsiz)
    (hlook : dirlookup d (dinode d rootIno) name = .ok (some inum)) (cwd : ℕ) :
    namei d cwd (slash :: name) = .ok (some inum) := by
  have hskip : skipelem (slash :: name) = some (name, []) := by
    have hdrop : (slash :: name).dropWhile (· = slash) = name := by
      obtain ⟨c, s, rfl⟩ := exists_cons_of_ne_nil hne
      rw [dropWhile_cons_of_pos (by simp), dropWhile_cons_of_neg]
      simpa using fun hc : c = slash ↦ hslash (hc ▸ mem_cons_self)
    have hall : ∀ c ∈ name, decide (c ≠ slash) = true := by
      intro c hc
      simpa using fun heq : c = slash ↦ hslash (heq ▸ hc)
    rw [skipelem, hdrop, if_neg hne, takeWhile_eq_self_iff.2 hall,
      dropWhile_eq_nil_iff.2 hall, take_of_length_le hlen]
    rfl
  have htype : (dinode d rootIno).type = tDir := by rw [h.root_maps.type, h.root_type]
  have hstart : (slash :: name).head? = some slash := rfl
  rw [namei, if_pos hstart, namexLoop]
  split
  · next hs => exact nomatch hskip.symm.trans hs
  · next name' rest hs =>
    obtain ⟨rfl, rfl⟩ := Prod.mk.inj (Option.some.inj (hskip.symm.trans hs))
    rw [ilock, if_neg (by rw [htype]; decide), except_ok_bind, if_neg fun hn ↦ hn htype, hlook,
      except_ok_bind]
    dsimp only
    rw [namexLoop]
    rfl

end Image

end Xv6.Mkfs

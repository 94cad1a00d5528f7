import Mathlib.Algebra.BigOperators.Ring.Finset
import Mathlib.Data.Fintype.BigOperators
import Xv6.Fs.Kernel.Files

/-!
# The inode table

What `iget`, `ilock`, `iunlock` and `iput` do to the entries of the table. An entry that is in use
is the only one for its inode, and what it has of the inode is what is on disk (`Table`). References
are counted by inode (`refs`), as an entry that is given back may be taken for another inode.

`Refs s t f` compares a later state with an earlier one: there are `f i` references more to inode
`i`, and every entry that was in use then still is, for the same inode. Where `f i` is positive a
reference to `i` can be given back, and `iput` frees no inode that has a link or was in use in `s`.
-/

namespace Xv6.Fs.Kernel

open Finset

variable {E : Panic → Prop} {sb : Superblock} {s t u : Kfs} {ip e : Slot} {i j : ℕ}

/-! ### Locks -/

/-- The inode that `ilock` finds in an entry, or reads into it. -/
def current (sb : Superblock) (s : Kfs) (ip : Slot) : Dinode :=
  if (s.inode ip).valid then (s.inode ip).din else dinode sb s.disk (s.inode ip).inum

/-- The state after `ilock`. -/
def Kfs.lock (sb : Superblock) (s : Kfs) (ip : Slot) : Kfs :=
  s.setInode ip { s.inode ip with locked := true, valid := true, din := current sb s ip }

/-- The state after `iunlock`. -/
def Kfs.unlock (s : Kfs) (ip : Slot) : Kfs :=
  s.setInode ip { s.inode ip with locked := false }

theorem wpe_ilock {Q : Unit → Kfs → Prop} (href : 1 ≤ (s.inode ip).ref)
    (hfree : (s.inode ip).locked = false)
    (htype : E .ilockNoType ∨ (s.inode ip).valid = true ∨ (current sb s ip).type ≠ 0)
    (hQ : (s.inode ip).valid = true ∨ (current sb s ip).type ≠ 0 → Q () (s.lock sb ip)) :
    wpe E (ilock sb ip) Q s := by
  rw [ilock, wpe_bind, wpe_inode, wpe_ite]
  refine ⟨fun h ↦ absurd href (by omega), fun _ ↦ ?_⟩
  rw [wpe_bind, acquiresleep, wpe_bind, wpe_inode, wpe_ite]
  refine ⟨fun h ↦ absurd h (by rw [hfree]; decide), fun _ ↦ ?_⟩
  rw [wpe_modifyInode, iread, wpe_bind, wpe_inode, setInode_inode_self, wpe_ite, wpe_pure]
  refine ⟨fun hv ↦ ?_, fun hv ↦ ?_⟩
  · have hlock : s.lock sb ip = s.setInode ip { s.inode ip with locked := true } := by
      rw [Kfs.lock, current, if_pos hv, ← hv]
    rw [← hlock]
    exact hQ (.inl hv)
  · have hcur : current sb s ip = dinode sb s.disk (s.inode ip).inum := by rw [current, if_neg hv]
    rw [hcur] at htype hQ
    rw [wpe_bind, wpe_bread, wpe_bind, wpe_modifyInode, setInode_setInode, setInode_inode_self,
      wpe_ite, wpe_pure, wpe_throw]
    refine ⟨fun h0 ↦ ?_, fun h0 ↦ ?_⟩
    · rcases htype with hE | h | h
      · exact hE
      · exact absurd h hv
      · exact absurd h0 h
    · have hQ' := hQ (.inr h0)
      rwa [Kfs.lock, hcur] at hQ'

theorem wpe_iunlock {Q : Unit → Kfs → Prop} (hlocked : (s.inode ip).locked = true)
    (href : 1 ≤ (s.inode ip).ref) (hQ : Q () (s.unlock ip)) : wpe E (iunlock ip) Q s := by
  rw [iunlock, wpe_bind, wpe_inode, wpe_ite]
  refine ⟨fun h ↦ ?_, fun _ ↦ hQ⟩
  rcases h with h | h
  · exact absurd (hlocked.symm.trans h) (by decide)
  · omega

/-! ### Entries and references -/

/-- The number of references to an inode. -/
def refs (s : Kfs) (i : ℕ) : ℤ := ∑ e, if (s.inode e).inum = i then (s.inode e).ref else 0

/-- The entries of the table when those in `L` are locked. -/
structure Table (sb : Superblock) (s : Kfs) (L : Finset Slot) : Prop where
  nonneg : ∀ e, 0 ≤ (s.inode e).ref
  /-- There is one entry for an inode. -/
  unique : ∀ e e', 0 < (s.inode e).ref → 0 < (s.inode e').ref →
    (s.inode e).inum = (s.inode e').inum → e = e'
  lt : ∀ e, 0 < (s.inode e).ref → (s.inode e).inum < sb.ninodes
  /-- What was read is as on disk. -/
  din : ∀ e, 0 < (s.inode e).ref → (s.inode e).valid = true →
    (s.inode e).din = dinode sb s.disk (s.inode e).inum ∧ (s.inode e).din.type ≠ 0
  locked : ∀ e, (s.inode e).locked = true ↔ e ∈ L

/-- From `s` to `t` there are `f i` references more to inode `i`, and no entry was lost. -/
structure Refs (s t : Kfs) (f : ℕ → ℤ) : Prop where
  refs : ∀ i, refs t i = refs s i + f i
  kept : ∀ e, 0 < (s.inode e).ref → 0 < (t.inode e).ref ∧ (t.inode e).inum = (s.inode e).inum ∧
    ((s.inode e).valid = true → (t.inode e).valid = true)
  aside : Aside s t

theorem refs_setInode (s : Kfs) (e : Slot) (p : Inode) (i : ℕ) : refs (s.setInode e p) i =
    refs s i - (if (s.inode e).inum = i then (s.inode e).ref else 0) +
      if p.inum = i then p.ref else 0 := by
  have hsplit : ∀ s : Kfs, refs s i = (if (s.inode e).inum = i then (s.inode e).ref else 0) +
      ∑ e' ∈ Finset.univ.erase e, if (s.inode e').inum = i then (s.inode e').ref else 0 :=
    fun s ↦ (add_sum_erase _ _ (mem_univ e)).symm
  have hrest : ∑ e' ∈ Finset.univ.erase e, (if ((s.setInode e p).inode e').inum = i then
      ((s.setInode e p).inode e').ref else 0) =
      ∑ e' ∈ Finset.univ.erase e, if (s.inode e').inum = i then (s.inode e').ref else 0 := by
    refine sum_congr rfl fun e' he' ↦ ?_
    rw [setInode_inode_of_ne (ne_of_mem_erase he')]
  rw [hsplit (s.setInode e p), hrest, hsplit s, setInode_inode_self]
  omega

namespace Table

variable {L : Finset Slot}

theorem unlocked (h : Table sb s L) (he : e ∉ L) : (s.inode e).locked = false :=
  Bool.eq_false_iff.2 fun hl ↦ he ((h.locked e).1 hl)

/-- The references to an inode in the table. -/
theorem refs_eq (h : Table sb s L) (he : 0 < (s.inode e).ref) :
    refs s (s.inode e).inum = (s.inode e).ref := by
  rw [refs, sum_eq_single e]
  · exact if_pos rfl
  · intro e' _ hne
    split_ifs with hinum
    · by_contra h0
      exact hne (h.unique e' e (lt_of_le_of_ne (h.nonneg e') (Ne.symm h0)) he hinum)
    · rfl
  · exact fun h ↦ absurd (mem_univ e) h

theorem refs_nonneg (h : Table sb s L) (i : ℕ) : 0 ≤ refs s i := by
  refine sum_nonneg fun e _ ↦ ?_
  split_ifs
  · exact h.nonneg e
  · exact le_rfl

theorem refs_pos_iff (h : Table sb s L) :
    0 < refs s i ↔ ∃ e, 0 < (s.inode e).ref ∧ (s.inode e).inum = i := by
  refine ⟨fun hpos ↦ ?_, fun ⟨e, he, hi⟩ ↦ ?_⟩
  · by_contra hno
    have hzero : refs s i = 0 := sum_eq_zero fun e _ ↦ by
      split_ifs with hi
      · by_contra h0
        exact hno ⟨e, lt_of_le_of_ne (h.nonneg e) (Ne.symm h0), hi⟩
      · rfl
    omega
  · rw [← hi, h.refs_eq he]
    exact he

end Table

theorem Refs.trans {f g : ℕ → ℤ} (h : Refs s t f) (h' : Refs t u g) : Refs s u (f + g) := by
  refine ⟨fun i ↦ ?_, fun e he ↦ ?_, h.aside.trans h'.aside⟩
  · rw [h'.refs, h.refs, Pi.add_apply, add_assoc]
  · obtain ⟨h₁, h₂, h₃⟩ := h.kept e he
    obtain ⟨h₁', h₂', h₃'⟩ := h'.kept e h₁
    exact ⟨h₁', h₂'.trans h₂, h₃' ∘ h₃⟩

/-! ### Locking and unlocking -/

section

variable {L L' : Finset Slot} {f : ℕ → ℤ}

/-- Another entry in the table. -/
theorem Table.setInode (h : Table sb s L) {p : Inode} (hnonneg : 0 ≤ p.ref)
    (huse : 0 < p.ref → p.inum < sb.ninodes ∧
      (∀ e' ≠ e, 0 < (s.inode e').ref → (s.inode e').inum ≠ p.inum) ∧
      (p.valid = true → p.din = dinode sb s.disk p.inum ∧ p.din.type ≠ 0))
    (hlocked : ∀ e', ((s.setInode e p).inode e').locked = true ↔ e' ∈ L') :
    Table sb (s.setInode e p) L' := by
  refine ⟨fun e' ↦ ?_, fun e₁ e₂ h₁ h₂ h₁₂ ↦ ?_, fun e' he' ↦ ?_, fun e' he' hv ↦ ?_, hlocked⟩
  · by_cases hee : e' = e
    · rwa [hee, setInode_inode_self]
    · rw [setInode_inode_of_ne hee]
      exact h.nonneg e'
  · by_cases hee₁ : e₁ = e <;> by_cases hee₂ : e₂ = e
    · rw [hee₁, hee₂]
    · rw [hee₁, setInode_inode_self] at h₁ h₁₂
      rw [setInode_inode_of_ne hee₂] at h₂ h₁₂
      exact absurd h₁₂.symm ((huse h₁).2.1 e₂ hee₂ h₂)
    · rw [hee₂, setInode_inode_self] at h₂ h₁₂
      rw [setInode_inode_of_ne hee₁] at h₁ h₁₂
      exact absurd h₁₂ ((huse h₂).2.1 e₁ hee₁ h₁)
    · rw [setInode_inode_of_ne hee₁] at h₁ h₁₂
      rw [setInode_inode_of_ne hee₂] at h₂ h₁₂
      exact h.unique e₁ e₂ h₁ h₂ h₁₂
  · by_cases hee : e' = e
    · rw [hee, setInode_inode_self] at he' ⊢
      exact (huse he').1
    · rw [setInode_inode_of_ne hee] at he' ⊢
      exact h.lt e' he'
  · by_cases hee : e' = e
    · rw [hee, setInode_inode_self] at he' hv ⊢
      exact (huse he').2.2 hv
    · rw [setInode_inode_of_ne hee] at he' hv ⊢
      exact h.din e' he' hv

/-- An entry in use is not the entry of another inode. -/
theorem Table.inum_ne (h : Table sb s L) (he : 0 < (s.inode e).ref) (e' : Slot) (hne : e' ≠ e)
    (he' : 0 < (s.inode e').ref) : (s.inode e').inum ≠ (s.inode e).inum := fun heq ↦
  hne (h.unique e' e he' he heq)

/-- An entry that stays for its inode, with as many references. -/
theorem Refs.setInode {p : Inode} (hinum : p.inum = (s.inode e).inum)
    (href : p.ref = (s.inode e).ref)
    (hvalid : (s.inode e).valid = true → p.valid = true) : Refs s (s.setInode e p) 0 := by
  refine ⟨fun i ↦ ?_, fun e' he' ↦ ?_, ⟨rfl, rfl, rfl⟩⟩
  · rw [refs_setInode, hinum, href, Pi.zero_apply]
    omega
  · by_cases hee : e' = e
    · rw [hee, setInode_inode_self, hinum, href]
      rw [hee] at he'
      exact ⟨he', rfl, hvalid⟩
    · rw [setInode_inode_of_ne hee]
      exact ⟨he', rfl, id⟩

theorem Table.current_eq (h : Table sb s L) (he : 0 < (s.inode e).ref) :
    current sb s e = dinode sb s.disk (s.inode e).inum := by
  rw [current]
  split_ifs with hv
  · exact (h.din e he hv).1
  · rfl

/-- What `ilock` has locked is allocated. -/
theorem Table.type_ne (h : Table sb s L) (he : 0 < (s.inode e).ref)
    (hlock : (s.inode e).valid = true ∨ (current sb s e).type ≠ 0) :
    (dinode sb s.disk (s.inode e).inum).type ≠ 0 := by
  rcases hlock with hv | htype
  · rw [← (h.din e he hv).1]
    exact (h.din e he hv).2
  · rwa [h.current_eq he] at htype

/-- An entry that was read is loaded. -/
theorem Table.loaded (h : Table sb s L) (hsound : Sound sb s.disk (dinode sb s.disk) ∅)
    (he : 0 < (s.inode e).ref) (hv : (s.inode e).valid = true) :
    Loaded sb s e (s.inode e).inum := by
  obtain ⟨hdin, htype⟩ := h.din e he hv
  exact ⟨hsound, h.lt e he, rfl, hdin, by rwa [← hdin]⟩

theorem Table.lock (h : Table sb s L) (he : 0 < (s.inode e).ref)
    (htype : (dinode sb s.disk (s.inode e).inum).type ≠ 0) :
    Table sb (s.lock sb e) (insert e L) := by
  have hcur := h.current_eq he
  refine h.setInode he.le (fun _ ↦ ⟨h.lt e he, h.inum_ne he, fun _ ↦ ?_⟩) fun e' ↦ ?_
  · show current sb s e = _ ∧ (current sb s e).type ≠ 0
    rw [hcur]
    exact ⟨rfl, htype⟩
  · rw [mem_insert]
    by_cases hee : e' = e
    · rw [hee, setInode_inode_self]
      exact ⟨fun _ ↦ .inl rfl, fun _ ↦ rfl⟩
    · rw [setInode_inode_of_ne hee, h.locked e']
      exact ⟨.inr, fun h ↦ h.resolve_left hee⟩

theorem Refs.lock (sb : Superblock) (s : Kfs) (e : Slot) : Refs s (s.lock sb e) 0 :=
  .setInode rfl rfl fun _ ↦ rfl

theorem Table.unlock (h : Table sb s L) (he : 0 < (s.inode e).ref) :
    Table sb (s.unlock e) (L.erase e) := by
  refine h.setInode he.le (fun _ ↦ ⟨h.lt e he, h.inum_ne he, h.din e he⟩) fun e' ↦ ?_
  rw [mem_erase]
  by_cases hee : e' = e
  · rw [hee, setInode_inode_self]
    exact ⟨nofun, fun h ↦ absurd rfl h.1⟩
  · rw [setInode_inode_of_ne hee, h.locked e']
    exact ⟨fun h ↦ ⟨hee, h⟩, fun h ↦ h.2⟩

theorem Refs.unlock (s : Kfs) (e : Slot) : Refs s (s.unlock e) 0 := .setInode rfl rfl id

/-! ### Taking and giving back references -/

/-- The state after an `iput` that frees nothing. -/
def Kfs.drop (s : Kfs) (e : Slot) : Kfs :=
  s.setInode e { s.inode e with ref := (s.inode e).ref - 1 }

theorem wpe_iput {Q : Unit → Kfs → Prop}
    (hkeep : ¬((s.inode e).ref = 1 ∧ (s.inode e).valid = true ∧ (s.inode e).din.nlink = 0))
    (hQ : Q () (s.drop e)) : wpe E (iput sb e) Q s := by
  rw [iput, wpe_bind, wpe_inode, wpe_ite]
  exact ⟨fun h ↦ absurd h hkeep, fun _ ↦ hQ⟩

theorem Table.drop (h : Table sb s L) (he : 0 < (s.inode e).ref) : Table sb (s.drop e) L := by
  refine h.setInode (Int.sub_nonneg_of_le he) (fun _ ↦ ⟨h.lt e he, h.inum_ne he, h.din e he⟩)
    fun e' ↦ ?_
  by_cases hee : e' = e
  · rw [hee, setInode_inode_self]
    exact h.locked e
  · rw [setInode_inode_of_ne hee]
    exact h.locked e'

/-- A reference that was taken after `s` is given back. -/
theorem Refs.drop (hs : Table sb s L') (ht : Table sb t L) (h : Refs s t f)
    (he : 0 < (t.inode e).ref) (hf : 1 ≤ f (t.inode e).inum) :
    Refs s (t.drop e) (f - Pi.single (t.inode e).inum 1) := by
  refine ⟨fun i ↦ ?_, fun e' he' ↦ ?_, ⟨h.aside.file, h.aside.user, h.aside.cwd⟩⟩
  · rw [Kfs.drop, refs_setInode, h.refs, Pi.sub_apply, Pi.single_apply]
    dsimp only
    by_cases hi : i = (t.inode e).inum
    · rw [if_pos hi.symm, if_pos hi.symm, if_pos hi]
      omega
    · rw [if_neg (Ne.symm hi), if_neg (Ne.symm hi), if_neg hi]
      omega
  · obtain ⟨hpos, hinum, hvalid⟩ := h.kept e' he'
    by_cases hee : e' = e
    · subst hee
      have href := h.refs (t.inode e').inum
      rw [ht.refs_eq hpos, hinum, hs.refs_eq he'] at href
      rw [hinum] at hf
      rw [Kfs.drop, setInode_inode_self]
      exact ⟨show 0 < (t.inode e').ref - 1 by omega, hinum, hvalid⟩
    · rw [Kfs.drop, setInode_inode_of_ne hee]
      exact ⟨hpos, hinum, hvalid⟩

/-- An inode that has a link, or was in use before, is not freed. -/
theorem Refs.wpe_iput {Q : Unit → Kfs → Prop} (ht : Table sb t L) (h : Refs s t f)
    (he : 0 < (t.inode e).ref) (hf : 1 ≤ f (t.inode e).inum)
    (hlink : (dinode sb t.disk (t.inode e).inum).type ≠ 0 →
      (dinode sb t.disk (t.inode e).inum).nlink ≠ 0 ∨ 0 < Kernel.refs s (t.inode e).inum)
    (hQ : Q () (t.drop e)) : wpe E (iput sb e) Q t := by
  refine Kernel.wpe_iput (fun ⟨h1, hv, h0⟩ ↦ ?_) hQ
  obtain ⟨hdin, htype⟩ := ht.din e he hv
  rw [hdin] at h0 htype
  rcases hlink htype with hlink | hlink
  · exact hlink h0
  · have href := h.refs (t.inode e).inum
    rw [ht.refs_eq he] at href
    omega

/-- The state after an `iunlockput` that frees nothing. -/
def Kfs.put (s : Kfs) (e : Slot) : Kfs := (s.unlock e).drop e

theorem put_inode_self (s : Kfs) (e : Slot) : (s.put e).inode e =
    { s.inode e with locked := false, ref := (s.inode e).ref - 1 } := by
  rw [Kfs.put, Kfs.drop, setInode_inode_self, Kfs.unlock, setInode_inode_self]

theorem put_inode_of_ne {e' : Slot} (h : e' ≠ e) : (s.put e).inode e' = s.inode e' := by
  rw [Kfs.put, Kfs.drop, setInode_inode_of_ne h, Kfs.unlock, setInode_inode_of_ne h]

theorem Refs.wpe_iunlockput {Q : Unit → Kfs → Prop} (ht : Table sb t L) (h : Refs s t f)
    (hlocked : e ∈ L) (he : 0 < (t.inode e).ref) (hf : 1 ≤ f (t.inode e).inum)
    (hlink : (dinode sb t.disk (t.inode e).inum).type ≠ 0 →
      (dinode sb t.disk (t.inode e).inum).nlink ≠ 0 ∨ 0 < Kernel.refs s (t.inode e).inum)
    (hQ : Q () (t.put e)) : wpe E (iunlockput sb e) Q t := by
  have hslot : (t.unlock e).inode e = { t.inode e with locked := false } := setInode_inode_self _
  have hrefs := h.trans (.unlock t e)
  rw [add_zero] at hrefs
  rw [iunlockput, wpe_bind]
  refine wpe_iunlock ((ht.locked e).2 hlocked) he (hrefs.wpe_iput (ht.unlock he) ?_ ?_ ?_ hQ)
  · rw [hslot]
    exact he
  · rw [hslot]
    exact hf
  · rw [hslot]
    exact hlink

theorem Table.put (h : Table sb s L) (he : 0 < (s.inode e).ref) :
    Table sb (s.put e) (L.erase e) := by
  refine (h.unlock he).drop ?_
  rw [Kfs.unlock, setInode_inode_self]
  exact he

theorem Refs.put (hs : Table sb s L') (ht : Table sb t L) (h : Refs s t f)
    (he : 0 < (t.inode e).ref) (hf : 1 ≤ f (t.inode e).inum) :
    Refs s (t.put e) (f - Pi.single (t.inode e).inum 1) := by
  have hslot : (t.unlock e).inode e = { t.inode e with locked := false } := setInode_inode_self _
  have hrefs := h.trans (.unlock t e)
  rw [add_zero] at hrefs
  have hdrop := hrefs.drop hs (ht.unlock he) (e := e) (by rw [hslot]; exact he)
    (by rw [hslot]; exact hf)
  rwa [hslot] at hdrop

/-- Another entry stays in use, and so does this one if two references to it were taken. -/
theorem Refs.put_pos {e' : Slot} (hs : Table sb s L') (ht : Table sb t L) (h : Refs s t f)
    (he' : 0 < (t.inode e').ref) (hf : e' = e → 2 ≤ f (t.inode e).inum) :
    0 < ((t.put e).inode e').ref ∧ ((t.put e).inode e').inum = (t.inode e').inum := by
  by_cases hee : e' = e
  · have hge := hf hee
    subst hee
    have href := h.refs (t.inode e').inum
    rw [ht.refs_eq he'] at href
    have hnonneg := hs.refs_nonneg (t.inode e').inum
    rw [put_inode_self]
    exact ⟨show 0 < (t.inode e').ref - 1 by omega, rfl⟩
  · rw [put_inode_of_ne hee]
    exact ⟨he', rfl⟩

/-- An entry for `i` gets one more reference, and is now for `i` if it was not in use. -/
theorem Refs.iget {p : Inode} (hinum : p.inum = i)
    (h : 0 < (s.inode e).ref ∧ (s.inode e).inum = i ∧ p.ref = (s.inode e).ref + 1 ∧
        p.valid = (s.inode e).valid ∨ (s.inode e).ref = 0 ∧ p.ref = 1) :
    Refs s (s.setInode e p) (Pi.single i 1) := by
  refine ⟨fun j ↦ ?_, fun e' he' ↦ ?_, ⟨rfl, rfl, rfl⟩⟩
  · rw [refs_setInode, Pi.single_apply, hinum]
    rcases h with ⟨-, hi, hp, -⟩ | ⟨h0, hp⟩
    · rw [hi, hp]
      by_cases hj : j = i
      · rw [if_pos hj.symm, if_pos hj.symm, if_pos hj]
        omega
      · rw [if_neg (Ne.symm hj), if_neg (Ne.symm hj), if_neg hj]
        omega
    · rw [h0, hp, ite_self]
      by_cases hj : j = i
      · rw [if_pos hj.symm, if_pos hj]
        omega
      · rw [if_neg (Ne.symm hj), if_neg hj]
        omega
  · by_cases hee : e' = e
    · subst hee
      rw [setInode_inode_self, hinum]
      rcases h with ⟨-, hi, hp, hv⟩ | ⟨h0, -⟩
      · exact ⟨by omega, hi.symm, fun h ↦ hv.trans h⟩
      · omega
    · rw [setInode_inode_of_ne hee]
      exact ⟨he', rfl, id⟩

/-- The table when the entry `e` has become `p`, with one more reference to `i`. -/
theorem Table.refer (h : Table sb s L) {p : Inode} (hi : i < sb.ninodes) (hinum : p.inum = i)
    (hlocked : p.locked = (s.inode e).locked)
    (hcase : 0 < (s.inode e).ref ∧ (s.inode e).inum = i ∧ p.ref = (s.inode e).ref + 1 ∧
      p.valid = (s.inode e).valid ∨ (s.inode e).ref = 0 ∧ p.ref = 1)
    (hne : ∀ e' ≠ e, 0 < (s.inode e').ref → (s.inode e').inum ≠ i)
    (hdin : p.valid = true → p.din = dinode sb s.disk i ∧ p.din.type ≠ 0) :
    Table sb (s.setInode e p) L ∧ Refs s (s.setInode e p) (Pi.single i 1) ∧
      (s.setInode e p).disk = s.disk ∧ 0 < ((s.setInode e p).inode e).ref ∧
      ((s.setInode e p).inode e).inum = i := by
  have hpos : 0 < p.ref := by omega
  refine ⟨h.setInode hpos.le (fun _ ↦ ?_) fun e' ↦ ?_, .iget hinum hcase, rfl, ?_, ?_⟩
  · rw [hinum]
    exact ⟨hi, hne, hdin⟩
  · rw [← h.locked e']
    by_cases hee : e' = e
    · rw [hee, setInode_inode_self, hlocked]
    · rw [setInode_inode_of_ne hee]
  · rwa [setInode_inode_self]
  · rwa [setInode_inode_self]

/-- **`idup`**: one more reference to the inode of an entry. -/
theorem Table.idup (h : Table sb s L) (he : 0 < (s.inode e).ref) (hinum : (s.inode e).inum = i) :
    wpe E (Kernel.idup e) (fun e' t ↦ Table sb t L ∧ Refs s t (Pi.single i 1) ∧ t.disk = s.disk ∧
      0 < (t.inode e').ref ∧ (t.inode e').inum = i) s := by
  rw [Kernel.idup, wpe_bind, wpe_modifyInode, wpe_pure]
  subst hinum
  exact h.refer (h.lt e he) rfl rfl (.inl ⟨he, rfl, rfl, rfl⟩) (h.inum_ne he) (h.din e he)

/-- **`iget`**: one more reference to an inode. -/
theorem Table.iget (h : Table sb s L) (hi : i < sb.ninodes)
    (hroom : E .igetNoInodes ∨ ∃ e, (s.inode e).ref = 0) :
    wpe E (Kernel.iget i) (fun e t ↦ Table sb t L ∧ Refs s t (Pi.single i 1) ∧ t.disk = s.disk ∧
      0 < (t.inode e).ref ∧ (t.inode e).inum = i) s := by
  rw [Kernel.iget, wpe_bind, wpe_get]
  cases hfind : (List.finRange ninode).find? fun e ↦
      decide (0 < (s.inode e).ref ∧ (s.inode e).inum = i) with
  | some e =>
    have hfound := List.find?_some hfind
    obtain ⟨hpos, hinum⟩ := of_decide_eq_true hfound
    exact h.idup hpos hinum
  | none =>
    have hnone : ∀ e, 0 < (s.inode e).ref → (s.inode e).inum ≠ i := fun e he hinum ↦
      List.find?_eq_none.1 hfind e (List.mem_finRange e) (decide_eq_true ⟨he, hinum⟩)
    dsimp only
    cases hfree : (List.finRange ninode).find? fun e ↦ decide ((s.inode e).ref = 0) with
    | some e =>
      have hfound := List.find?_some hfree
      have h0 := of_decide_eq_true hfound
      dsimp only
      rw [wpe_bind, wpe_modifyInode, wpe_pure]
      exact h.refer hi rfl rfl (.inr ⟨h0, rfl⟩) (fun e' _ ↦ hnone e') nofun
    | none =>
      rcases hroom with hE | ⟨e, h0⟩
      · exact hE
      · exact absurd (decide_eq_true h0) (List.find?_eq_none.1 hfree e (List.mem_finRange e))

/-! ### Changes to one inode, and the table -/

/-- The other entries of the table are for other inodes. -/
theorem Edits.table (h : Edits sb s t ip i) (ht : Table sb s L) (hip : 0 < (s.inode ip).ref) :
    Table sb t L := by
  have hinum : (s.inode ip).inum = i := by
    have hi := h.loaded.inum
    rwa [h.slot] at hi
  have href : ∀ e, (t.inode e).ref = (s.inode e).ref ∧ (t.inode e).inum = (s.inode e).inum ∧
      (t.inode e).locked = (s.inode e).locked ∧ (t.inode e).valid = (s.inode e).valid := fun e ↦ by
    by_cases he : e = ip
    · rw [he, h.slot]
      exact ⟨rfl, rfl, rfl, rfl⟩
    · rw [h.others e he]
      exact ⟨rfl, rfl, rfl, rfl⟩
  refine ⟨fun e ↦ ?_, fun e e' he he' hee ↦ ?_, fun e he ↦ ?_, fun e he hv ↦ ?_, fun e ↦ ?_⟩
  · rw [(href e).1]
    exact ht.nonneg e
  · rw [(href e).1] at he
    rw [(href e').1] at he'
    rw [(href e).2.1, (href e').2.1] at hee
    exact ht.unique e e' he he' hee
  · rw [(href e).1] at he
    rw [(href e).2.1]
    exact ht.lt e he
  · rw [(href e).1] at he
    rw [(href e).2.2.2] at hv
    by_cases hip' : e = ip
    · rw [hip', h.loaded.inum, h.loaded.din]
      exact ⟨rfl, h.loaded.type_ne⟩
    · have hne := ht.inum_ne hip e hip' he
      rw [hinum] at hne
      rw [h.others e hip', h.dinode _ (ht.lt e he) hne]
      exact ht.din e he hv
  · rw [(href e).2.2.1]
    exact ht.locked e

theorem Edits.refs (h : Edits sb s t ip i) : Refs s t 0 := by
  refine ⟨fun j ↦ ?_, fun e he ↦ ?_, h.aside⟩
  · rw [Pi.zero_apply, add_zero]
    refine sum_congr rfl fun e _ ↦ ?_
    by_cases he : e = ip
    · rw [he, h.slot]
    · rw [h.others e he]
  · by_cases hip : e = ip
    · rw [hip] at he ⊢
      rw [h.slot]
      exact ⟨he, rfl, id⟩
    · rw [h.others e hip]
      exact ⟨he, rfl, id⟩

end

theorem table_small (user : View) : Table smallSb (small user) ∅ := by
  have hentry : ∀ e : Slot, 0 ≤ ((small fun _ ↦ none).inode e).ref ∧
      (0 < ((small fun _ ↦ none).inode e).ref → ((small fun _ ↦ none).inode e).inum < 3) ∧
      (0 < ((small fun _ ↦ none).inode e).ref → ((small fun _ ↦ none).inode e).valid = true →
        ((small fun _ ↦ none).inode e).din =
            dinode smallSb smallDisk ((small fun _ ↦ none).inode e).inum ∧
          ((small fun _ ↦ none).inode e).din.type ≠ 0) ∧
      ((small fun _ ↦ none).inode e).locked = false := by decide +kernel
  have hunique : ∀ e e' : Slot, 0 < ((small fun _ ↦ none).inode e).ref →
      0 < ((small fun _ ↦ none).inode e').ref →
      ((small fun _ ↦ none).inode e).inum = ((small fun _ ↦ none).inode e').inum → e = e' := by
    decide +kernel
  refine ⟨fun e ↦ (hentry e).1, hunique, fun e ↦ (hentry e).2.1, fun e ↦ (hentry e).2.2.1,
    fun e ↦ ⟨fun h ↦ ?_, fun h ↦ absurd h (notMem_empty e)⟩⟩
  exact absurd ((hentry e).2.2.2.symm.trans h) Bool.false_ne_true

end Xv6.Fs.Kernel

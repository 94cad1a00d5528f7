import Mathlib.Data.Finset.Card
import Xv6.Fs.Kernel.Sound

/-!
# Allocating blocks

What `balloc`, `bfree` and `bmap` do to a sound file system. `balloc` is described exactly, on any
disk (`balloc_eq`): it takes the first block whose bit is clear. On a sound file system this is a
block of the data area that is nowhere else, and `bmap` gives it a place of its inode (`Mapped`).
-/

namespace Xv6.Fs.Kernel

open Function Finset

variable {E : Panic → Prop} {s t : Kfs} {ip : Slot} {b : ℕ}

/-! ### Primitives -/

@[simp]
theorem wpe_bread {Q : Block → Kfs → Prop} : wpe E (bread b) Q s ↔ Q (s.disk b) s := Iff.rfl

@[simp]
theorem wpe_modifyBlock {f : Block → Block} {Q : Unit → Kfs → Prop} :
    wpe E (modifyBlock b f) Q s ↔ Q () (s.write b (f (s.disk b))) := Iff.rfl

@[simp]
theorem wpe_logWrite {Q : Unit → Kfs → Prop} :
    wpe E (logWrite b) Q s ↔ Q () (s.record (.log b)) := Iff.rfl

@[simp]
theorem wpe_brelse {Q : Unit → Kfs → Prop} :
    wpe E (brelse b) Q s ↔ Q () (s.record (.release b)) := Iff.rfl

@[simp]
theorem wpe_inode {Q : Inode → Kfs → Prop} : wpe E (inode ip) Q s ↔ Q (s.inode ip) s := Iff.rfl

/-- The state with another entry in the table. -/
def Kfs.setInode (s : Kfs) (ip : Slot) (p : Inode) : Kfs :=
  { s with inode := update s.inode ip p }

@[simp] theorem setInode_inode_self (p : Inode) : (s.setInode ip p).inode ip = p :=
  update_self _ _ _

theorem setInode_inode_of_ne {e : Slot} (h : e ≠ ip) (p : Inode) :
    (s.setInode ip p).inode e = s.inode e := update_of_ne h _ _

@[simp] theorem setInode_setInode (p q : Inode) :
    (s.setInode ip p).setInode ip q = s.setInode ip q :=
  congrArg (fun f ↦ { s with inode := f }) (update_idem _ _ _)

@[simp]
theorem wpe_modifyInode {f : Inode → Inode} {Q : Unit → Kfs → Prop} :
    wpe E (modifyInode ip f) Q s ↔ Q () (s.setInode ip (f (s.inode ip))) := Iff.rfl

/-- The state with another inode in an entry of the table. -/
def Kfs.setDin (s : Kfs) (ip : Slot) (x : Dinode) : Kfs :=
  { s with inode := update s.inode ip { s.inode ip with din := x } }

@[simp]
theorem wpe_modifyDin {f : Dinode → Dinode} {Q : Unit → Kfs → Prop} :
    wpe E (modifyDin ip f) Q s ↔ Q () (s.setDin ip (f (s.inode ip).din)) := Iff.rfl

@[simp] theorem setDin_inode_self (x : Dinode) :
    (s.setDin ip x).inode ip = { s.inode ip with din := x } := update_self _ _ _

theorem setDin_inode_of_ne {e : Slot} (h : e ≠ ip) (x : Dinode) :
    (s.setDin ip x).inode e = s.inode e := update_of_ne h _ _

theorem setDin_self (s : Kfs) (ip : Slot) : s.setDin ip (s.inode ip).din = s := by
  rw [Kfs.setDin, update_eq_self]

@[simp] theorem setDin_disk (x : Dinode) : (s.setDin ip x).disk = s.disk := rfl

/-- What the file system code below the system calls leaves alone. -/
structure Aside (s t : Kfs) : Prop where
  file : t.file = s.file
  user : t.user = s.user
  cwd : t.cwd = s.cwd

theorem Aside.refl (s : Kfs) : Aside s s := ⟨rfl, rfl, rfl⟩

theorem Aside.trans {u : Kfs} (h : Aside s t) (h' : Aside t u) : Aside s u :=
  ⟨h'.file.trans h.file, h'.user.trans h.user, h'.cwd.trans h.cwd⟩

theorem Aside.eq (h : Aside s t) (hinode : t.inode = s.inode) :
    t = { s with disk := t.disk, ops := t.ops } := by
  rw [← h.file, ← h.user, ← h.cwd, ← hinode]

theorem Aside.setDin (h : Aside s t) (x : Dinode) : Aside s (t.setDin ip x) :=
  ⟨h.file, h.user, h.cwd⟩

/-! ### What is done to buffers -/

variable {l l' : List BufOp} {bp : Block}

/-- Every change of a buffer was logged before the buffer was released. -/
def AllLogged (l : List BufOp) : Prop := ∀ newer b older, l = newer ++ .change b :: older →
  ∃ after before, newer = after ++ .log b :: before ∧ .release b ∉ before

theorem AllLogged.nil : AllLogged [] := fun _ _ _ h ↦ absurd h.symm (by simp)

theorem AllLogged.append (h : AllLogged l) (h' : AllLogged l') : AllLogged (l ++ l') := by
  intro newer b older heq
  rcases List.append_eq_append_iff.1 heq with ⟨c, rfl, hc⟩ | ⟨c, rfl, hc⟩
  · obtain ⟨after, before, rfl, hb⟩ := h' c b older hc
    exact ⟨l ++ after, before, (List.append_assoc ..).symm, hb⟩
  · cases c with
    | nil =>
      obtain ⟨after, before, hnil, -⟩ := h' [] b older hc.symm
      exact absurd hnil (by simp)
    | cons op c =>
      obtain ⟨rfl, -⟩ := List.cons.inj hc
      exact h newer b c rfl

/-- A buffer was released right after it was changed. -/
def Strays (l : List BufOp) : Prop := ∃ newer b older, l = newer ++ .release b :: .change b :: older

theorem Strays.not_allLogged (h : Strays l) : ¬AllLogged l := by
  obtain ⟨newer, b, older, rfl⟩ := h
  intro h
  obtain ⟨after, before, heq, hb⟩ := h (newer ++ [.release b]) b older (by simp)
  rcases List.eq_nil_or_concat before with rfl | ⟨before, op, rfl⟩
  · exact absurd (List.append_inj_right' heq rfl) (by simp)
  · rw [List.concat_eq_append] at heq hb
    rw [← List.cons_append, ← List.append_assoc] at heq
    refine hb (List.mem_append_right _ ?_)
    rw [← List.append_inj_right' heq rfl]
    exact List.mem_singleton_self _

/-- From `s` to `t` every change was logged before its buffer was released exactly if `P`. -/
def TidyIff (P : Prop) (s t : Kfs) : Prop :=
  ∃ l, t.ops = l ++ s.ops ∧ (P ∧ AllLogged l ∨ ¬P ∧ Strays l)

/-- From `s` to `t` every change was logged before its buffer was released. -/
def Tidy (s t : Kfs) : Prop := ∃ l, t.ops = l ++ s.ops ∧ AllLogged l

theorem Tidy.refl (s : Kfs) : Tidy s s := ⟨[], rfl, .nil⟩

theorem Tidy.trans {u : Kfs} (h : Tidy s t) (h' : Tidy t u) : Tidy s u := by
  obtain ⟨l, hl, hlog⟩ := h
  obtain ⟨l', hl', hlog'⟩ := h'
  exact ⟨l' ++ l, by rw [hl', hl, List.append_assoc], hlog'.append hlog⟩

theorem Tidy.tidyIff {P : Prop} (h : Tidy s t) (hP : P) : TidyIff P s t := by
  obtain ⟨l, hl, hlog⟩ := h
  exact ⟨l, hl, .inl ⟨hP, hlog⟩⟩

namespace TidyIff

variable {P P' : Prop} {u : Kfs}

theorem congr (h : TidyIff P s t) (hP : P ↔ P') : TidyIff P' s t := by
  rwa [TidyIff, hP] at h

theorem before (h : Tidy s t) (h' : TidyIff P t u) : TidyIff P s u := by
  obtain ⟨l, hl, hlog⟩ := h
  obtain ⟨l', hl', hlog'⟩ := h'
  refine ⟨l' ++ l, by rw [hl', hl, List.append_assoc], hlog'.imp (.imp_right (·.append hlog))
    (.imp_right ?_)⟩
  rintro ⟨newer, b, older, rfl⟩
  exact ⟨newer, b, older ++ l, by simp⟩

theorem after (h : TidyIff P s t) (h' : Tidy t u) : TidyIff P s u := by
  obtain ⟨l, hl, hlog⟩ := h
  obtain ⟨l', hl', hlog'⟩ := h'
  refine ⟨l' ++ l, by rw [hl', hl, List.append_assoc], hlog.imp (.imp_right hlog'.append)
    (.imp_right ?_)⟩
  rintro ⟨newer, b, older, rfl⟩
  exact ⟨l' ++ newer, b, older, by simp⟩

theorem tidy_iff (h : TidyIff P s t) : Tidy s t ↔ P := by
  obtain ⟨l, hl, h | ⟨hP, hl'⟩⟩ := h
  · exact iff_of_true ⟨l, hl, h.2⟩ h.1
  · refine iff_of_false (fun ⟨l', h', hlog⟩ ↦ hl'.not_allLogged ?_) hP
    rwa [List.append_cancel_right (hl.symm.trans h')]

/-- A buffer is written to and released. -/
theorem release (s : Kfs) (b : ℕ) (bp : Block) :
    TidyIff (bp = s.disk b) s ((s.write b bp).record (.release b)) := by
  rw [Kfs.record, Kfs.write]
  by_cases h : bp = s.disk b
  · refine ⟨[.release b], by simp [h], .inl ⟨h, fun newer c older heq ↦ ?_⟩⟩
    rcases newer with _ | ⟨x, newer⟩ <;> simp at heq
  · exact ⟨[.release b, .change b], by simp [h], .inr ⟨h, [], b, [], rfl⟩⟩

end TidyIff

/-- The state after a buffer was changed, logged and released. -/
def Kfs.edit (s : Kfs) (b : ℕ) (bp : Block) : Kfs :=
  ((s.write b bp).record (.log b)).record (.release b)

theorem Aside.edit (s : Kfs) (b : ℕ) (bp : Block) : Aside s (s.edit b bp) := ⟨rfl, rfl, rfl⟩

theorem Tidy.edit (s : Kfs) (b : ℕ) (bp : Block) : Tidy s (s.edit b bp) := by
  rw [Kfs.edit, Kfs.record, Kfs.record, Kfs.write]
  by_cases h : bp = s.disk b
  · refine ⟨[.release b, .log b], by simp [h], fun newer c older heq ↦ ?_⟩
    rcases newer with _ | ⟨x, _ | ⟨y, newer⟩⟩ <;> simp at heq
  · refine ⟨[.release b, .log b, .change b], by simp [h], fun newer c older heq ↦ ?_⟩
    rcases newer with _ | ⟨x, _ | ⟨y, _ | ⟨z, newer⟩⟩⟩ <;> simp at heq
    obtain ⟨rfl, rfl, rfl, -⟩ := heq
    exact ⟨[.release b], [], rfl, List.not_mem_nil⟩

@[simp] theorem logged_edit : (s.edit b bp).logged = b :: s.logged := by
  rw [Kfs.logged, Kfs.edit, Kfs.record, Kfs.record, Kfs.write]
  split_ifs <;> rfl

variable {sb : Superblock} {d d' : Disk} {I : ℕ → Dinode} {hand : Finset ℕ} {a : ℕ}

/-! ### `balloc` -/

theorem ballocScan_some {bp : Block} {turns bi c : ℕ} (h : ballocScan sb bp b turns bi = some c) :
    bi ≤ c ∧ c < bi + turns ∧ b + c < sb.size ∧ bp.getLsbD c = false ∧
      ∀ c', bi ≤ c' → c' < c → bp.getLsbD c' = true := by
  induction turns generalizing bi with
  | zero => exact nomatch h
  | succ turns ih =>
    rw [ballocScan] at h
    split_ifs at h with hlt hclear
    · obtain rfl : bi = c := Option.some.inj h
      exact ⟨le_rfl, by omega, hlt, hclear, fun c' hle hlt ↦ absurd hlt (not_lt.2 hle)⟩
    · obtain ⟨h₁, h₂, h₃, h₄, h₅⟩ := ih h
      refine ⟨by omega, by omega, h₃, h₄, fun c' hle hlt ↦ ?_⟩
      rcases hle.eq_or_lt with rfl | hle
      · exact Bool.not_eq_false _ ▸ hclear
      · exact h₅ c' hle hlt

theorem ballocScan_none {bp : Block} {turns bi : ℕ} (h : ballocScan sb bp b turns bi = none) {c : ℕ}
    (hle : bi ≤ c) (hlt : c < bi + turns) (hc : b + c < sb.size) : bp.getLsbD c = true := by
  induction turns generalizing bi with
  | zero => omega
  | succ turns ih =>
    rw [ballocScan, if_pos (by omega)] at h
    split_ifs at h with hclear
    by_cases hbi : bi = c
    · rw [← hbi]
      exact Bool.not_eq_false _ ▸ hclear
    · exact ih h (by omega) (by omega)

/-- The state after block `a` was taken. -/
def taken (sb : Superblock) (s : Kfs) (a : ℕ) : Kfs :=
  (s.edit (sb.bblock a) ((s.disk (sb.bblock a)).put (a % bpb) 1#1)).edit a 0

theorem taken_disk : (taken sb s a).disk = update (update s.disk (sb.bblock a)
    ((s.disk (sb.bblock a)).put (a % bpb) 1#1)) a 0 := rfl

theorem bpb_eq : bpb = 8192 := rfl

theorem bblock_mul_add {k c : ℕ} (hc : c < bpb) :
    sb.bblock (k * bpb + c) = sb.bblock (k * bpb) := by
  rw [bpb_eq] at hc
  rw [Superblock.bblock, Superblock.bblock, bpb_eq]
  omega

/-- The bit of a block in the bitmap block that is being scanned. -/
theorem bit_mul_add {k c : ℕ} (hle : k * bpb ≤ c) (hlt : c < k * bpb + bpb) :
    bit sb d c = (d (sb.bblock (k * bpb))).getLsbD (c - k * bpb) := by
  have hsplit : k * bpb + (c - k * bpb) = c := by omega
  rw [bit, ← hsplit, bblock_mul_add (by omega), Nat.mul_add_mod_self_right,
    Nat.mod_eq_of_lt (by omega), hsplit]

theorem ballocFrom_spec {turns k : ℕ} : wpe E (ballocFrom sb turns (k * bpb))
    (fun a t ↦ (a = 0 ∧ t = s ∧ ∀ c, k * bpb ≤ c → c < (k + turns) * bpb → c < sb.size →
        bit sb s.disk c = true) ∨
      (a < sb.size ∧ bit sb s.disk a = false ∧ t = taken sb s a ∧
        ∀ c, k * bpb ≤ c → c < a → bit sb s.disk c = true)) s := by
  induction turns generalizing k with
  | zero => exact .inl ⟨rfl, rfl, fun c hle hlt ↦ absurd hlt (not_lt.2 hle)⟩
  | succ turns ih =>
    rw [ballocFrom, wpe_bind, wpe_bread]
    cases hscan : ballocScan sb (s.disk (sb.bblock (k * bpb))) (k * bpb) bpb 0 with
    | some c =>
      obtain ⟨-, hc, hsize, hclear, hfirst⟩ := ballocScan_some hscan
      rw [zero_add] at hc
      have hblock : sb.bblock (k * bpb + c) = sb.bblock (k * bpb) := bblock_mul_add hc
      have hmod : (k * bpb + c) % bpb = c := by
        rw [Nat.mul_add_mod_self_right, Nat.mod_eq_of_lt hc]
      refine .inr ⟨hsize, ?_, ?_, fun c' hle hlt ↦ ?_⟩
      · rw [bit, hblock, hmod]
        exact hclear
      · rw [taken, hblock, hmod]
        rfl
      · rw [bit_mul_add hle (by omega)]
        exact hfirst _ (Nat.zero_le _) (by omega)
    | none =>
      have hnext : k * bpb + bpb = (k + 1) * bpb := (Nat.succ_mul k bpb).symm
      rw [hnext]
      refine ih.mono fun a t h ↦ ?_
      have hset : ∀ c, k * bpb ≤ c → c < (k + 1) * bpb → c < sb.size → bit sb s.disk c = true := by
        intro c hle hlt hc
        rw [bit_mul_add hle (by omega)]
        exact ballocScan_none hscan (Nat.zero_le _) (by omega) (by omega)
      rcases h with ⟨ha, ht, hall⟩ | ⟨ha, hbit, ht, hfirst⟩
      · refine .inl ⟨ha, ht, fun c hle hlt hc ↦ ?_⟩
        rcases lt_or_ge c ((k + 1) * bpb) with hlt' | hge
        · exact hset c hle hlt' hc
        · exact hall c hge (by rw [show k + 1 + turns = k + (turns + 1) by omega]; exact hlt) hc
      · refine .inr ⟨ha, hbit, ht, fun c hle hlt ↦ ?_⟩
        rcases lt_or_ge c ((k + 1) * bpb) with hlt' | hge
        · exact hset c hle hlt' (hlt.trans ha)
        · exact hfirst c hge hlt

/-- **What `balloc` does**, on any disk. -/
theorem balloc_eq (sb : Superblock) (s : Kfs) : wpe E (balloc sb)
    (fun a t ↦ (a = 0 ∧ t = s ∧ ∀ c < sb.size, bit sb s.disk c = true) ∨
      (a < sb.size ∧ bit sb s.disk a = false ∧ t = taken sb s a ∧
        ∀ c < a, bit sb s.disk c = true)) s := by
  have hrun : wpe E (ballocFrom sb ((sb.size + bpb - 1) / bpb) (0 * bpb)) _ s := ballocFrom_spec
  rw [zero_mul] at hrun
  refine hrun.mono fun a t h ↦ h.imp (fun ⟨ha, ht, hall⟩ ↦ ⟨ha, ht, fun c hc ↦ ?_⟩)
    fun ⟨ha, hbit, ht, hfirst⟩ ↦ ⟨ha, hbit, ht, fun c ↦ hfirst c (by omega)⟩
  refine hall c (by omega) ?_ hc
  rw [zero_add, bpb_eq]
  omega

/-- The number of free blocks. -/
def freeBlocks (sb : Superblock) (d : Disk) : ℕ :=
  ((Finset.range sb.size).filter fun b ↦ bit sb d b = false).card

theorem freeBlocks_congr (h : ∀ b < sb.size, bit sb d' b = bit sb d b) :
    freeBlocks sb d' = freeBlocks sb d := by
  rw [freeBlocks, freeBlocks]
  refine congrArg Finset.card (filter_congr fun b hb ↦ ?_)
  rw [h b (mem_range.1 hb)]

theorem freeBlocks_take (ha : a < sb.size) (hbit : bit sb d a = false)
    (hbits : ∀ b < sb.size, bit sb d' b = (decide (b = a) || bit sb d b)) :
    freeBlocks sb d' + 1 = freeBlocks sb d := by
  have herase : ((Finset.range sb.size).filter fun b ↦ bit sb d' b = false) =
      ((Finset.range sb.size).filter fun b ↦ bit sb d b = false).erase a := by
    ext b
    rw [mem_erase, mem_filter, mem_filter, mem_range]
    constructor
    · rintro ⟨hb, hclear⟩
      rw [hbits b hb, Bool.or_eq_false_iff, decide_eq_false_iff_not] at hclear
      exact ⟨hclear.1, hb, hclear.2⟩
    · rintro ⟨hne, hb, hclear⟩
      refine ⟨hb, ?_⟩
      rw [hbits b hb, hclear, Bool.or_false, decide_eq_false_iff_not]
      exact hne
  have hmem : a ∈ (Finset.range sb.size).filter fun b ↦ bit sb d b = false :=
    mem_filter.2 ⟨mem_range.2 ha, hbit⟩
  rw [freeBlocks, herase, card_erase_add_one hmem]
  rfl

/-- A block that is not of the bitmap. -/
def OffBitmap (sb : Superblock) (b : ℕ) : Prop := b < sb.bmapstart ∨ sb.datastart ≤ b

theorem OffBitmap.ne_bblock {c : ℕ} (h : OffBitmap sb b) (hl : sb.LaidOut) (hc : c < sb.size) :
    b ≠ sb.bblock c := by
  have hlt := hl.bblock_lt hc
  have hle := Superblock.LaidOut.bmapstart_le sb c
  rcases h with h | h <;> omega

theorem Sound.offBitmap_held (h : Sound sb d I hand) {c : ℕ × ℕ} (hc : held sb d I c ≠ 0) :
    OffBitmap sb (held sb d I c) :=
  .inr (h.held_mem_data hc).1

/-- From `s` to `t` the block `a` was allocated. -/
structure Takes (sb : Superblock) (I : ℕ → Dinode) (hand : Finset ℕ) (s t : Kfs) (a : ℕ) :
    Prop where
  ne_zero : a ≠ 0
  lt : a < 2 ^ 32
  clear : bit sb s.disk a = false
  sound : Sound sb t.disk I (insert a hand)
  zeroed : t.disk a = 0
  inode : t.inode = s.inode
  aside : Aside s t
  bits : ∀ b < sb.size, bit sb s.disk b = true → bit sb t.disk b = true
  kept : ∀ b, b ≠ a → OffBitmap sb b → t.disk b = s.disk b
  count : freeBlocks sb t.disk + 1 = freeBlocks sb s.disk
  tidy : Tidy s t

theorem Sound.takes_taken (h : Sound sb s.disk I hand) (ha : a < sb.size)
    (hbit : bit sb s.disk a = false) : Takes sb I hand s (taken sb s a) a := by
  have hdata := h.free_mem_data hbit
  have hbits : ∀ b < sb.size,
      bit sb (taken sb s a).disk b = (decide (b = a) || bit sb s.disk b) := fun b hb ↦ by
    have hne : sb.bblock b ≠ a := by
      have hlt := h.laidOut.bblock_lt hb
      omega
    rw [taken_disk, bit_congr (update_of_ne hne _ _), bit_put]
    by_cases hba : b = a
    · rw [if_pos hba, hba, decide_eq_true rfl, Bool.true_or]
      rfl
    · rw [if_neg hba, decide_eq_false hba, Bool.false_or]
  have hkept : ∀ b, b ≠ a → OffBitmap sb b → (taken sb s a).disk b = s.disk b := fun b hba hb ↦ by
    rw [taken_disk, update_of_ne hba, update_of_ne (hb.ne_bblock h.laidOut ha)]
  have hsize := h.laidOut.size_lt
  exact ⟨h.ne_zero_of_free hbit, by omega, hbit,
    h.take ha hbit hbits fun c hc ↦ hkept _ (h.held_ne_of_free hbit hc) (h.offBitmap_held hc),
    update_self _ _ _, rfl, ⟨rfl, rfl, rfl⟩,
    fun b hb hset ↦ by rw [hbits b hb, hset, Bool.or_true], hkept,
    freeBlocks_take ha hbit hbits, (Tidy.edit _ _ _).trans (.edit _ _ _)⟩

/-- `balloc` on a sound file system. -/
theorem Sound.balloc (h : Sound sb s.disk I hand) : wpe E (Kernel.balloc sb)
    (fun a t ↦ (a = 0 ∧ t = s ∧ freeBlocks sb s.disk = 0) ∨ Takes sb I hand s t a) s := by
  refine (balloc_eq sb s).mono fun a t ht ↦ ?_
  rcases ht with ⟨ha, ht, hall⟩ | ⟨ha, hbit, rfl, -⟩
  · refine .inl ⟨ha, ht, card_eq_zero.2 (filter_eq_empty_iff.2 fun b hb ↦ ?_)⟩
    rw [hall b (mem_range.1 hb)]
    exact Bool.noConfusion
  · exact .inr (h.takes_taken ha hbit)

/-! ### `bmap` -/

/-- Place of the block `addrs[k]`. -/
def placeOf (k : ℕ) : ℕ := if k < ndirect then k else maxFile

variable {x x' : Dinode} {i k p : ℕ}

theorem blockAt_placeOf (hk : k ≤ ndirect) : blockAt d x (placeOf k) = (x.addr k).toNat := by
  rw [placeOf]
  split_ifs with hlt
  · exact blockAt_direct hlt
  · rw [show k = ndirect by omega]
    exact blockAt_ind

/-- A fresh block becomes `addrs[k]`. -/
theorem blockAt_setAddr_placeOf (hk : k ≤ ndirect) (hx : x.addr k = 0) (ha : a < 2 ^ 32)
    (hd : d a = 0) (p : ℕ) : blockAt d (x.setAddr k (.ofNat 32 a)) p =
      if p = placeOf k then a else blockAt d x p := by
  rw [placeOf]
  by_cases hlt : k < ndirect
  · rw [if_pos hlt]
    exact blockAt_setAddr hlt ha p
  · obtain rfl : k = ndirect := by omega
    rw [if_neg hlt]
    exact blockAt_setAddr_ind hx hd ha p

/-- One place of one inode has changed. -/
theorem held_update_eq (hi : i < sb.ninodes)
    (h : ∀ q, blockAt d' x' q = if q = p then a else blockAt d x q)
    (hother : ∀ c : ℕ × ℕ, c.1 ≠ i → held sb d' I c = held sb d I c) :
    held sb d' (update I i x') =
      update (held sb d (update I i x)) (i, p) a := by
  funext c
  obtain ⟨j, q⟩ := c
  by_cases hj : j = i
  · subst hj
    rw [held_update_self hi, h q]
    by_cases hq : q = p
    · rw [hq, update_self, if_pos rfl]
    · rw [update_of_ne (fun h ↦ hq (Prod.mk.inj h).2), held_update_self hi, if_neg hq]
  · rw [update_of_ne (fun h ↦ hj (Prod.mk.inj h).1), held_update_of_ne hj,
      held_update_of_ne hj, hother _ hj]

/-- From `s` to `t` the places `K` of the inode in the entry `ip` of the table were filled with
fresh blocks. -/
structure Placed (sb : Superblock) (ip : Slot) (s t : Kfs) (K : Finset ℕ) : Prop where
  slot : t.inode ip = { s.inode ip with din := (t.inode ip).din }
  others : ∀ e ≠ ip, t.inode e = s.inode e
  aside : Aside s t
  header : (t.inode ip).din.header = (s.inode ip).din.header
  old : ∀ q ∉ K, blockAt t.disk (t.inode ip).din q = blockAt s.disk (s.inode ip).din q
  new : ∀ q ∈ K, blockAt s.disk (s.inode ip).din q = 0 ∧ blockAt t.disk (t.inode ip).din q ≠ 0
  kept_meta : ∀ b < sb.bmapstart, t.disk b = s.disk b
  count : freeBlocks sb t.disk + K.card = freeBlocks sb s.disk

namespace Placed

variable {u : Kfs} {K L : Finset ℕ}

theorem refl (sb : Superblock) (ip : Slot) (s : Kfs) : Placed sb ip s s ∅ where
  slot := rfl
  others _ _ := rfl
  aside := .refl s
  header := rfl
  old _ _ := rfl
  new q hq := absurd hq (notMem_empty q)
  kept_meta _ _ := rfl
  count := by rw [card_empty, add_zero]

/-- What a place has stays there. -/
theorem stays (h : Placed sb ip s t K) {q : ℕ}
    (hq : blockAt s.disk (s.inode ip).din q ≠ 0) :
    blockAt t.disk (t.inode ip).din q = blockAt s.disk (s.inode ip).din q :=
  h.old q fun hmem ↦ hq (h.new q hmem).1

theorem disjoint (h : Placed sb ip s t K) (h' : Placed sb ip t u L) : Disjoint K L :=
  disjoint_left.2 fun q hK hL ↦ (h.new q hK).2 (h'.new q hL).1

theorem trans (h : Placed sb ip s t K) (h' : Placed sb ip t u L) : Placed sb ip s u (K ∪ L) where
  slot := by rw [h'.slot, h.slot]
  others e he := (h'.others e he).trans (h.others e he)
  aside := h.aside.trans h'.aside
  header := h'.header.trans h.header
  old q hq := by
    rw [mem_union, not_or] at hq
    rw [h'.old q hq.2, h.old q hq.1]
  new q hq := by
    rcases mem_union.1 hq with hK | hL
    · refine ⟨(h.new q hK).1, ?_⟩
      rw [h'.stays (h.new q hK).2]
      exact (h.new q hK).2
    · refine ⟨?_, (h'.new q hL).2⟩
      rw [← h.old q fun hK ↦ disjoint_left.1 (h.disjoint h') hK hL]
      exact (h'.new q hL).1
  kept_meta b hb := (h'.kept_meta b hb).trans (h.kept_meta b hb)
  count := by
    have h₁ := h.count
    have h₂ := h'.count
    rw [card_union_of_disjoint (h.disjoint h')]
    omega

end Placed

/-- The places `K` of the inode `i`, which is in the entry `ip` of the table, were filled on a sound
file system. -/
structure Grown (sb : Superblock) (I : ℕ → Dinode) (i : ℕ) (ip : Slot) (s t : Kfs)
    (K : Finset ℕ) : Prop extends Placed sb ip s t K where
  sound : Sound sb t.disk (update I i (t.inode ip).din) ∅
  bits : ∀ b < sb.size, bit sb s.disk b = true → bit sb t.disk b = true
  kept_data : ∀ b, sb.datastart ≤ b → b < sb.size → bit sb s.disk b = true →
    b ≠ blockAt t.disk (t.inode ip).din maxFile → t.disk b = s.disk b
  tidy : Tidy s t

namespace Grown

variable {u : Kfs} {K L : Finset ℕ}

theorem refl (h : Sound sb s.disk (update I i (s.inode ip).din) ∅) : Grown sb I i ip s s ∅ :=
  ⟨.refl sb ip s, h, fun _ _ h ↦ h, fun _ _ _ _ _ ↦ rfl, .refl s⟩

theorem trans (h : Grown sb I i ip s t K) (h' : Grown sb I i ip t u L) :
    Grown sb I i ip s u (K ∪ L) where
  toPlaced := h.toPlaced.trans h'.toPlaced
  sound := h'.sound
  bits b hb hbit := h'.bits b hb (h.bits b hb hbit)
  tidy := h.tidy.trans h'.tidy
  kept_data b hdata hb hbit hne := by
    rw [h'.kept_data b hdata hb (h.bits b hb hbit) hne]
    refine h.kept_data b hdata hb hbit fun heq ↦ hne ?_
    rw [h'.stays, ← heq]
    have hpos := h.sound.laidOut.datastart_pos
    rw [← heq]
    omega

/-- The places of the other inodes stay as they are. -/
theorem held_other (h : Grown sb I i ip s t K) (hi : i < sb.ninodes) {c : ℕ × ℕ} (hc : c.1 ≠ i)
    (hs : Sound sb s.disk (update I i (s.inode ip).din) ∅) :
    held sb t.disk I c = held sb s.disk I c := by
  rw [held, held]
  split_ifs with hlt
  · refine blockAt_congr (fun hne ↦ ?_) (fun _ _ ↦ rfl) _
    have hcell : held sb s.disk (update I i (s.inode ip).din) (c.1, maxFile) =
        ((I c.1).addr ndirect).toNat := by
      rw [held_update_of_ne (c := (c.1, maxFile)) hc, held_of_lt hlt, blockAt_ind]
    have hcell' : held sb t.disk (update I i (t.inode ip).din) (c.1, maxFile) =
        ((I c.1).addr ndirect).toNat := by
      rw [held_update_of_ne (c := (c.1, maxFile)) hc, held_of_lt hlt, blockAt_ind]
    have hused := hs.owns.used_of_hold (by rw [hcell]; exact toNat_ne_zero hne)
    rw [hcell] at hused
    refine h.kept_data _ hused.1 hused.2.1 hused.2.2 fun heq ↦ hc ?_
    have hsame := h.sound.owns.unique (c.1, maxFile) (i, maxFile)
      (by rw [hcell']; exact toNat_ne_zero hne) (by rw [hcell', held_update_self hi, heq])
    exact congrArg Prod.fst hsame
  · rfl

/-- Blocks in places keep their contents, apart from the indirect block of this inode. -/
theorem kept_held (h : Grown sb I i ip s t K) (hi : i < sb.ninodes) {c : ℕ × ℕ}
    (hs : Sound sb s.disk (update I i (s.inode ip).din) ∅)
    (hc : held sb s.disk (update I i (s.inode ip).din) c ≠ 0) (hne : c ≠ (i, maxFile)) :
    t.disk (held sb s.disk (update I i (s.inode ip).din) c) =
      s.disk (held sb s.disk (update I i (s.inode ip).din) c) := by
  have hused := hs.owns.used_of_hold hc
  have hcell : held sb t.disk (update I i (t.inode ip).din) c =
      held sb s.disk (update I i (s.inode ip).din) c := by
    obtain ⟨j, q⟩ := c
    by_cases hj : j = i
    · subst hj
      rw [held_update_self hi] at hc
      rw [held_update_self hi, held_update_self hi, h.stays hc]
    · rw [held_update_of_ne hj, held_update_of_ne hj, h.held_other hi hj hs]
  refine h.kept_data _ hused.1 hused.2.1 hused.2.2 fun heq ↦ hne ?_
  exact h.sound.owns.unique c (i, maxFile) (by rwa [hcell])
    (by rw [hcell, held_update_self hi, heq])

end Grown

/-- The inode in an entry of the table is that of inode `i`, and allocated. -/
structure InSlot (sb : Superblock) (I : ℕ → Dinode) (i : ℕ) (ip : Slot) (s : Kfs) : Prop where
  sound : Sound sb s.disk (update I i (s.inode ip).din) ∅
  lt : i < sb.ninodes
  type_ne : (s.inode ip).din.type ≠ 0

theorem Grown.inSlot {K : Finset ℕ} (h : Grown sb I i ip s t K) (hs : InSlot sb I i ip s) :
    InSlot sb I i ip t := by
  refine ⟨h.sound, hs.lt, ?_⟩
  rw [Dinode.type_eq_header, h.header, ← Dinode.type_eq_header]
  exact hs.type_ne

/-- What `bmap` and its parts return for a place, and what they have done. -/
structure Mapped (sb : Superblock) (I : ℕ → Dinode) (i : ℕ) (ip : Slot) (s t : Kfs)
    (p a : ℕ) (K : Finset ℕ) : Prop where
  grown : Grown sb I i ip s t K
  self : blockAt t.disk (t.inode ip).din p = a
  fresh : p ∈ K → t.disk a = 0
  full : a = 0 → freeBlocks sb t.disk = 0

/-- The places that `bmap` may fill for the block `bn`. -/
def places (bn : ℕ) : Finset ℕ := if bn < ndirect then {bn} else {bn, maxFile}

theorem mem_places (bn : ℕ) : bn ∈ places bn := by
  rw [places]
  split_ifs
  · exact mem_singleton_self bn
  · exact mem_insert_self _ _

namespace InSlot

/-- Filling a place keeps the other inodes as they are. -/
theorem sound_put (hs : InSlot sb I i ip s) (h : Sound sb d (update I i x) {a})
    (hp : blockAt d x p = 0)
    (hplace : ∀ q, blockAt d' x' q = if q = p then a else blockAt d x q)
    (hother : ∀ c : ℕ × ℕ, c.1 ≠ i → held sb d' I c = held sb d I c)
    (hbits : ∀ b < sb.size, bit sb d' b = bit sb d b)
    (hheader : x'.header = x.header) (hx : x.type ≠ 0) :
    Sound sb d' (update I i x') ∅ := by
  rw [← erase_singleton a]
  refine h.put (mem_singleton_self a) hs.lt (by rwa [update_self])
    (held_update_eq hs.lt hplace hother) hbits (fun j _ ↦ ?_) (fun j hj ↦ ?_)
  · by_cases hji : j = i
    · rw [hji, update_self, update_self, Dinode.size_eq_header, hheader,
        ← Dinode.size_eq_header]
    · rw [update_of_ne hji, update_of_ne hji]
  · by_cases hji : j = i
    · rw [hji, update_self, Dinode.type_eq_header, hheader, ← Dinode.type_eq_header]
      exact fun h0 ↦ absurd h0 hx
    · have hfree := h.free j hj
      rw [update_of_ne hji] at hfree ⊢
      exact hfree

/-- The blocks in places are not touched by an allocation. -/
theorem blockAt_of_takes (hs : InSlot sb I i ip s)
    (ht : Takes sb (update I i (s.inode ip).din) ∅ s t a) (q : ℕ) :
    blockAt t.disk (s.inode ip).din q = blockAt s.disk (s.inode ip).din q := by
  have hheld : held sb t.disk (update I i (s.inode ip).din) =
      held sb s.disk (update I i (s.inode ip).din) :=
    held_congr fun c hc ↦ ht.kept _ (hs.sound.held_ne_of_free ht.clear hc)
      (hs.sound.offBitmap_held hc)
  rw [← held_update_self hs.lt (I := I), hheld, held_update_self hs.lt]

/-- A block that was allocated becomes `addrs[k]`. -/
theorem grown_setAddr (hs : InSlot sb I i ip s)
    (ht : Takes sb (update I i (s.inode ip).din) ∅ s t a) (hk : k ≤ ndirect)
    (h0 : (s.inode ip).din.addr k = 0) :
    Grown sb I i ip s (t.setDin ip ((s.inode ip).din.setAddr k (.ofNat 32 a))) {placeOf k} := by
  have hsound := ht.sound
  rw [insert_empty_eq] at hsound
  have hblock := hs.blockAt_of_takes ht
  have hplace := blockAt_setAddr_placeOf hk h0 ht.lt ht.zeroed
  have hzero : blockAt t.disk (s.inode ip).din (placeOf k) = 0 := by
    rw [blockAt_placeOf hk, h0]
    rfl
  have hdata := hs.sound.free_mem_data ht.clear
  refine ⟨⟨?_, fun e he ↦ ?_, ht.aside.setDin _, ?_, fun q hq ↦ ?_, fun q hq ↦ ?_,
    fun b hb ↦ ?_, ?_⟩, ?_, ht.bits, fun b hb hlt hbit _ ↦ ?_, ht.tidy⟩
  · rw [setDin_inode_self, ht.inode]
  · rw [setDin_inode_of_ne he, ht.inode]
  · rw [setDin_inode_self, Dinode.header_setAddr]
  · rw [setDin_inode_self, ← hblock]
    exact (hplace q).trans (if_neg (notMem_singleton.1 hq))
  · rw [setDin_inode_self, ← hblock, mem_singleton.1 hq]
    refine ⟨hzero, ?_⟩
    show blockAt t.disk _ _ ≠ 0
    rw [hplace, if_pos rfl]
    exact ht.ne_zero
  · refine ht.kept b ?_ (.inl hb)
    have hle := hs.sound.laidOut.bmapstart_le_datastart
    omega
  · rw [card_singleton]
    exact ht.count
  · rw [setDin_inode_self]
    exact hs.sound_put hsound hzero hplace (fun _ _ ↦ rfl) (fun _ _ ↦ rfl) (by simp) hs.type_ne
  · refine ht.kept b ?_ (.inr hb)
    rintro rfl
    rw [ht.clear] at hbit
    exact Bool.noConfusion hbit

/-- A block that was allocated becomes an entry of the indirect block. -/
theorem grown_setWord (hs : InSlot sb I i ip s)
    (ht : Takes sb (update I i (s.inode ip).din) ∅ s t a) (hk : k < nindirect)
    (hind : (s.inode ip).din.addr ndirect ≠ 0)
    (h0 : blockAt s.disk (s.inode ip).din (ndirect + k) = 0) {u : Kfs}
    (hdisk : u.disk = update t.disk ((s.inode ip).din.addr ndirect).toNat
      (setWord (t.disk ((s.inode ip).din.addr ndirect).toNat) k (.ofNat 32 a)))
    (hinode : u.inode = t.inode) (haside : Aside t u) (htidy : Tidy t u) :
    Grown sb I i ip s u {ndirect + k} := by
  have hu : u.inode ip = s.inode ip := by rw [hinode, ht.inode]
  have hsound := ht.sound
  rw [insert_empty_eq] at hsound
  have hheldInd : held sb t.disk (update I i (s.inode ip).din) (i, maxFile) =
      ((s.inode ip).din.addr ndirect).toNat := held_update_self hs.lt _ _
  have hindNe := toNat_ne_zero hind
  have hindData := hsound.held_mem_data (c := (i, maxFile)) (by rwa [hheldInd])
  rw [hheldInd] at hindData
  have hplace : ∀ q, blockAt u.disk (s.inode ip).din q =
      if q = ndirect + k then a else blockAt t.disk (s.inode ip).din q :=
    blockAt_setWord hind hk ht.lt (by rw [hdisk, update_self])
  have hother : ∀ c : ℕ × ℕ, c.1 ≠ i → held sb u.disk I c = held sb t.disk I c := by
    intro c hc
    rw [held, held]
    split_ifs with hlt
    · refine blockAt_congr (fun hne ↦ ?_) (fun _ _ ↦ rfl) _
      rw [hdisk]
      refine update_of_ne (fun heq ↦ hc ?_) _ _
      have hheldC : held sb t.disk (update I i (s.inode ip).din) (c.1, maxFile) =
          ((I c.1).addr ndirect).toNat := by
        rw [held_update_of_ne (c := (c.1, maxFile)) hc, held_of_lt hlt]
        rfl
      have hsame := hsound.owns.unique (c.1, maxFile) (i, maxFile)
        (by rw [hheldC, heq]; exact hindNe) (by rw [hheldC, hheldInd, heq])
      exact congrArg Prod.fst hsame
    · rfl
  have hbits : ∀ b < sb.size, bit sb u.disk b = bit sb t.disk b := fun b hb ↦ by
    have hlt := hs.sound.laidOut.bblock_lt hb
    rw [hdisk]
    exact bit_congr (update_of_ne (by omega) _ _)
  have hzero : blockAt t.disk (s.inode ip).din (ndirect + k) = 0 := by
    rw [hs.blockAt_of_takes ht, h0]
  have hdata := hs.sound.free_mem_data ht.clear
  have hle := hs.sound.laidOut.bmapstart_le_datastart
  refine ⟨⟨?_, fun e _ ↦ ?_, ht.aside.trans haside, ?_, fun q hq ↦ ?_, fun q hq ↦ ?_,
    fun b hb ↦ ?_, ?_⟩, ?_, fun b hb hbit ↦ ?_, fun b hb hlt hbit hne ↦ ?_, ht.tidy.trans htidy⟩
  · rw [hu]
  · rw [hinode, ht.inode]
  · rw [hu]
  · rw [hu, hplace q, if_neg (notMem_singleton.1 hq), hs.blockAt_of_takes ht]
  · rw [mem_singleton.1 hq, hu, hplace, if_pos rfl]
    exact ⟨h0, ht.ne_zero⟩
  · rw [hdisk, update_of_ne (by omega)]
    exact ht.kept b (by omega) (.inl hb)
  · rw [freeBlocks_congr hbits, card_singleton]
    exact ht.count
  · rw [hu]
    exact hs.sound_put hsound hzero hplace hother hbits rfl hs.type_ne
  · rw [hbits b hb]
    exact ht.bits b hb hbit
  · rw [hu, blockAt_ind] at hne
    rw [hdisk, update_of_ne hne]
    refine ht.kept b ?_ (.inr hb)
    rintro rfl
    rw [ht.clear] at hbit
    exact Bool.noConfusion hbit

/-- `addrs[k]`, filled if it was empty. -/
theorem bmapAddr (hs : InSlot sb I i ip s) (hk : k ≤ ndirect) : wpe E (Kernel.bmapAddr sb ip k)
    (fun a t ↦ ∃ K ⊆ {placeOf k}, Mapped sb I i ip s t (placeOf k) a K) s := by
  rw [Kernel.bmapAddr, wpe_bind, wpe_inode, wpe_ite]
  refine ⟨fun h0 ↦ ?_, fun h0 ↦ ?_⟩
  · rw [wpe_bind]
    refine hs.sound.balloc.mono fun a t ht ↦ ?_
    rw [wpe_ite]
    rcases ht with ⟨rfl, rfl, hfree⟩ | ht
    · refine ⟨fun _ ↦ ⟨∅, empty_subset _, .refl hs.sound, ?_, fun h ↦ ?_, fun _ ↦ hfree⟩,
        fun hne ↦ absurd rfl hne⟩
      · rw [blockAt_placeOf hk, h0]
        rfl
      · exact absurd h (notMem_empty _)
    · refine ⟨fun ha ↦ absurd ha ht.ne_zero, fun _ ↦ ?_⟩
      rw [wpe_bind, wpe_modifyDin, wpe_pure, ht.inode]
      refine ⟨{placeOf k}, subset_rfl, hs.grown_setAddr ht hk h0, ?_, fun _ ↦ ht.zeroed,
        fun ha ↦ absurd ha ht.ne_zero⟩
      rw [setDin_inode_self, setDin_disk]
      show blockAt t.disk ((s.inode ip).din.setAddr k (.ofNat 32 a)) _ = _
      rw [blockAt_setAddr_placeOf hk h0 ht.lt ht.zeroed, if_pos rfl]
  · rw [wpe_pure]
    refine ⟨∅, empty_subset _, .refl hs.sound, blockAt_placeOf hk, fun h ↦ ?_, fun ha ↦ ?_⟩
    · exact absurd h (notMem_empty _)
    · exact absurd ha (toNat_ne_zero h0)

/-- **`bmap` on a sound file system.** -/
theorem bmap {bn : ℕ} (hs : InSlot sb I i ip s) (hbn : bn < maxFile) : wpe E (Kernel.bmap sb ip bn)
    (fun a t ↦ ∃ K ⊆ places bn, Mapped sb I i ip s t bn a K) s := by
  rw [Kernel.bmap, wpe_ite]
  refine ⟨fun hdir ↦ ?_, fun hdir ↦ ?_⟩
  · refine (hs.bmapAddr hdir.le).mono fun a t ⟨K, hK, h⟩ ↦ ⟨K, ?_, ?_⟩
    · rw [placeOf, if_pos hdir] at hK
      rwa [places, if_pos hdir]
    · rwa [placeOf, if_pos hdir] at h
  have hlt : bn - ndirect < nindirect := by
    rw [maxFile_eq] at hbn
    rw [ndirect_eq, nindirect_eq]
    omega
  have hsplit : ndirect + (bn - ndirect) = bn := by omega
  have hplaces : places bn = {bn, maxFile} := if_neg hdir
  rw [wpe_ite]
  refine ⟨fun _ ↦ ?_, fun h ↦ absurd hlt h⟩
  rw [wpe_bind]
  refine (hs.bmapAddr le_rfl).mono fun ind t ⟨K, hK, ht⟩ ↦ ?_
  rw [placeOf, if_neg (lt_irrefl _)] at hK ht
  have hst := ht.grown.inSlot hs
  have hind : (t.inode ip).din.addr ndirect = .ofNat 32 ind := by
    rw [← ht.self, blockAt_ind, BitVec.ofNat_toNat, BitVec.setWidth_eq]
  have hindNat : ((t.inode ip).din.addr ndirect).toNat = ind := ht.self
  have hK' : K ⊆ places bn := hplaces ▸ hK.trans (subset_insert _ _)
  have hbnK : bn ∉ K := fun h ↦ hbn.ne (mem_singleton.1 (hK h))
  rw [wpe_ite, wpe_pure]
  refine ⟨fun h0 ↦ ⟨K, hK', ht.grown, ?_, fun h ↦ absurd h hbnK, fun _ ↦ ht.full h0⟩, fun h0 ↦ ?_⟩
  · rw [blockAt_entry (not_lt.1 hdir) hbn, hind, h0]
    exact if_pos rfl
  have hindNe : (t.inode ip).din.addr ndirect ≠ 0 := fun h ↦ h0 (by rw [← hindNat, h]; rfl)
  have hentry : blockAt t.disk (t.inode ip).din bn =
      (wordAt (t.disk ind) (bn - ndirect)).toNat := by
    rw [blockAt_entry (not_lt.1 hdir) hbn, if_neg hindNe, hindNat]
  rw [wpe_bind, wpe_bread, wpe_ite]
  refine ⟨fun hw ↦ ?_, fun hw ↦ ?_⟩
  · have hzero : blockAt t.disk (t.inode ip).din (ndirect + (bn - ndirect)) = 0 := by
      rw [hsplit, hentry, hw]
      rfl
    rw [wpe_bind]
    refine hst.sound.balloc.mono fun a u hu ↦ ?_
    rw [wpe_ite]
    rcases hu with ⟨rfl, rfl, hfree⟩ | hu
    · refine ⟨fun _ ↦ ⟨K, hK', ht.grown, ?_, fun h ↦ absurd h hbnK, fun _ ↦ hfree⟩,
        fun hne ↦ absurd rfl hne⟩
      rwa [hsplit] at hzero
    · refine ⟨fun ha ↦ absurd ha hu.ne_zero, fun _ ↦ ?_⟩
      have hgrown := hst.grown_setWord hu hlt hindNe hzero
        (u := u.edit ind (setWord (u.disk ind) (bn - ndirect) (.ofNat 32 a)))
        (by rw [hindNat]; rfl) rfl (.edit _ _ _) (.edit _ _ _)
      rw [hsplit] at hgrown
      have haind : a ≠ ind := by
        have hne := hst.sound.held_ne_of_free hu.clear (c := (i, maxFile))
        rw [held_update_self hst.lt, blockAt_ind, hindNat] at hne
        exact (hne h0).symm
      refine ⟨K ∪ {bn}, ?_, ht.grown.trans hgrown, ?_, fun _ ↦ ?_, fun ha ↦ absurd ha hu.ne_zero⟩
      · refine union_subset hK' ?_
        rw [hplaces]
        exact singleton_subset_iff.2 (mem_insert_self _ _)
      · have hu' : u.inode ip = t.inode ip := by rw [hu.inode]
        show blockAt (update u.disk ind _) (u.inode ip).din bn = a
        rw [hu', blockAt_setWord hindNe hlt hu.lt (d := u.disk) (by rw [hindNat, update_self]),
          if_pos hsplit.symm]
      · show update u.disk ind _ a = 0
        rw [update_of_ne haind, hu.zeroed]
  · rw [wpe_pure]
    refine ⟨K, hK', ht.grown, hentry, fun h ↦ absurd h hbnK, fun ha ↦ ?_⟩
    exact absurd ha (toNat_ne_zero hw)

end InSlot

end Xv6.Fs.Kernel

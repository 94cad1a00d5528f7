import Xv6.Library.WriteSeq
import Xv6.Log.Header

/-!
# Commit and recovery as code

`write_log`, `write_head`, `install_trans`, `commit`, `read_head` and `recover_from_log` of
`kernel/log.c`, over what they see of storage: the durable disk, the buffer cache in front of it,
and the disk writes issued so far in the order of their `bwrite`s. A block write is atomic and
writes become durable in order, so a crash after `k` writes leaves the effect of the first `k`.

`Issues s ws r` says that running from `s` to `r` issued exactly the writes `ws`; each function gets
one such description, and no later proof unfolds the code again.
-/

namespace Xv6

open List

/-- Storage as the log code sees it. -/
structure Store where
  /-- The durable blocks. -/
  disk : Disk
  /-- The buffer cache: the blocks that are in memory. -/
  cache : ℕ → Option Block
  /-- The disk writes issued so far, oldest first. -/
  writes : List (ℕ × Block)

namespace Store

/-- The machine after a boot: nothing is cached. -/
def boot (d : Disk) : Store where
  disk := d
  cache := fun _ ↦ none
  writes := []

/-- The contents of the buffer `bread` returns. -/
def bread (s : Store) (b : ℕ) : Block :=
  (s.cache b).getD (s.disk b)

/-- `bwrite` of a buffer whose contents have been set to `v`. -/
def bwrite (s : Store) (b : ℕ) (v : Block) : Store where
  disk := Function.update s.disk b v
  cache := Function.update s.cache b (some v)
  writes := s.writes ++ [(b, v)]

theorem bread_bwrite (s : Store) (b : ℕ) (v : Block) :
    (s.bwrite b v).bread = Function.update s.bread b v := by
  funext c
  by_cases hc : c = b
  · subst hc
    simp [bread, bwrite]
  · simp [bread, bwrite, hc]

@[simp]
theorem bread_boot (d : Disk) : (boot d).bread = d := rfl

/-- Running from `s` to `r` issued the writes `ws`, in this order. -/
structure Issues (s : Store) (ws : List (ℕ × Block)) (r : Store) : Prop where
  writes : r.writes = s.writes ++ ws
  bread : r.bread = applyWrites ws s.bread
  disk : r.disk = applyWrites ws s.disk

theorem Issues.refl (s : Store) : Issues s [] s :=
  ⟨(append_nil _).symm, rfl, rfl⟩

theorem Issues.trans {s t r : Store} {ws vs : List (ℕ × Block)} (h : Issues s ws t)
    (h' : Issues t vs r) : Issues s (ws ++ vs) r where
  writes := by rw [h'.writes, h.writes, append_assoc]
  bread := by rw [h'.bread, h.bread, applyWrites_append]
  disk := by rw [h'.disk, h.disk, applyWrites_append]

theorem issues_bwrite (s : Store) (b : ℕ) (v : Block) : Issues s [(b, v)] (s.bwrite b v) where
  writes := rfl
  bread := s.bread_bwrite b v
  disk := rfl

end Store

/-! ### The functions of `log.c` -/

/-- The loop of `write_log` from `tail` on: copy each logged block from the cache to its slot. -/
def writeLog (start : ℕ) : ℕ → List ℕ → Store → Store
  | _, [], s => s
  | tail, b :: bs, s => writeLog start (tail + 1) bs (s.bwrite (start + tail + 1) (s.bread b))

/-- The loop of `install_trans` from `tail` on: copy each slot to the block's home location. -/
def installTrans (start : ℕ) : ℕ → List ℕ → Store → Store
  | _, [], s => s
  | tail, b :: bs, s => installTrans start (tail + 1) bs (s.bwrite b (s.bread (start + tail + 1)))

/-- `read_head`: the in-memory header, from the header block. -/
def readHead (start : ℕ) (s : Store) : List ℕ :=
  readHeader (s.bread start)

/-- `write_head`: the in-memory header, to the header block. -/
def writeHead (start : ℕ) (lh : List ℕ) (s : Store) : Store :=
  s.bwrite start (fillHeader (s.bread start) lh)

/-- `commit`, with `lh` the in-memory header. An empty transaction writes nothing. -/
def commit (start : ℕ) (lh : List ℕ) (s : Store) : Store :=
  if 0 < lh.length then
    let s := writeLog start 0 lh s
    let s := writeHead start lh s
    let s := installTrans start 0 lh s
    writeHead start [] s
  else s

/-- `recover_from_log`. -/
def recoverFromLog (start : ℕ) (s : Store) : Store :=
  writeHead start [] (installTrans start 0 (readHead start s) s)

/-! ### What each function writes -/

/-- The block number is not one of the log's: neither its header nor one of its slots. -/
def OutsideLog (start b : ℕ) : Prop :=
  b < start ∨ start + logBlocks < b

instance (start b : ℕ) : Decidable (OutsideLog start b) :=
  inferInstanceAs (Decidable (b < start ∨ start + logBlocks < b))

/-- The writes that put `vs` into the log slots from `tail` on. -/
def slotWrites (start : ℕ) : ℕ → List Block → List (ℕ × Block)
  | _, [] => []
  | tail, v :: vs => (start + tail + 1, v) :: slotWrites start (tail + 1) vs

@[simp]
theorem length_slotWrites (start tail : ℕ) (vs : List Block) :
    (slotWrites start tail vs).length = vs.length := by
  induction vs generalizing tail with
  | nil => rfl
  | cons v vs ih => rw [slotWrites, length_cons, length_cons, ih]

theorem mem_slotWrites {start tail : ℕ} {vs : List Block} {w : ℕ × Block}
    (h : w ∈ slotWrites start tail vs) :
    start + tail < w.1 ∧ w.1 ≤ start + tail + vs.length := by
  induction vs generalizing tail with
  | nil => exact absurd h not_mem_nil
  | cons v vs ih =>
    rw [length_cons]
    rcases mem_cons.1 h with rfl | h
    · simp only
      omega
    · have := ih h
      omega

/-- A slot, once written, reads back. -/
theorem applyWrites_slotWrites {start tail : ℕ} {vs : List Block} (d : Disk) {j : ℕ}
    (hj : j < vs.length) :
    applyWrites (slotWrites start tail vs) d (start + tail + j + 1) = vs[j] := by
  induction vs generalizing tail d j with
  | nil => exact absurd hj (Nat.not_lt_zero j)
  | cons v vs ih =>
    rw [length_cons] at hj
    cases j with
    | zero =>
      rw [slotWrites, applyWrites_cons, applyWrites_of_notMem, add_zero,
        Function.update_self, getElem_cons_zero]
      intro w hw
      have := mem_slotWrites hw
      omega
    | succ j =>
      have hassoc : start + tail + (j + 1) + 1 = start + (tail + 1) + j + 1 := by omega
      rw [slotWrites, applyWrites_cons, hassoc, ih _ (by omega), getElem_cons_succ]

/-- `write_log` copies the cached contents of the logged blocks to the slots, in order. -/
theorem issues_writeLog {start tail : ℕ} {lh : List ℕ} (s : Store)
    (hout : ∀ b ∈ lh, OutsideLog start b) (hlen : tail + lh.length ≤ logBlocks) :
    s.Issues (slotWrites start tail (lh.map s.bread)) (writeLog start tail lh s) := by
  induction lh generalizing tail s with
  | nil => exact Store.Issues.refl s
  | cons b bs ih =>
    rw [length_cons, logBlocks_eq] at hlen
    have hstep := s.issues_bwrite (start + tail + 1) (s.bread b)
    -- the slot just written is not the home of a later block
    have hkeep : bs.map (s.bwrite (start + tail + 1) (s.bread b)).bread = bs.map s.bread := by
      refine map_congr_left fun c hc ↦ ?_
      have hc' := hout c (mem_cons_of_mem _ hc)
      rw [OutsideLog, logBlocks_eq] at hc'
      rw [s.bread_bwrite, Function.update_of_ne (by omega)]
    have hrest := @ih (tail + 1) (s.bwrite (start + tail + 1) (s.bread b))
      (fun c hc ↦ hout c (mem_cons_of_mem _ hc)) (by rw [logBlocks_eq]; omega)
    rw [hkeep] at hrest
    exact hstep.trans hrest

/-- `install_trans` copies the slots to the homes, in order. -/
theorem issues_installTrans {start tail : ℕ} {lh : List ℕ} {vs : List Block} (s : Store)
    (hout : ∀ b ∈ lh, OutsideLog start b) (hlen : tail + lh.length ≤ logBlocks)
    (hvs : vs.length = lh.length)
    (hslot : ∀ j (h : j < vs.length), s.bread (start + tail + j + 1) = vs[j]) :
    s.Issues (lh.zip vs) (installTrans start tail lh s) := by
  induction lh generalizing tail s vs with
  | nil => exact Store.Issues.refl s
  | cons b bs ih =>
    obtain ⟨v, vs, rfl⟩ : ∃ v vs', vs = v :: vs' := by
      cases vs with
      | nil => exact absurd hvs (by simp)
      | cons v vs => exact ⟨v, vs, rfl⟩
    rw [length_cons, logBlocks_eq] at hlen
    rw [length_cons, length_cons] at hvs
    have hb := hout b mem_cons_self
    rw [OutsideLog, logBlocks_eq] at hb
    have hv : s.bread (start + tail + 1) = v := hslot 0 (by simp)
    have hrest := @ih (tail + 1) vs (s.bwrite b v)
      (fun c hc ↦ hout c (mem_cons_of_mem _ hc)) (by rw [logBlocks_eq]; omega) (by omega)
      (fun j hj ↦ by
        have h := hslot (j + 1) (by rw [length_cons]; omega)
        have hassoc : start + tail + (j + 1) + 1 = start + (tail + 1) + j + 1 := by omega
        rw [getElem_cons_succ, hassoc] at h
        rw [s.bread_bwrite, Function.update_of_ne (by omega), h])
    rw [installTrans, hv]
    exact (s.issues_bwrite b v).trans hrest

theorem issues_writeHead (start : ℕ) (lh : List ℕ) (s : Store) :
    s.Issues [(start, fillHeader (s.bread start) lh)] (writeHead start lh s) :=
  s.issues_bwrite start _

end Xv6

import Mathlib.Data.Nat.ModEq
import Mathlib.Logic.Function.Basic
import Mathlib.Tactic.Common

/-!
# Ring buffers with free-running counters

A queue of at most `c` items in the slots `0, …, c - 1`. The reader and the writer each count what
they have done so far in a machine word of `w` bits, which wraps around; the slot of a count is its
remainder modulo `c`. Since `c` divides `2 ^ w`, the remainder does not notice the wrap-around, and
as long as at most `c < 2 ^ w` items are queued, the difference of the counters is their number.
-/

/-- The slots and the two counters. -/
structure RingQueue (α : Type) (w : ℕ) where
  slot : ℕ → α
  rd : BitVec w
  wr : BitVec w

namespace RingQueue

open Function List

variable {α : Type} {w c : ℕ}

/-- How many items are queued. -/
def count (r : RingQueue α w) : ℕ := (r.wr - r.rd).toNat

/-- The queued items, the oldest first. -/
def contents (c : ℕ) (r : RingQueue α w) : List α :=
  (List.range r.count).map fun j ↦ r.slot ((r.rd.toNat + j) % c)

/-- Store an item and count it. -/
def push (c : ℕ) (r : RingQueue α w) (x : α) : RingQueue α w :=
  { r with
    slot := update r.slot (r.wr.toNat % c) x
    wr := r.wr + 1 }

/-- Count an item as read. -/
def pop (r : RingQueue α w) : RingQueue α w := { r with rd := r.rd + 1 }

variable (r : RingQueue α w)

/-- The writer's counter is the reader's, plus what is queued. -/
theorem wr_eq : r.wr = r.rd + BitVec.ofNat w r.count := by
  rw [count, BitVec.ofNat_toNat, BitVec.setWidth_eq, BitVec.add_comm, BitVec.sub_add_cancel]

theorem count_eq_iff {n : ℕ} (hn : n < 2 ^ w) :
    r.count = n ↔ r.wr = r.rd + BitVec.ofNat w n := by
  constructor
  · rintro rfl
    exact r.wr_eq
  · intro h
    rw [count, h, BitVec.add_comm, BitVec.add_sub_cancel, BitVec.toNat_ofNat, Nat.mod_eq_of_lt hn]

theorem count_eq_zero_iff : r.count = 0 ↔ r.rd = r.wr := by
  rw [r.count_eq_iff (Nat.two_pow_pos w), eq_comm]
  simp

theorem wr_toNat : r.wr.toNat = (r.rd.toNat + r.count) % 2 ^ w := by
  conv_lhs => rw [r.wr_eq]
  rw [BitVec.toNat_add, BitVec.toNat_ofNat, Nat.add_mod_mod]

theorem count_push (h : r.count + 1 < 2 ^ w) (x : α) : (r.push c x).count = r.count + 1 := by
  rw [count_eq_iff _ h]
  show r.wr + 1 = r.rd + BitVec.ofNat w (r.count + 1)
  conv_lhs => rw [r.wr_eq]
  rw [BitVec.ofNat_add, BitVec.add_assoc]
  rfl

theorem count_pop (h : r.count ≠ 0) : r.pop.count = r.count - 1 := by
  have hlt : r.count < 2 ^ w := (r.wr - r.rd).isLt
  rw [count_eq_iff _ (by omega)]
  show r.wr = r.rd + 1 + BitVec.ofNat w (r.count - 1)
  obtain ⟨k, hk⟩ : ∃ k, r.count = k + 1 := ⟨r.count - 1, by omega⟩
  conv_lhs => rw [r.wr_eq]
  rw [hk, Nat.add_sub_cancel, BitVec.ofNat_add, BitVec.add_comm (BitVec.ofNat w k),
    BitVec.add_assoc]
  rfl

/-- The slot the writer uses next comes after the queued ones. -/
theorem wr_mod (hc : c ∣ 2 ^ w) : r.wr.toNat % c = (r.rd.toNat + r.count) % c := by
  rw [r.wr_toNat, Nat.mod_mod_of_dvd _ hc]

/-- Fewer than `c` steps apart, slots are different. -/
theorem slot_ne {a j k : ℕ} (hjk : j < k) (hk : k < j + c) : (a + j) % c ≠ (a + k) % c := by
  intro h
  have hdvd : c ∣ (a + k) - (a + j) := (Nat.modEq_iff_dvd' (by omega)).1 h
  have hle := Nat.le_of_dvd (by omega) hdvd
  omega

/-- A slot that is not in use may have any item. -/
theorem contents_update (hc : c ∣ 2 ^ w) (hlt : r.count < c) (x : α) :
    { r with slot := update r.slot (r.wr.toNat % c) x }.contents c = r.contents c := by
  refine map_congr_left fun j hj ↦ ?_
  rw [mem_range] at hj
  show update r.slot (r.wr.toNat % c) x ((r.rd.toNat + j) % c) = _
  have hj : j < r.count := hj
  rw [r.wr_mod hc, update_of_ne (slot_ne hj (by omega))]

/-- The writer counts the item that it has stored. -/
theorem contents_succ (hc : c ∣ 2 ^ w) (hw : r.count + 1 < 2 ^ w) :
    { r with wr := r.wr + 1 }.contents c = r.contents c ++ [r.slot (r.wr.toNat % c)] := by
  have hcount : { r with wr := r.wr + 1 }.count = r.count + 1 :=
    r.count_push (c := c) hw (r.slot 0)
  rw [contents, hcount, range_succ, map_append, map_singleton, r.wr_mod hc]
  rfl

theorem contents_push (hc : c ∣ 2 ^ w) (hlt : r.count < c) (hw : r.count + 1 < 2 ^ w) (x : α) :
    (r.push c x).contents c = r.contents c ++ [x] := by
  rw [← r.contents_update hc hlt x]
  have hsucc := contents_succ (c := c)
    { r with slot := update r.slot (r.wr.toNat % c) x } hc hw
  dsimp only at hsucc
  rw [update_self] at hsucc
  exact hsucc

theorem contents_eq_cons (hc : c ∣ 2 ^ w) (h : r.count ≠ 0) :
    r.contents c = r.slot (r.rd.toNat % c) :: r.pop.contents c := by
  have hpop : (r.rd + 1).toNat = (r.rd.toNat + 1) % 2 ^ w := by
    rw [BitVec.toNat_add]
    cases w with
    | zero => omega
    | succ w => simp
  have hcount : r.count = r.pop.count + 1 := by
    have := r.count_pop h
    omega
  rw [contents, hcount, range_succ_eq_map, map_cons, map_map, contents]
  congr 1
  refine map_congr_left fun j _ ↦ ?_
  show r.slot ((r.rd.toNat + (j + 1)) % c) = r.slot (((r.rd + 1).toNat + j) % c)
  congr 1
  rw [hpop, Nat.add_mod (_ % 2 ^ w), Nat.mod_mod_of_dvd _ hc, ← Nat.add_mod, Nat.add_assoc,
    Nat.add_comm 1 j]

/-! ### Moving the writer back

A writer that may take back what it has stored last moves its counter back. -/

@[simp] theorem length_contents : (r.contents c).length = r.count := by
  rw [contents, length_map, length_range]

/-- The items before an earlier position `v` of the writer. -/
theorem contents_take {v : BitVec w} (h : (v - r.rd).toNat ≤ r.count) :
    { r with wr := v }.contents c = (r.contents c).take (v - r.rd).toNat := by
  rw [contents, contents, ← map_take, take_range, Nat.min_eq_left h]
  rfl

theorem count_retract (h : r.count ≠ 0) : (r.wr - 1 - r.rd).toNat = r.count - 1 := by
  have hlt : r.count < 2 ^ w := (r.wr - r.rd).isLt
  obtain ⟨k, hk⟩ : ∃ k, r.count = k + 1 := ⟨r.count - 1, by omega⟩
  have hwr := r.wr_eq
  rw [hk, BitVec.ofNat_add, ← BitVec.add_assoc] at hwr
  have hsub : r.wr - 1 = r.rd + BitVec.ofNat w k := by
    rw [hwr]
    exact BitVec.add_sub_cancel ..
  rw [hsub, BitVec.add_comm, BitVec.add_sub_cancel, BitVec.toNat_ofNat, hk, Nat.add_sub_cancel,
    Nat.mod_eq_of_lt (by omega)]

/-- The slot behind the writer has the newest item. -/
theorem contents_eq_append (hc : c ∣ 2 ^ w) (h : r.count ≠ 0) :
    r.contents c = { r with wr := r.wr - 1 }.contents c ++ [r.slot ((r.wr - 1).toNat % c)] := by
  have hcount : { r with wr := r.wr - 1 }.count = r.count - 1 := r.count_retract h
  have hslot := { r with wr := r.wr - 1 }.wr_mod hc
  obtain ⟨k, hk⟩ : ∃ k, r.count = k + 1 := ⟨r.count - 1, by omega⟩
  rw [hk, Nat.add_sub_cancel] at hcount
  rw [contents, contents, hcount, hk, range_succ, map_append, map_singleton]
  rw [hcount] at hslot
  dsimp only at hslot ⊢
  rw [hslot]

end RingQueue

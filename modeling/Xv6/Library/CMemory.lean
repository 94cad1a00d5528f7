import Mathlib.Algebra.Group.Nat.Defs
import Mathlib.Logic.Function.Basic
import Xv6.Library.Wp

/-!
# C code on the bytes of a memory

Memory is partial: it has the bytes of some objects, and at any other address there is nothing, so
that to read or write there is a stop. A specification by `wp` therefore also says which bytes the
code touches: in a memory that has certain objects and nothing else it stays inside of them.

Pointers are 64 bits wide and wrap around. An index into an array is a pointer's distance from the
first element, so that an array is given by where it begins and how long it is, and the two
conditions under which a copy in place works are the same condition with the pointers exchanged
(`wp_copyUp`, `wp_copyDown`).
-/

namespace CMemory

open Function List Option

abbrev Ptr := BitVec 64

/-- The bytes that are there. -/
abbrev Mem := Ptr → Option (BitVec 8)

/-- Why code stops. -/
inductive Stop
  /-- There is no byte at `p`. -/
  | access (p : Ptr)
  /-- A loop comes around the whole memory. -/
  | spins
  deriving DecidableEq, Repr

abbrev C := StateT Mem (Except Stop)

def load (p : Ptr) : C (BitVec 8) := do
  match (← get) p with
  | some b => return b
  | none => throw (.access p)

def store (p : Ptr) (b : BitVec 8) : C Unit := do
  if ((← get) p).isSome then modify fun m ↦ update m p (some b)
  else throw (.access p)

/-- An array of `n` bytes at `p` is there. -/
def Has (m : Mem) (p : Ptr) (n : ℕ) : Prop := ∀ k : Ptr, k.toNat < n → (m (p + k)).isSome

variable {m : Mem} {p d s : Ptr} {n : ℕ} {b : BitVec 8}

theorem wp_load {Q : BitVec 8 → Mem → Prop} (h : m p = some b) : wp (load p) Q m ↔ Q b m := by
  rw [load, wp_bind, wp_get, h]
  exact wp_pure

theorem wp_store {Q : Unit → Mem → Prop} (h : (m p).isSome) :
    wp (store p b) Q m ↔ Q () (update m p (some b)) := by
  rw [store, wp_bind, wp_get, if_pos h, wp_modify]

/-- A store changes a byte that is there, and makes no byte be there. -/
theorem Has.update (h : Has m p n) {q : Ptr} : Has (update m q (some b)) p n := by
  intro k hk
  rw [update_apply]
  split_ifs
  · rfl
  · exact h k hk

theorem Has.mono {k : ℕ} (h : Has m p n) (hk : k ≤ n) : Has m p k := fun i hi ↦
  h i (Nat.lt_of_lt_of_le hi hk)

theorem Has.head (h : Has m p (n + 1)) : (m p).isSome := by
  have h0 := h 0#64 (Nat.succ_pos n)
  rwa [BitVec.add_zero] at h0

theorem Has.tail (h : Has m p (n + 1)) (hn : n < 2 ^ 64) : Has m (p + 1) n := by
  intro k hk
  rw [BitVec.add_assoc]
  exact h (1 + k) (by bv_omega)

/-! ### Bytes in their places -/

/-- The bytes `l` are at `p`. -/
def Holds (m : Mem) (p : Ptr) (l : List (BitVec 8)) : Prop :=
  ∀ k : Ptr, k.toNat < l.length → m (p + k) = l[k.toNat]?

/-- The memory in which the bytes at `p` are `l`. -/
def written (m : Mem) (p : Ptr) (l : List (BitVec 8)) : Mem := fun a ↦
  if (a - p).toNat < l.length then l[(a - p).toNat]? else m a

/-- Two arrays have no byte in common. -/
def Apart (p : Ptr) (n : ℕ) (q : Ptr) (k : ℕ) : Prop :=
  ∀ i j : Ptr, i.toNat < n → j.toNat < k → p + i ≠ q + j

variable {l l' : List (BitVec 8)} {q : Ptr} {k : ℕ}

theorem Holds.has (h : Holds m p l) : Has m p l.length := by
  intro k hk
  rw [h k hk, List.getElem?_eq_getElem hk]
  rfl

theorem Holds.of_forall_lt (h : ∀ i < l.length, m (p + BitVec.ofNat 64 i) = l[i]?) :
    Holds m p l := by
  intro k hk
  have hlt := h k.toNat hk
  rwa [BitVec.ofNat_toNat, BitVec.setWidth_eq] at hlt

theorem Holds.head (h : Holds m p (b :: l)) : m p = some b := by
  have h0 := h 0#64 (Nat.succ_pos _)
  rwa [BitVec.add_zero] at h0

/-- The second of two lists in a row. -/
theorem Holds.right (h : Holds m p (l ++ l')) (hlen : (l ++ l').length ≤ 2 ^ 64) :
    Holds m (p + BitVec.ofNat 64 l.length) l' := by
  intro k hk
  rw [length_append] at hlen
  have hsum : (BitVec.ofNat 64 l.length + k).toNat = l.length + k.toNat := by bv_omega
  rw [BitVec.add_assoc, h _ (by rw [hsum, length_append]; omega), hsum,
    List.getElem?_append_right (Nat.le_add_right _ _), Nat.add_sub_cancel_left]

theorem Holds.tail (h : Holds m p (b :: l)) (hlen : l.length < 2 ^ 64) : Holds m (p + 1) l :=
  Holds.right (l := [b]) h hlen

theorem Holds.left (h : Holds m p (l ++ l')) : Holds m p l := by
  intro k hk
  rw [h k (by rw [length_append]; omega), List.getElem?_append_left hk]

theorem Holds.take (h : Holds m p l) (n : ℕ) : Holds m p (l.take n) := by
  rw [← take_append_drop n l] at h
  exact h.left

/-- A place has one content. -/
theorem Holds.unique (h : Holds m p l) (h' : Holds m p l') (heq : l.length = l'.length)
    (hlen : l.length ≤ 2 ^ 64) : l = l' := by
  refine ext_getElem? fun i ↦ ?_
  by_cases hi : i < l.length
  · have hk : (BitVec.ofNat 64 i).toNat = i := by bv_omega
    have hl := h (BitVec.ofNat 64 i) (by omega)
    have hl' := h' (BitVec.ofNat 64 i) (by omega)
    rw [hk] at hl hl'
    rw [← hl, hl']
  · rw [List.getElem?_eq_none (by omega), List.getElem?_eq_none (by omega)]

theorem holds_written : Holds (written m p l) p l := by
  intro k hk
  rw [written, show p + k - p = k by bv_omega, if_pos hk]

theorem written_of_ge {a : Ptr} (ha : l.length ≤ (a - p).toNat) : written m p l a = m a :=
  if_neg (Nat.not_lt.2 ha)

theorem Apart.written_eq (h : Apart p l.length q n) {k : Ptr} (hk : k.toNat < n) :
    written m p l (q + k) = m (q + k) := by
  refine written_of_ge (Nat.le_of_not_lt fun hlt ↦ h (q + k - p) k hlt hk ?_)
  bv_omega

/-- What is elsewhere stays. -/
theorem Holds.written (h : Holds m q l') (hapart : Apart p l.length q l'.length) :
    Holds (written m p l) q l' := fun k hk ↦ by rw [hapart.written_eq hk, h k hk]

theorem Has.written (h : Has m q n) : Has (written m p l) q n := by
  intro k hk
  rw [CMemory.written]
  split_ifs with hlt
  · rw [List.getElem?_eq_getElem hlt]
    rfl
  · exact h k hk

theorem Apart.symm (h : Apart p n q k) : Apart q k p n := fun i j hi hj heq ↦ h j i hj hi heq.symm

theorem Apart.mono {n' k' : ℕ} (h : Apart p n q k) (hn : n' ≤ n) (hk : k' ≤ k) :
    Apart p n' q k' := fun i j hi hj ↦
  h i j (Nat.lt_of_lt_of_le hi hn) (Nat.lt_of_lt_of_le hj hk)

theorem Apart.tail (h : Apart p (n + 1) q k) (hn : n < 2 ^ 64) : Apart (p + 1) n q k := by
  intro i j hi hj
  rw [BitVec.add_assoc]
  exact h (1 + i) j (by bv_omega) hj

theorem written_nil : written m p [] = m := rfl

/-- A byte and then those behind it. -/
theorem written_update_head (hlen : l.length < 2 ^ 64) :
    written (update m p (some b)) (p + 1) l = written m p (b :: l) := by
  funext a
  rw [written, written, length_cons]
  by_cases ha : a = p
  · rw [if_neg (by bv_omega), if_pos (by bv_omega), ha, update_self,
      show p - p = 0#64 by bv_omega]
    rfl
  · rw [update_of_ne ha]
    by_cases hlt : (a - p).toNat < l.length + 1
    · rw [if_pos (by bv_omega), if_pos hlt,
        show (a - p).toNat = (a - (p + 1)).toNat + 1 by bv_omega, List.getElem?_cons_succ]
    · rw [if_neg (by bv_omega), if_neg hlt]

theorem update_eq_written : update m p (some b) = written m p [b] :=
  written_update_head (l := []) (by decide)

/-- A byte behind those that are written. -/
theorem update_written (hlen : l.length < 2 ^ 64) :
    update (written m p l) (p + BitVec.ofNat 64 l.length) (some b) =
      written m p (l ++ [b]) := by
  funext a
  rw [written, length_append, length_singleton]
  by_cases ha : a = p + BitVec.ofNat 64 l.length
  · have hsub : (a - p).toNat = l.length := by bv_omega
    rw [ha, update_self, ← ha, hsub, if_pos (Nat.lt_succ_self _),
      List.getElem?_concat_length]
  · rw [update_of_ne ha, written]
    by_cases hlt : (a - p).toNat < l.length
    · rw [if_pos hlt, if_pos (by omega), List.getElem?_append_left hlt]
    · rw [if_neg hlt, if_neg (by bv_omega)]

/-! ### Scans -/

/-- `while (test(*p)) p++;` with a bound on the turns. -/
def scan (test : BitVec 8 → Bool) : ℕ → Ptr → C Ptr
  | 0, _ => throw .spins
  | turns + 1, p => do
    if test (← load p) then scan test turns (p + 1) else return p

theorem wp_scan {test : BitVec 8 → Bool} {turns : ℕ} (h : Holds m p (l ++ b :: l'))
    (hl : ∀ c ∈ l, test c = true) (hb : test b = false) (hlen : (l ++ b :: l').length ≤ turns)
    (hturns : turns ≤ 2 ^ 64) :
    wp (scan test turns p) (fun r t ↦ r = p + BitVec.ofNat 64 l.length ∧ t = m) m := by
  induction turns generalizing p l with
  | zero =>
    rw [length_append, length_cons] at hlen
    omega
  | succ turns ih =>
    cases l with
    | nil =>
      rw [scan, wp_bind, wp_load h.head, hb, if_neg Bool.false_ne_true, wp_pure]
      exact ⟨(BitVec.add_zero p).symm, rfl⟩
    | cons c l =>
      rw [cons_append, length_cons] at hlen
      rw [scan, wp_bind, wp_load (Holds.head h), hl c mem_cons_self, if_pos rfl]
      refine (ih (Holds.tail h (by omega)) (fun c hc ↦ hl c (mem_cons_of_mem _ hc))
        (by omega) (by omega)).mono fun r t ⟨hr, ht⟩ ↦ ⟨?_, ht⟩
      rw [hr, length_cons]
      bv_omega

/-! ### Copies in place -/

/-- `while (n-- > 0) *d++ = *s++;` -/
def copyUp (d s : Ptr) : ℕ → C Unit
  | 0 => return ()
  | n + 1 => do
    store d (← load s)
    copyUp (d + 1) (s + 1) n

/-- `while (n-- > 0) *--d = *--s;` -/
def copyDown (d s : Ptr) : ℕ → C Unit
  | 0 => return ()
  | n + 1 => do
    store (d - 1) (← load (s - 1))
    copyDown (d - 1) (s - 1) n

/-- The memory in which the `n` bytes at `d` are those that were at `s`. -/
def moved (m : Mem) (d s : Ptr) (n : ℕ) : Mem := fun a ↦
  if (a - d).toNat < n then m (s + (a - d)) else m a

@[simp]
theorem moved_zero : moved m d s 0 = m := rfl

theorem moved_apply {k : Ptr} (hk : k.toNat < n) : moved m d s n (d + k) = m (s + k) := by
  rw [moved, show d + k - d = k by bv_omega, if_pos hk]

theorem moved_of_ge {a : Ptr} (ha : n ≤ (a - d).toNat) : moved m d s n a = m a :=
  if_neg (Nat.not_lt.2 ha)

/-- The first byte goes first. -/
theorem moved_update_head (hn : n < 2 ^ 64) (hs : m s = some b)
    (hsafe : d = s ∨ n < (d - s).toNat) :
    moved (update m d (some b)) (d + 1) (s + 1) n = moved m d s (n + 1) := by
  funext a
  rw [moved, moved, show s + 1 + (a - (d + 1)) = s + (a - d) by bv_omega]
  by_cases ha : a = d
  · rw [if_neg (by bv_omega), if_pos (by bv_omega), ha, update_self,
      show s + (d - d) = s by bv_omega, hs]
  · rw [update_of_ne ha]
    by_cases hlt : (a - d).toNat < n + 1
    · rw [if_pos (by bv_omega), if_pos hlt, update_of_ne (by bv_omega)]
    · rw [if_neg (by bv_omega), if_neg hlt]

/-- The last byte goes first. -/
theorem moved_update_last (hn : n < 2 ^ 64) (hs : m (s + BitVec.ofNat 64 n) = some b)
    (hsafe : d = s ∨ n < (s - d).toNat) :
    moved (update m (d + BitVec.ofNat 64 n) (some b)) d s n = moved m d s (n + 1) := by
  funext a
  rw [moved, moved]
  by_cases ha : a = d + BitVec.ofNat 64 n
  · rw [if_neg (by bv_omega), if_pos (by bv_omega), ha, update_self,
      show s + (d + BitVec.ofNat 64 n - d) = s + BitVec.ofNat 64 n by bv_omega, hs]
  · rw [update_of_ne ha]
    by_cases hlt : (a - d).toNat < n
    · rw [if_pos hlt, if_pos (by omega), update_of_ne (by bv_omega)]
    · rw [if_neg hlt, if_neg (by bv_omega)]

theorem moved_eq_written (h : Holds m s l) : moved m d s l.length = written m d l := by
  funext a
  rw [moved, written]
  split_ifs with hlt
  · exact h _ hlt
  · rfl

/-- **Copying upwards** works where no byte is overwritten before it is read. -/
theorem wp_copyUp (hn : n ≤ 2 ^ 64) (hs : Has m s n) (hd : Has m d n)
    (hsafe : d = s ∨ n ≤ (d - s).toNat) :
    wp (copyUp d s n) (fun _ t ↦ t = moved m d s n) m := by
  induction n generalizing m d s with
  | zero => rw [copyUp, wp_pure, moved_zero]
  | succ n ih =>
    obtain ⟨b, hb⟩ := isSome_iff_exists.1 hs.head
    rw [copyUp, wp_bind, wp_load hb, wp_bind, wp_store hd.head]
    have hsub : d + 1 - (s + 1) = d - s := by bv_omega
    refine (ih (by omega) (hs.tail hn).update (hd.tail hn).update ?_).mono fun _ t ht ↦ ?_
    · rw [hsub]
      exact hsafe.imp (congrArg (· + 1)) Nat.le_of_succ_le
    · rw [ht, moved_update_head hn hb hsafe]

/-- **Copying downwards**, from beyond the last byte. -/
theorem wp_copyDown (hn : n ≤ 2 ^ 64) (hs : Has m s n) (hd : Has m d n)
    (hsafe : d = s ∨ n ≤ (s - d).toNat) :
    wp (copyDown (d + BitVec.ofNat 64 n) (s + BitVec.ofNat 64 n) n)
      (fun _ t ↦ t = moved m d s n) m := by
  induction n generalizing m with
  | zero => rw [copyDown, wp_pure, moved_zero]
  | succ n ih =>
    have hlast : (BitVec.ofNat 64 n).toNat < n + 1 := by bv_omega
    have hpred : ∀ q : Ptr, q + BitVec.ofNat 64 (n + 1) - 1 = q + BitVec.ofNat 64 n := by
      intro q
      bv_omega
    obtain ⟨b, hb⟩ := isSome_iff_exists.1 (hs _ hlast)
    rw [copyDown, hpred, hpred, wp_bind, wp_load hb, wp_bind, wp_store (hd _ hlast)]
    refine (ih (by omega) (hs.mono (Nat.le_succ n)).update (hd.mono (Nat.le_succ n)).update
      (hsafe.imp_right Nat.le_of_succ_le)).mono fun _ t ht ↦ ?_
    rw [ht, moved_update_last hn hb hsafe]

end CMemory

import Mathlib.Data.List.Basic
import Mathlib.Tactic.Common

/-!
# Writing a sequence in pieces

A memory is a function from addresses. `slice` reads a list from it and `overwrite` writes one; a
list that is written in pieces, each behind the last, is written. `cut k` cuts a list into pieces of
`k` items, the last of which may be shorter.
-/

variable {α : Type*}

/-! ### Reading -/

/-- The `n` items from address `a`. -/
def slice (f : ℕ → α) (a n : ℕ) : List α := (List.range n).map fun j ↦ f (a + j)

variable {f : ℕ → α} {a : ℕ}

@[simp] theorem length_slice (f : ℕ → α) (a n : ℕ) : (slice f a n).length = n := by
  rw [slice, List.length_map, List.length_range]

@[simp] theorem slice_zero (f : ℕ → α) (a : ℕ) : slice f a 0 = [] := rfl

theorem slice_add (f : ℕ → α) (a m n : ℕ) :
    slice f a (m + n) = slice f a m ++ slice f (a + m) n := by
  rw [slice, List.range_add, List.map_append, List.map_map]
  refine congrArg (_ ++ ·) (List.map_congr_left fun j _ ↦ ?_)
  rw [Function.comp_apply, Nat.add_assoc]

theorem getElem?_slice {n j : ℕ} (h : j < n) : (slice f a n)[j]? = some (f (a + j)) := by
  rw [slice, List.getElem?_map, List.getElem?_range h, Option.map_some]

/-- A piece of a piece. -/
theorem take_drop_slice (f : ℕ → α) (a n k m : ℕ) :
    ((slice f a n).drop k).take m = slice f (a + k) (min m (n - k)) := by
  refine List.ext_getElem? fun j ↦ ?_
  rw [List.getElem?_take, List.getElem?_drop]
  by_cases hj : j < min m (n - k)
  · rw [if_pos (by omega), getElem?_slice (by omega), getElem?_slice hj, Nat.add_assoc]
  · rw [List.getElem?_eq_none (l := slice f (a + k) _) (by rw [length_slice]; omega)]
    split_ifs
    · exact List.getElem?_eq_none (by rw [length_slice]; omega)
    · rfl

theorem slice_congr {g : ℕ → α} {b n : ℕ} (h : ∀ j < n, f (a + j) = g (b + j)) :
    slice f a n = slice g b n :=
  List.map_congr_left fun j hj ↦ h j (List.mem_range.1 hj)

/-- A list as a memory. -/
theorem slice_getD (l : List α) (x : α) {n : ℕ} (h : a + n ≤ l.length) :
    slice (l.getD · x) a n = (l.drop a).take n := by
  refine List.ext_getElem? fun j ↦ ?_
  rw [List.getElem?_take]
  split_ifs with hj
  · rw [getElem?_slice hj, List.getElem?_drop, List.getD_eq_getElem?_getD,
      List.getElem?_eq_getElem (by omega), Option.getD_some]
  · rw [List.getElem?_eq_none (by rw [length_slice]; omega)]

/-! ### Writing -/

/-- Write the list `l` at address `a`. -/
def overwrite (f : ℕ → α) (a : ℕ) (l : List α) : ℕ → α := fun k ↦
  if a ≤ k then l[k - a]?.getD (f k) else f k

@[simp] theorem overwrite_nil (f : ℕ → α) (a : ℕ) : overwrite f a [] = f := by
  funext k
  simp [overwrite]

theorem overwrite_append (f : ℕ → α) (a : ℕ) (l m : List α) :
    overwrite f a (l ++ m) = overwrite (overwrite f a l) (a + l.length) m := by
  funext k
  by_cases hl : k < a + l.length
  · rw [overwrite, overwrite, if_neg (by omega : ¬a + l.length ≤ k), overwrite]
    by_cases ha : a ≤ k
    · rw [if_pos ha, if_pos ha, List.getElem?_append_left (by omega)]
    · rw [if_neg ha, if_neg ha]
  · have hnone : l[k - a]? = none := List.getElem?_eq_none (by omega)
    rw [overwrite, overwrite, if_pos (by omega : a ≤ k), if_pos (by omega : a + l.length ≤ k),
      overwrite, if_pos (by omega : a ≤ k), hnone, List.getElem?_append_right (by omega),
      Nat.sub_sub, Option.getD_none]

/-- Writing behind the end of a list is appending to it. -/
theorem overwrite_getD (l q : List α) (x : α) :
    overwrite (l.getD · x) l.length q = ((l ++ q).getD · x) := by
  funext k
  simp only [overwrite, List.getD_eq_getElem?_getD]
  split_ifs with hk
  · rw [List.getElem?_append_right hk, List.getElem?_eq_none hk]
    rfl
  · rw [List.getElem?_append_left (Nat.not_le.1 hk)]

/-- Only the addresses of what is written change. -/
theorem overwrite_of_lt_or_le {l : List α} {k : ℕ} (h : k < a ∨ a + l.length ≤ k) :
    overwrite f a l k = f k := by
  rw [overwrite]
  split_ifs with hk
  · rw [List.getElem?_eq_none (by omega), Option.getD_none]
  · rfl

/-- Writing the same at a place moved by `c`. -/
theorem overwrite_shift {g : ℕ → α} {l : List α} {c k : ℕ} (h : f k = g (c + k)) :
    overwrite f a l k = overwrite g (c + a) l (c + k) := by
  rw [overwrite, overwrite, h, Nat.add_sub_add_left]
  by_cases hk : a ≤ k
  · rw [if_pos hk, if_pos (by omega)]
  · rw [if_neg hk, if_neg (by omega)]

/-- Inside what is written, what was there before does not matter. -/
theorem overwrite_inside {g : ℕ → α} {l : List α} {k : ℕ} (h : a ≤ k) (h' : k < a + l.length) :
    overwrite f a l k = overwrite g a l k := by
  rw [overwrite, overwrite, if_pos h, if_pos h, List.getElem?_eq_getElem (by omega),
    Option.getD_some,
    Option.getD_some]

theorem overwrite_congr {g : ℕ → α} {l : List α} {k : ℕ} (h : f k = g k) :
    overwrite f a l k = overwrite g a l k := by
  rw [overwrite, overwrite, h]

/-- The list `l` with the items from `a` on replaced by those of `m`, and extended if they reach
past its end. -/
def splice (l : List α) (a : ℕ) (m : List α) : List α := l.take a ++ m ++ l.drop (a + m.length)

theorem length_splice {l m : List α} (ha : a ≤ l.length) :
    (splice l a m).length = max l.length (a + m.length) := by
  rw [splice, List.length_append, List.length_append, List.length_take, List.length_drop]
  omega

/-- A memory that was written to, read as a list. -/
theorem slice_overwrite {m : List α} {n : ℕ} (ha : a ≤ n) :
    slice (overwrite f a m) 0 (max n (a + m.length)) = splice (slice f 0 n) a m := by
  refine List.ext_getElem? fun k ↦ ?_
  have htake : ((slice f 0 n).take a).length = a := by rw [List.length_take, length_slice]; omega
  rcases Nat.lt_or_ge k a with hk | hk
  · rw [getElem?_slice (by omega), Nat.zero_add, overwrite_of_lt_or_le (.inl hk), splice,
      List.append_assoc, List.getElem?_append_left (by omega), List.getElem?_take, if_pos hk,
      getElem?_slice (by omega), Nat.zero_add]
  rw [splice, List.append_assoc, List.getElem?_append_right (by omega), htake]
  rcases Nat.lt_or_ge k (a + m.length) with hk' | hk'
  · rw [getElem?_slice (by omega), Nat.zero_add, List.getElem?_append_left (by omega), overwrite,
      if_pos hk, List.getElem?_eq_getElem (by omega), Option.getD_some]
  · rw [List.getElem?_append_right (by omega), List.getElem?_drop,
      show a + m.length + (k - a - m.length) = k by omega]
    rcases Nat.lt_or_ge k n with hn | hn
    · rw [getElem?_slice (by omega), getElem?_slice hn, Nat.zero_add,
        overwrite_of_lt_or_le (.inr hk')]
    · rw [List.getElem?_eq_none (by rw [length_slice]; omega),
        List.getElem?_eq_none (by rw [length_slice]; omega)]

/-! ### Cutting -/

/-- The pieces of `k` items of a list. -/
def cut (k : ℕ) : List α → List (List α)
  | [] => []
  | x :: l => (x :: l.take (k - 1)) :: cut k (l.drop (k - 1))
termination_by l => l.length
decreasing_by
  rw [List.length_drop, List.length_cons]
  omega

variable {k : ℕ} {l : List α}

@[simp] theorem cut_nil (k : ℕ) : cut k ([] : List α) = [] := by
  rw [cut]

theorem cut_eq_cons (hk : k ≠ 0) (hl : l ≠ []) : cut k l = l.take k :: cut k (l.drop k) := by
  obtain ⟨x, l, rfl⟩ := List.exists_cons_of_ne_nil hl
  obtain ⟨k, rfl⟩ := Nat.exists_eq_succ_of_ne_zero hk
  rw [cut]
  rfl

/-- A list that is short enough is one piece. -/
theorem cut_of_length_le (hl : l ≠ []) (hlen : l.length ≤ k) : cut k l = [l] := by
  have hpos := List.length_pos_iff.2 hl
  rw [cut_eq_cons (by omega) hl, List.take_of_length_le hlen, List.drop_eq_nil_of_le hlen, cut_nil]

theorem flatten_cut (k : ℕ) (l : List α) : (cut k l).flatten = l := by
  induction l using cut.induct k with
  | case1 => rw [cut_nil, List.flatten_nil]
  | case2 x l ih => rw [cut, List.flatten_cons, ih, List.cons_append, List.take_append_drop]

theorem length_le_of_mem_cut (hk : k ≠ 0) {m : List α} (h : m ∈ cut k l) : m.length ≤ k := by
  induction l using cut.induct k with
  | case1 =>
    rw [cut_nil] at h
    exact absurd h List.not_mem_nil
  | case2 x l ih =>
    rw [cut, List.mem_cons] at h
    rcases h with rfl | h
    · have hle := List.length_take_le (k - 1) l
      rw [List.length_cons]
      omega
    · exact ih h

theorem cut_slice_add (hk : k ≠ 0) (n : ℕ) :
    cut k (slice f a (k + n)) = slice f a k :: cut k (slice f (a + k) n) := by
  have hne : slice f a (k + n) ≠ [] := by
    rw [← List.length_pos_iff, length_slice]
    omega
  rw [cut_eq_cons hk hne, slice_add, List.take_left' (length_slice f a k),
    List.drop_left' (length_slice f a k)]

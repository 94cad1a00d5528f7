import Mathlib.Tactic.Common

/-!
# Bit fields of a wide vector

A block of storage, a page of memory, a record on disk: each is a fixed number of bits in which
C code reads and writes fields. Here such an object is one `BitVec n`, a field is an interval
`[o, o + w)` of its bits, and little-endian layout is the identity: byte `i` is the field of width
`8` at `8 * i`, and bit `k` of a bitmap is the field of width `1` at `k`.

`field` reads and `put` writes. Everything is proved from the one description of `put` by its bits,
`getLsbD_put`; the lens laws (`field_put_self`, `field_put_of_disjoint`, `put_field`) are what the
rest of a development uses.
-/

namespace BitVec

variable {n w v : ℕ}

/-- The field of width `w` that starts at bit `o`. -/
def field (b : BitVec n) (o w : ℕ) : BitVec w :=
  b.extractLsb' o w

/-- Overwrite the `w` bits of `b` from bit `o` on by `x`; bits past the end are dropped. -/
def put (b : BitVec n) (o : ℕ) (x : BitVec w) : BitVec n :=
  (b &&& ~~~((allOnes w).setWidth n <<< o)) ||| (x.setWidth n <<< o)

@[simp]
theorem getLsbD_field (b : BitVec n) (o w i : ℕ) :
    (b.field o w).getLsbD i = (decide (i < w) && b.getLsbD (o + i)) :=
  getLsbD_extractLsb' o w b i

/-- What `put` does, bit by bit. -/
theorem getLsbD_put (b : BitVec n) (o : ℕ) (x : BitVec w) (i : ℕ) (hi : i < n) :
    (b.put o x).getLsbD i =
      if o ≤ i ∧ i < o + w then x.getLsbD (i - o) else b.getLsbD i := by
  have hio : i - o < n := by omega
  simp only [put, getLsbD_or, getLsbD_and, getLsbD_not, getLsbD_shiftLeft, getLsbD_setWidth,
    getLsbD_allOnes, hi, hio, decide_true, Bool.true_and]
  by_cases ho : i < o
  · have h : ¬(o ≤ i ∧ i < o + w) := by omega
    simp [ho, h]
  · by_cases hw : i - o < w
    · have h : o ≤ i ∧ i < o + w := by omega
      simp [ho, hw, h]
    · have h : ¬(o ≤ i ∧ i < o + w) := by omega
      have hx : x.getLsbD (i - o) = false := getLsbD_of_ge x (i - o) (by omega)
      simp [ho, hw, h, hx]

/-- Reading back what was written. -/
@[simp]
theorem field_put_self (b : BitVec n) (o : ℕ) (x : BitVec w) (h : o + w ≤ n) :
    (b.put o x).field o w = x := by
  refine eq_of_getLsbD_eq fun i hi ↦ ?_
  rw [getLsbD_field, getLsbD_put _ _ _ _ (by omega)]
  have h' : o ≤ o + i ∧ o + i < o + w := by omega
  simp [hi]

/-- Writing what is there. -/
theorem put_field (b : BitVec n) (o w : ℕ) : b.put o (b.field o w) = b := by
  refine eq_of_getLsbD_eq fun i hi ↦ ?_
  rw [getLsbD_put _ _ _ _ hi]
  split_ifs with h
  · rw [getLsbD_field, decide_eq_true (by omega), Bool.true_and, Nat.add_sub_cancel' h.1]
  · rfl

/-- A field that does not meet the written interval keeps its value. -/
theorem field_put_of_disjoint (b : BitVec n) (o : ℕ) (x : BitVec w) (o' : ℕ)
    (h : o' + v ≤ o ∨ o + w ≤ o') : (b.put o x).field o' v = b.field o' v := by
  refine eq_of_getLsbD_eq fun i hi ↦ ?_
  rw [getLsbD_field, getLsbD_field]
  rcases Nat.lt_or_ge (o' + i) n with hn | hn
  · have h' : ¬(o ≤ o' + i ∧ o' + i < o + w) := by omega
    rw [getLsbD_put _ _ _ _ hn, if_neg h']
  · rw [getLsbD_of_ge _ _ hn, getLsbD_of_ge _ _ hn]

/-- A field inside a field. -/
theorem field_field (b : BitVec n) (o w o' w' : ℕ) (h : o' + w' ≤ w) :
    (b.field o w).field o' w' = b.field (o + o') w' := by
  refine eq_of_getLsbD_eq fun i hi ↦ ?_
  have hlt : o' + i < w := by omega
  rw [getLsbD_field, getLsbD_field, getLsbD_field, Nat.add_assoc]
  simp only [hlt, decide_true, Bool.true_and]

end BitVec

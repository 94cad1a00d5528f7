import Mathlib.Algebra.Group.Nat.Defs
import Xv6.Library.BitField

/-!
# Byte sequences

A finite sequence of bytes, as a file or a buffer holds it. The bytes are a function on all
positions that is zero past the end, so that reading needs no bound and two sequences are equal when
their lengths and bytes are. `le` reads a little-endian word, `sub` takes a part and `write`
overwrites one.
-/

/-- Bytes at the positions below `length`. -/
@[ext]
structure ByteSeq where
  length : ℕ
  byte : ℕ → BitVec 8
  byte_of_le (i : ℕ) : length ≤ i → byte i = 0

namespace ByteSeq

/-! ### Words -/

/-- The number that the `n` bytes from position `o` are the digits of, the lowest first. -/
def value (s : ByteSeq) : ℕ → ℕ → ℕ
  | _, 0 => 0
  | o, n + 1 => 2 ^ 8 * s.value (o + 1) n + (s.byte o).toNat

/-- The little-endian word of `w` bits at position `o`. -/
def le (s : ByteSeq) (o w : ℕ) : BitVec w := BitVec.ofNat w (s.value o ((w + 7) / 8))

variable {s t : ByteSeq} {o w i : ℕ}

theorem testBit_value {n : ℕ} (h : i < 8 * n) :
    (s.value o n).testBit i = (s.byte (o + i / 8)).getLsbD (i % 8) := by
  induction n generalizing o i with
  | zero => omega
  | succ n ih =>
    rw [value, Nat.testBit_two_pow_mul_add _ (s.byte o).isLt]
    by_cases hi : i < 8
    · rw [if_pos hi, Nat.div_eq_of_lt hi, Nat.mod_eq_of_lt hi]
      rfl
    · have hdiv : o + 1 + (i - 8) / 8 = o + i / 8 := by omega
      have hmod : (i - 8) % 8 = i % 8 := by omega
      rw [if_neg hi, ih (by omega), hdiv, hmod]

theorem getLsbD_le (s : ByteSeq) (o : ℕ) (h : i < w) :
    (s.le o w).getLsbD i = (s.byte (o + i / 8)).getLsbD (i % 8) := by
  rw [le, BitVec.getLsbD_ofNat, testBit_value (by omega)]
  simp [h]

/-- Words are equal if the bytes are that they are made of. -/
theorem le_congr {o' : ℕ} (h : ∀ i < w, s.byte (o + i / 8) = t.byte (o' + i / 8)) :
    s.le o w = t.le o' w := by
  refine BitVec.eq_of_getLsbD_eq fun i hi ↦ ?_
  rw [getLsbD_le s o hi, getLsbD_le t o' hi, h i hi]

/-- A word inside a word. -/
theorem field_le (s : ByteSeq) (o : ℕ) {n k : ℕ} (h : 8 * k + w ≤ n) :
    (s.le o n).field (8 * k) w = s.le (o + k) w := by
  refine BitVec.eq_of_getLsbD_eq fun i hi ↦ ?_
  have hdiv : o + (8 * k + i) / 8 = o + k + i / 8 := by omega
  have hmod : (8 * k + i) % 8 = i % 8 := by omega
  rw [BitVec.getLsbD_field, getLsbD_le s o (by omega), getLsbD_le s _ hi, hdiv, hmod]
  simp [hi]

theorem le_eight (s : ByteSeq) (o : ℕ) : s.le o 8 = s.byte o := by
  refine BitVec.eq_of_getLsbD_eq fun i hi ↦ ?_
  rw [getLsbD_le s o hi, Nat.div_eq_of_lt hi, Nat.mod_eq_of_lt hi, Nat.add_zero]

/-- The bytes of a word. -/
def ofWord (x : BitVec w) : ByteSeq where
  length := (w + 7) / 8
  byte i := x.field (8 * i) 8
  byte_of_le i hi := by
    refine BitVec.eq_of_getLsbD_eq fun j hj ↦ ?_
    rw [BitVec.getLsbD_field, BitVec.getLsbD_of_ge x _ (by omega)]
    simp

@[simp] theorem le_ofWord (x : BitVec w) : (ofWord x).le 0 w = x := by
  refine BitVec.eq_of_getLsbD_eq fun i hi ↦ ?_
  have hdiv : 8 * (0 + i / 8) + i % 8 = i := by omega
  have hmod : i % 8 < 8 := by omega
  rw [getLsbD_le _ _ hi, ofWord, BitVec.getLsbD_field, hdiv]
  simp [hmod]

/-! ### Parts -/

/-- The part of `n` bytes from position `o`, or less at the end. -/
def sub (s : ByteSeq) (o n : ℕ) : ByteSeq where
  length := min n (s.length - o)
  byte i := if i < n then s.byte (o + i) else 0
  byte_of_le i hi := by
    by_cases h : i < n
    · rw [if_pos h]
      exact s.byte_of_le _ (by omega)
    · rw [if_neg h]

theorem byte_sub (s : ByteSeq) (o : ℕ) {n : ℕ} (h : i < n) : (s.sub o n).byte i = s.byte (o + i) :=
  if_pos h

theorem le_sub (s : ByteSeq) (o : ℕ) {n k : ℕ} (h : 8 * k + w ≤ 8 * n) :
    (s.sub o n).le k w = s.le (o + k) w :=
  le_congr fun i hi ↦ by rw [byte_sub s o (by omega), Nat.add_assoc]

/-- `n` zero bytes. -/
def zeros (n : ℕ) : ByteSeq := ⟨n, fun _ ↦ 0, fun _ _ ↦ rfl⟩

/-- The bytes of `s` and then those of `t`. -/
def append (s t : ByteSeq) : ByteSeq where
  length := s.length + t.length
  byte i := if i < s.length then s.byte i else t.byte (i - s.length)
  byte_of_le i hi := by
    rw [if_neg (by omega)]
    exact t.byte_of_le _ (by omega)

/-- Overwrite the bytes from position `o` on by `t`. The length stays. -/
def write (s : ByteSeq) (o : ℕ) (t : ByteSeq) : ByteSeq where
  length := s.length
  byte i := if o ≤ i ∧ i < o + t.length ∧ i < s.length then t.byte (i - o) else s.byte i
  byte_of_le i hi := by
    rw [if_neg (by omega)]
    exact s.byte_of_le i hi

@[simp] theorem length_write (s : ByteSeq) (o : ℕ) (t : ByteSeq) :
    (s.write o t).length = s.length := rfl

theorem byte_write (h : o + t.length ≤ s.length) : (s.write o t).byte i =
    if o ≤ i ∧ i < o + t.length then t.byte (i - o) else s.byte i := by
  by_cases hi : o ≤ i ∧ i < o + t.length
  · rw [if_pos hi]
    exact if_pos (by omega)
  · rw [if_neg hi]
    exact if_neg (by omega)

theorem byte_write_of_lt_or_le (h : i < o ∨ o + t.length ≤ i) :
    (s.write o t).byte i = s.byte i :=
  if_neg (by omega)

/-- Reading back what was written. -/
theorem le_write_ofWord {x : BitVec w} (h : o + (w + 7) / 8 ≤ s.length) :
    (s.write o (ofWord x)).le o w = x := by
  refine BitVec.eq_of_getLsbD_eq fun i hi ↦ ?_
  have hlen : (ofWord x).length = (w + 7) / 8 := rfl
  have hpos : o + i / 8 - o = 0 + i / 8 := by omega
  rw [getLsbD_le _ _ hi, byte_write (by omega), if_pos (by omega), hpos, ← getLsbD_le _ _ hi,
    le_ofWord]

/-- Writing a word back where it was read changes nothing. -/
theorem write_le (s : ByteSeq) (o k : ℕ) : s.write o (ofWord (s.le o (8 * k))) = s := by
  refine ByteSeq.ext rfl (funext fun i ↦ ?_)
  by_cases hi : o ≤ i ∧ i < o + (8 * k + 7) / 8 ∧ i < s.length
  · refine (if_pos hi).trans ?_
    show (s.le o (8 * k)).field (8 * (i - o)) 8 = s.byte i
    rw [field_le s o (by omega), le_eight]
    congr 1
    omega
  · exact if_neg hi

end ByteSeq

import Mathlib.Data.Nat.Digits.Lemmas

/-!
# `printint`

`printint` of `kernel/printk.c` and of `user/printf.c`. The digits come out least significant first,
into a buffer of 20 characters, then the sign, and the buffer is printed from its end. The two
differ in how the sign is found and in the table of digits.

The buffer is the list of what was written, as each character goes to the next place; a character
beyond the last place, or a digit beyond the table, is not there, and then there is no result. The
numeral that is wanted is described by its digits and their value (`IsNumeral`), and the printed
text is shown to be one (`printint_exact`).
-/

namespace Xv6.Strings

open List Option

/-- `char digits[]` of `kernel/printk.c`. -/
def digits : List Char :=
  ['0', '1', '2', '3', '4', '5', '6', '7', '8', '9', 'a', 'b', 'c', 'd', 'e', 'f']

/-- `char digits[]` of `user/printf.c`. -/
def Ulib.digits : List Char :=
  ['0', '1', '2', '3', '4', '5', '6', '7', '8', '9', 'A', 'B', 'C', 'D', 'E', 'F']

/-- `char buf[20]` -/
abbrev bufSize : ℕ := 20

/-- `do { buf[i++] = digits[x % base]; } while ((x /= base) != 0);` with `room` places left. -/
def putDigits (table : List Char) (base : BitVec 64) :
    (room : ℕ) → (x : BitVec 64) → (buf : List Char) → Option (List Char)
  | 0, _, _ => none
  | room + 1, x, buf =>
    match table[(x % base).toNat]? with
    | none => none
    | some c =>
      if x / base ≠ 0 then putDigits table base room (x / base) (buf ++ [c])
      else some (buf ++ [c])

/-- `if (neg) buf[i++] = '-';` -/
def putSign (neg : Bool) (buf : List Char) : Option (List Char) :=
  if neg then if buf.length < bufSize then some (buf ++ ['-']) else none else some buf

/-- What both functions do once they have the sign and the magnitude. -/
def putNumber (table : List Char) (base : BitVec 32) (neg : Bool) (x : BitVec 64) :
    Option (List Char) := do
  let buf ← putDigits table (base.signExtend 64) bufSize x []
  let buf ← putSign neg buf
  return buf.reverse

/-- `printint` of `kernel/printk.c`: what it passes to `consputc`. -/
def printint (xx : BitVec 64) (base sign : BitVec 32) : Option (List Char) :=
  -- `if (sign && (sign = (xx < 0)))` leaves in `sign` whether there is a minus sign
  let sign := if sign ≠ 0 then decide (xx.toInt < 0) else false
  putNumber digits base sign (if sign then -xx else xx)

/-- `printint` of `user/printf.c`: what it passes to `putc`. -/
def Ulib.printint (xx : BitVec 64) (base sgn : BitVec 32) : Option (List Char) :=
  if sgn ≠ 0 ∧ xx.toInt < 0 then putNumber Ulib.digits base true (-xx)
  else putNumber Ulib.digits base false xx

/-! ### Numerals -/

/-- `out` is the numeral of `v`: a minus sign if `v` is negative, and digits below `base`, the first
of which is not 0 unless it is the only one, with the magnitude of `v` as their value. -/
def IsNumeral (table : List Char) (base : ℕ) (v : ℤ) (out : List Char) : Prop :=
  ∃ ds : List ℕ, out = (if v < 0 then ['-'] else []) ++ ds.map (table.getD · '-') ∧ ds ≠ [] ∧
    (∀ d ∈ ds, d < base) ∧ (ds.head? = some 0 → ds = [0]) ∧ Nat.ofDigits base ds.reverse = v.natAbs

/-- The digits of `x` in the order in which they are written. -/
def lowFirst (base x : ℕ) : List ℕ := if x = 0 then [0] else Nat.digits base x

section lowFirst

variable {base x : ℕ}

theorem lowFirst_of_lt (hx : x < base) : lowFirst base x = [x] := by
  rw [lowFirst]
  split_ifs with h0
  · rw [h0]
  · exact Nat.digits_of_lt base x h0 hx

theorem lowFirst_of_ge (hbase : 1 < base) (hx : base ≤ x) :
    lowFirst base x = x % base :: lowFirst base (x / base) := by
  have hdiv : x / base ≠ 0 := (Nat.div_pos hx (by omega)).ne'
  rw [lowFirst, lowFirst, if_neg (by omega), if_neg hdiv, Nat.digits_def' hbase (by omega)]

theorem length_lowFirst_pos : 0 < (lowFirst base x).length := by
  rw [lowFirst]
  split_ifs with h0
  · exact Nat.one_pos
  · exact length_pos_iff.2 (Nat.digits_ne_nil_iff_ne_zero.2 h0)

theorem length_lowFirst_le {k : ℕ} (hbase : 1 < base) (hk : 0 < k) (hx : x < base ^ k) :
    (lowFirst base x).length ≤ k := by
  rw [lowFirst]
  split_ifs
  · exact hk
  · exact (Nat.digits_length_le_iff hbase x).2 hx

theorem mem_lowFirst_lt {d : ℕ} (hbase : 1 < base) (hd : d ∈ lowFirst base x) : d < base := by
  rw [lowFirst] at hd
  split_ifs at hd
  · rw [mem_singleton.1 hd]
    omega
  · exact Nat.digits_lt_base hbase hd

end lowFirst

/-- The numeral of `v`. -/
def numeral (table : List Char) (base : ℕ) (v : ℤ) : List Char :=
  (if v < 0 then ['-'] else []) ++ ((lowFirst base v.natAbs).map (table.getD · '-')).reverse

/-- The digits that are written are a numeral when they are read from the end. -/
theorem isNumeral_numeral (table : List Char) {base : ℕ} (v : ℤ) (hbase : 1 < base) :
    IsNumeral table base v (numeral table base v) := by
  refine ⟨(lowFirst base v.natAbs).reverse, by rw [numeral, map_reverse], ?_, fun d hd ↦ ?_,
    fun h0 ↦ ?_, ?_⟩
  all_goals rw [lowFirst] at *
  · split_ifs with h0
    · exact cons_ne_nil _ _
    · exact fun h ↦ Nat.digits_ne_nil_iff_ne_zero.2 h0 (reverse_eq_nil_iff.1 h)
  · exact mem_lowFirst_lt hbase (mem_reverse.1 hd)
  · split_ifs at h0 ⊢ with hx
    · rfl
    · rw [List.head?_reverse, List.getLast?_eq_getLast_of_ne_nil
        (Nat.digits_ne_nil_iff_ne_zero.2 hx)] at h0
      exact absurd (Option.some.inj h0) (Nat.getLast_digit_ne_zero base hx)
  · rw [reverse_reverse]
    split_ifs with hx
    · rw [hx, Nat.ofDigits_singleton]
    · exact Nat.ofDigits_digits base _

/-- The two tables differ in case. -/
theorem numeral_toUpper {base : ℕ} (v : ℤ) (hbase : 1 < base) (hle : base ≤ 16) :
    numeral Ulib.digits base v = (numeral digits base v).map Char.toUpper := by
  have htable : ∀ d < 16, Ulib.digits.getD d '-' = (digits.getD d '-').toUpper := by decide
  have hsign : (if v < 0 then ['-'] else []) =
      (if v < 0 then ['-'] else [] : List Char).map Char.toUpper := by
    split_ifs <;> rfl
  rw [numeral, numeral, map_append, ← hsign, map_reverse, List.map_map]
  congr 2
  exact map_congr_left fun d hd ↦ htable d ((mem_lowFirst_lt hbase hd).trans_le hle)

/-! ### What is written -/

/-- A table has a digit for each remainder. -/
theorem getElem?_table {table : List Char} {base i : ℕ} (h : base ≤ table.length) (hi : i < base) :
    table[i]? = some (table.getD i '-') := by
  rw [getD_eq_getElem?_getD, List.getElem?_eq_getElem (hi.trans_le h), getD_some]

theorem putDigits_eq {table : List Char} {base : BitVec 64} (hbase : 1 < base.toNat)
    (htable : base.toNat ≤ table.length) {room : ℕ} (x : BitVec 64) (buf : List Char)
    (hroom : (lowFirst base.toNat x.toNat).length ≤ room) :
    putDigits table base room x buf =
      some (buf ++ (lowFirst base.toNat x.toNat).map (table.getD · '-')) := by
  induction room generalizing x buf with
  | zero =>
    have hpos : 0 < (lowFirst base.toNat x.toNat).length := length_lowFirst_pos
    omega
  | succ room ih =>
    have hmod : (x % base).toNat = x.toNat % base.toNat := BitVec.toNat_umod
    have hdiv : (x / base).toNat = x.toNat / base.toNat := BitVec.toNat_udiv
    have hdigit := getElem?_table htable (Nat.mod_lt x.toNat (Nat.zero_lt_of_lt hbase))
    rw [putDigits, hmod, hdigit]
    dsimp only
    by_cases hx : x.toNat < base.toNat
    · have h0 : ¬x / base ≠ 0 := by
        rw [not_not, ← BitVec.toNat_inj, hdiv, Nat.div_eq_of_lt hx]
        rfl
      rw [if_neg h0, lowFirst_of_lt hx, Nat.mod_eq_of_lt hx, map_singleton]
    · have hge := Nat.le_of_not_lt hx
      have h0 : x / base ≠ 0 := by
        intro h
        have hpos := Nat.div_pos hge (Nat.zero_lt_of_lt hbase)
        rw [← hdiv, h] at hpos
        exact lt_irrefl 0 hpos
      rw [lowFirst_of_ge hbase hge, length_cons] at hroom
      rw [if_pos h0, ih _ _ (by rw [hdiv]; omega), hdiv, lowFirst_of_ge hbase hge, map_cons,
        append_assoc, singleton_append]

section putNumber

variable {table : List Char} {base : BitVec 32} {neg : Bool} {x : BitVec 64} {v : ℤ}

/-- The buffer has room for every magnitude, and for the sign of those that can be negative. -/
theorem length_numeral_le (hbase : base = 10 ∨ base = 16) (hmin : -2 ^ 63 ≤ v) (hmax : v < 2 ^ 64) :
    (numeral table base.toNat v).length ≤ bufSize := by
  have hten : 10 ≤ base.toNat := by rcases hbase with rfl | rfl <;> decide
  rw [numeral, length_append, length_reverse, length_map]
  split_ifs with hv
  · have hlen : (lowFirst base.toNat v.natAbs).length ≤ 19 :=
      length_lowFirst_le (by omega) (by decide)
        (lt_of_lt_of_le (by omega) (Nat.pow_le_pow_left hten 19))
    exact Nat.add_le_add_left hlen 1
  · have hlen : (lowFirst base.toNat v.natAbs).length ≤ 20 :=
      length_lowFirst_le (by omega) (by decide)
        (lt_of_lt_of_le (by omega) (Nat.pow_le_pow_left hten 20))
    rwa [length_nil, zero_add]

/-- The sign and the magnitude of `v` are printed as its numeral. -/
theorem putNumber_eq (hbase : base = 10 ∨ base = 16) (htable : table.length = 16)
    (hv : v.natAbs = x.toNat) (hneg : neg = decide (v < 0)) (hmin : -2 ^ 63 ≤ v) :
    putNumber table base neg x = some (numeral table base.toNat v) := by
  have hx := x.isLt
  have hext : (base.signExtend 64).toNat = base.toNat := by rcases hbase with rfl | rfl <;> rfl
  have hle : base.toNat ≤ table.length := by
    rw [htable]
    rcases hbase with rfl | rfl <;> decide
  have hone : 1 < base.toNat := by rcases hbase with rfl | rfl <;> decide
  have hroom : (numeral table base.toNat v).length ≤ bufSize :=
    length_numeral_le hbase hmin (by omega)
  rw [numeral, hv, length_append, length_reverse, length_map] at hroom
  have hdigits : putDigits table (base.signExtend 64) bufSize x [] = _ :=
    putDigits_eq (by rwa [hext]) (by rwa [hext]) x [] (by rw [hext]; omega)
  rw [hext, nil_append] at hdigits
  rw [putNumber, hdigits, bind_eq_bind, bind_some, putSign, hneg, numeral, hv]
  by_cases hlt : v < 0
  · rw [if_pos hlt, length_singleton] at hroom
    have hplace : ((lowFirst base.toNat x.toNat).map (table.getD · '-')).length < bufSize := by
      rw [length_map]
      omega
    rw [if_pos (decide_eq_true hlt), if_pos hplace, if_pos hlt, bind_some,
      reverse_append]
    rfl
  · rw [if_neg (by rw [decide_eq_true_iff]; exact hlt), if_neg hlt]
    rfl

end putNumber

/-- The number that is printed. -/
def printed (xx : BitVec 64) (sign : BitVec 32) : ℤ := if sign ≠ 0 then xx.toInt else xx.toNat

section printed

variable {xx : BitVec 64} {sign base : BitVec 32}

theorem printed_bounds (xx : BitVec 64) (sign : BitVec 32) :
    -2 ^ 63 ≤ printed xx sign ∧ printed xx sign < 2 ^ 64 := by
  have hlt := xx.isLt
  rw [printed, BitVec.toInt_eq_toNat_cond]
  split_ifs <;> omega

theorem printed_neg_iff : printed xx sign < 0 ↔ sign ≠ 0 ∧ xx.toInt < 0 := by
  rw [printed]
  split_ifs with h
  · exact ⟨fun hlt ↦ ⟨h, hlt⟩, And.right⟩
  · exact iff_of_false (by omega) fun hand ↦ h hand.1

/-- Negation gives the magnitude, also of the most negative value. -/
theorem natAbs_printed (xx : BitVec 64) (sign : BitVec 32) :
    (printed xx sign).natAbs = (if printed xx sign < 0 then -xx else xx).toNat := by
  have hlt := xx.isLt
  split_ifs with hneg
  · have hsign := (printed_neg_iff.1 hneg).1
    rw [printed, if_pos hsign, BitVec.toInt_eq_toNat_cond] at hneg ⊢
    split_ifs at hneg ⊢ <;> bv_omega
  · rw [printed, BitVec.toInt_eq_toNat_cond] at hneg ⊢
    split_ifs at hneg ⊢ <;> omega

theorem printint_eq (hbase : base = 10 ∨ base = 16) :
    printint xx base sign = some (numeral digits base.toNat (printed xx sign)) := by
  have hneg : (if sign ≠ 0 then decide (xx.toInt < 0) else false) =
      decide (printed xx sign < 0) := by
    rw [Bool.eq_iff_iff, decide_eq_true_iff, printed_neg_iff]
    split_ifs with h
    · rw [decide_eq_true_iff]
      exact ⟨fun hlt ↦ ⟨h, hlt⟩, And.right⟩
    · exact iff_of_false not_false fun hand ↦ h hand.1
  rw [printint, hneg]
  refine putNumber_eq hbase rfl ?_ rfl (printed_bounds xx sign).1
  rw [natAbs_printed]
  simp only [decide_eq_true_iff]

theorem Ulib.printint_eq (hbase : base = 10 ∨ base = 16) :
    Ulib.printint xx base sign = some (numeral Ulib.digits base.toNat (printed xx sign)) := by
  have habs := natAbs_printed xx sign
  rw [Ulib.printint]
  split_ifs with h
  · rw [← printed_neg_iff] at h
    rw [if_pos h] at habs
    exact putNumber_eq hbase rfl habs (decide_eq_true h).symm (printed_bounds xx sign).1
  · rw [← printed_neg_iff] at h
    rw [if_neg h] at habs
    exact putNumber_eq hbase rfl habs (decide_eq_false h).symm (printed_bounds xx sign).1

end printed

/-- **Integers are printed exactly**, by the kernel and by the user library, within the buffer; the
two texts differ in the case of the digits. -/
theorem printint_exact (xx : BitVec 64) (base sign : BitVec 32) (hbase : base = 10 ∨ base = 16) :
    ∃ out out', printint xx base sign = some out ∧ Ulib.printint xx base sign = some out' ∧
      out.length ≤ bufSize ∧ out'.length ≤ bufSize ∧
      IsNumeral digits base.toNat (printed xx sign) out ∧
      IsNumeral Ulib.digits base.toNat (printed xx sign) out' ∧ out' = out.map Char.toUpper := by
  have hone : 1 < base.toNat := by rcases hbase with rfl | rfl <;> decide
  have hle : base.toNat ≤ 16 := by rcases hbase with rfl | rfl <;> decide
  obtain ⟨hmin, hmax⟩ := printed_bounds xx sign
  exact ⟨_, _, printint_eq hbase, Ulib.printint_eq hbase, length_numeral_le hbase hmin hmax,
    length_numeral_le hbase hmin hmax, isNumeral_numeral _ _ hone, isNumeral_numeral _ _ hone,
    numeral_toUpper _ hone hle⟩

/-- The most negative number fills the buffer. -/
theorem printint_exact_min :
    ∃ out out', printint (BitVec.intMin 64) 10 1 = some out ∧
      Ulib.printint (BitVec.intMin 64) 10 1 = some out' ∧
      out.length = bufSize ∧ IsNumeral digits 10 (-2 ^ 63) out ∧
      IsNumeral Ulib.digits 10 (-2 ^ 63) out' := by
  obtain ⟨out, out', hk, hu, -, -, hout, hout', -⟩ :=
    printint_exact (BitVec.intMin 64) 10 1 (.inl rfl)
  have hprinted : printed (BitVec.intMin 64) 1 = -2 ^ 63 := by decide
  rw [hprinted] at hout hout'
  have hlen : ∀ l ∈ printint (BitVec.intMin 64) 10 1, l.length = bufSize := by decide +kernel
  exact ⟨out, out', hk, hu, hlen out hk, hout, hout'⟩

end Xv6.Strings

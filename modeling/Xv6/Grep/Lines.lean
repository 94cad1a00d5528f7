import Xv6.Grep.Match
import Xv6.Library.Pieces

/-!
# The lines that `grep` writes

`grep` of `user/grep.c` with `strchr` and `memmove` of `user/ulib.c`. Its buffer is a list of 1024
bytes. How much of the rest of the input each `read` returns is up to `want`: at least one byte, if
there is one and one is asked for.

What is written depends on the input only (`output`): the lines that match among those before the
first that is not terminated, has a `NUL` or is longer than 1023 bytes.
-/

namespace Xv6.Grep

open Option

abbrev newline : Byte := 0x0a#8

/-- `sizeof(buf)`. -/
abbrev bufSize : ℕ := 1024

/-! ### Functions of the library -/

/-- `strchr(s, c)`: where the first `c` is in the string at `s`. -/
def strchr (c : Byte) : List Byte → Option ℕ
  | [] => none
  | b :: s => if b = 0 then none else if b = c then some 0 else (strchr c s).map (· + 1)

/-- The first loop of `memmove`, within one array. -/
def memmoveUp (buf : List Byte) (dst src : ℕ) : ℕ → List Byte
  | 0 => buf
  | n + 1 => memmoveUp (buf.set dst (buf.getD src 0)) (dst + 1) (src + 1) n

/-- The second loop. -/
def memmoveDown (buf : List Byte) (dst src : ℕ) : ℕ → List Byte
  | 0 => buf
  | n + 1 => memmoveDown (buf.set (dst + n) (buf.getD (src + n) 0)) dst src n

/-- `memmove(dst, src, n)` within one array. -/
def memmove (buf : List Byte) (dst src n : ℕ) : List Byte :=
  if src > dst then memmoveUp buf dst src n else memmoveDown buf dst src n

/-! ### `grep` -/

theorem lt_length_of_strchr {c : Byte} {s : List Byte} {k : ℕ} (h : strchr c s = some k) :
    k < s.length := by
  induction s generalizing k with
  | nil => exact nomatch h
  | cons b s ih =>
    rw [strchr] at h
    split_ifs at h with h₀ h₁
    · obtain rfl := Option.some.inj h
      exact Nat.succ_pos _
    · obtain ⟨j, hj, rfl⟩ := map_eq_some_iff.1 h
      exact Nat.succ_lt_succ (ih hj)

/-- The inner loop: the buffer and `p` at its end, and what it writes. -/
def scan (pattern : Text) (buf : List Byte) (p : ℕ) : List Byte × ℕ × Text :=
  match h : strchr newline (buf.drop p) with
  | none => (buf, p, [])
  | some k =>
    let buf' := buf.set (p + k) 0
    if matchText pattern (cstring buf' p) then
      let buf' := buf'.set (p + k) newline
      let (last, p', out) := scan pattern buf' (p + k + 1)
      (last, p', (buf'.drop p).take (k + 1) ++ out)
    else scan pattern buf' (p + k + 1)
termination_by buf.length - p
decreasing_by
  all_goals
    have hlt := lt_length_of_strchr h
    simp only [List.length_drop, List.length_set] at hlt ⊢
    omega

/-- How many bytes a `read` returns that asks for `count`, when `left` bytes are left. -/
def pieceSize (want count left : ℕ) : ℕ := min (max 1 want) (min count left)

/-- The loop of `grep`, with `m` bytes in the buffer. -/
def grepFrom (pattern : Text) (want : ℕ → ℕ) (reads : ℕ) (buf : List Byte) (m : ℕ) (input : Text) :
    Text :=
  let n := pieceSize (want reads) (bufSize - m - 1) input.length
  if 0 < n then
    let buf := splice buf m (input.take n)
    let m := m + n
    let buf := buf.set m 0
    let (buf, p, out) := scan pattern buf 0
    let (buf, m) := if m > 0 then (memmove buf 0 p (m - p), m - p) else (buf, m)
    out ++ grepFrom pattern want (reads + 1) buf m (input.drop n)
  else []
termination_by input.length
decreasing_by
  have hle : n ≤ input.length := (Nat.min_le_right _ _).trans (Nat.min_le_right _ _)
  rw [List.length_drop]
  omega

/-- `grep(pattern, fd)`: what it writes. The buffer is as an earlier call has left it. -/
def grep (pattern : Text) (want : ℕ → ℕ) (buf : Vector Byte bufSize) (input : Text) : Text :=
  grepFrom pattern want 0 buf.toList 0 input

/-! ### What is to be written -/

/-- A line that `grep` can deal with. -/
def fits (line : Text) : Bool := line.contains 0 = false ∧ line.length + 1 ≤ 1023

/-- The lines of the input that are terminated. -/
def terminated (input : Text) : List Text := (input.splitOn newline).dropLast

/-- The matching lines among those before the first that does not fit. -/
def output (pattern input : Text) : Text :=
  (((terminated input).takeWhile fits).filter (matchText pattern)).flatMap (· ++ [newline])

section

open List

/-! ### The library -/

variable {c : Byte} {s buf : List Byte} {k : ℕ} {pattern input : Text}

theorem strchr_eq_some (h : strchr c s = some k) :
    ∃ a b, s = a ++ c :: b ∧ a.length = k ∧ c ∉ a ∧ 0 ∉ a := by
  induction s generalizing k with
  | nil => exact nomatch h
  | cons b s ih =>
    rw [strchr] at h
    split_ifs at h with h₀ h₁
    · obtain rfl := Option.some.inj h
      exact ⟨[], s, by rw [h₁]; rfl, rfl, not_mem_nil, not_mem_nil⟩
    · obtain ⟨j, hj, rfl⟩ := map_eq_some_iff.1 h
      obtain ⟨a, b', rfl, rfl, hc, h0⟩ := ih hj
      exact ⟨b :: a, b', rfl, rfl, not_mem_cons_of_ne_of_not_mem (Ne.symm h₁) hc,
        not_mem_cons_of_ne_of_not_mem (Ne.symm h₀) h0⟩

theorem strchr_eq_none (h : strchr c s = none) : c ∉ s.takeWhile (· ≠ 0) := by
  induction s with
  | nil => exact not_mem_nil
  | cons b s ih =>
    rw [strchr] at h
    split_ifs at h with h₀ h₁
    · rw [h₀]
      exact not_mem_nil
    · rw [takeWhile_cons, if_pos (decide_eq_true h₀)]
      exact not_mem_cons_of_ne_of_not_mem (Ne.symm h₁) (ih (map_eq_none_iff.1 h))

theorem getElem?_memmoveUp {dst src n : ℕ} (hle : dst ≤ src) (hsrc : src + n ≤ buf.length) (i : ℕ) :
    (memmoveUp buf dst src n)[i]? =
      if dst ≤ i ∧ i < dst + n then buf[src + (i - dst)]? else buf[i]? := by
  induction n generalizing buf dst src with
  | zero => rw [memmoveUp, if_neg (by omega)]
  | succ n ih =>
    have hlt : src < buf.length := by omega
    rw [memmoveUp, ih (by omega) (by rw [length_set]; omega)]
    by_cases hi : i = dst
    · rw [if_neg (by omega), if_pos (by omega), hi, getElem?_set_self (by omega), Nat.sub_self,
        add_zero, getD_eq_getElem?_getD, getElem?_eq_getElem hlt, getD_some]
    · by_cases hin : dst + 1 ≤ i ∧ i < dst + 1 + n
      · rw [if_pos hin, if_pos (by omega), getElem?_set_ne (by omega)]
        congr 1
        omega
      · rw [if_neg hin, if_neg (by omega), getElem?_set_ne (Ne.symm hi)]

theorem getElem?_memmoveDown {dst src n : ℕ} (hle : src ≤ dst)
    (hdst : dst + n ≤ buf.length) (i : ℕ) :
    (memmoveDown buf dst src n)[i]? =
      if dst ≤ i ∧ i < dst + n then buf[src + (i - dst)]? else buf[i]? := by
  induction n generalizing buf with
  | zero => rw [memmoveDown, if_neg (by omega)]
  | succ n ih =>
    have hlt : src + n < buf.length := by omega
    rw [memmoveDown, ih (by rw [length_set]; omega)]
    by_cases hi : i = dst + n
    · rw [if_neg (by omega), if_pos (by omega), hi, getElem?_set_self (by omega),
        Nat.add_sub_cancel_left, getD_eq_getElem?_getD, getElem?_eq_getElem hlt,
        getD_some]
    · by_cases hin : dst ≤ i ∧ i < dst + n
      · rw [if_pos hin, if_pos (by omega), getElem?_set_ne (by omega)]
      · rw [if_neg hin, if_neg (by omega), getElem?_set_ne (Ne.symm hi)]

/-- **`memmove`** copies what was there before, also where the two pieces overlap. -/
theorem getElem?_memmove {dst src n : ℕ} (hsrc : src + n ≤ buf.length) (hdst : dst + n ≤ buf.length)
    (i : ℕ) : (memmove buf dst src n)[i]? =
      if dst ≤ i ∧ i < dst + n then buf[src + (i - dst)]? else buf[i]? := by
  by_cases hlt : src > dst
  · rw [memmove, if_pos hlt]
    exact getElem?_memmoveUp (le_of_lt hlt) hsrc i
  · rw [memmove, if_neg hlt]
    exact getElem?_memmoveDown (not_lt.1 hlt) hdst i

/-- The rest of the buffer is moved to its beginning. -/
theorem memmove_zero {p n : ℕ} (h : p + n ≤ buf.length) :
    memmove buf 0 p n = (buf.drop p).take n ++ buf.drop n := by
  refine List.ext_getElem? fun i ↦ ?_
  have hlen : ((buf.drop p).take n).length = n := by
    rw [length_take, length_drop]
    omega
  rw [getElem?_memmove h (by omega)]
  split_ifs with hi
  · rw [getElem?_append_left (by omega), List.getElem?_take, if_pos (by omega),
      getElem?_drop, Nat.sub_zero]
  · rw [getElem?_append_right (by omega), hlen, getElem?_drop]
    congr 1
    omega

/-! ### The output of an input -/

theorem terminated_append {a : Text} (ha : newline ∉ a) (rest : Text) :
    terminated (a ++ newline :: rest) = a :: terminated rest := by
  have hno : ∀ x ∈ a, (x == newline) = false := fun x hx ↦ beq_false_of_ne fun h ↦ ha (h ▸ hx)
  have hsplit : (a ++ newline :: rest).splitOn newline = a :: rest.splitOn newline :=
    List.splitOnP_append_cons_of_forall_mem hno newline (beq_self_eq_true _) rest
  have hne : rest.splitOn newline ≠ [] := List.splitOnP_ne_nil _ rest
  rw [terminated, hsplit, List.dropLast_cons_of_ne_nil hne, terminated]

theorem terminated_of_notMem (h : newline ∉ input) : terminated input = [] := by
  have hno : ∀ x ∈ input, (x == newline) = false :=
      fun x hx ↦ beq_false_of_ne fun heq ↦ h (heq ▸ hx)
  rw [terminated, List.splitOn, List.splitOnP_eq_singleton hno]
  rfl

/-- The first line. -/
theorem output_append {a : Text} (ha : newline ∉ a) (hfits : fits a = true) (rest : Text) :
    output pattern (a ++ newline :: rest) =
      (if matchText pattern a then a ++ [newline] else []) ++ output pattern rest := by
  rw [output, terminated_append ha, takeWhile_cons_of_pos hfits, List.filter_cons]
  split_ifs
  · rw [List.flatMap_cons, output]
  · rw [nil_append, output]

/-- Where the first line does not fit, nothing is written. -/
theorem output_eq_nil (h : ∀ a rest, input = a ++ newline :: rest → newline ∉ a → fits a = false) :
    output pattern input = [] := by
  by_cases hmem : newline ∈ input
  · obtain ⟨a, rest, rfl, ha⟩ := List.eq_append_cons_of_mem hmem
    have hfits := h a rest rfl ha
    rw [output, terminated_append ha, takeWhile_cons_of_neg (by rw [hfits]; decide)]
    rfl
  · rw [output, terminated_of_notMem hmem]
    rfl

/-! ### The loops -/

/-- What `strchr` finds before the `NUL` at the end of the bytes that were read. -/
theorem strchr_buffer {r x : List Byte} (h : strchr newline (r ++ 0 :: x) = some k) :
    ∃ a r', r = a ++ newline :: r' ∧ a.length = k ∧ newline ∉ a ∧ 0 ∉ a := by
  obtain ⟨a, b, heq, hlen, hnew, h0⟩ := strchr_eq_some h
  rcases append_eq_append_iff.1 heq with ⟨a', rfl, hb⟩ | ⟨b', rfl, hb⟩
  · cases a' with
    | nil => exact absurd (List.cons.inj hb).1 (by decide)
    | cons y a' =>
      obtain ⟨rfl, -⟩ := List.cons.inj hb
      exact absurd (mem_append_right _ mem_cons_self) h0
  · cases b' with
    | nil => exact absurd (List.cons.inj hb).1 (by decide)
    | cons y b' =>
      obtain ⟨rfl, -⟩ := List.cons.inj hb
      exact ⟨a, b', rfl, hlen, hnew, h0⟩

theorem set_append_cons (l : List Byte) (y z : Byte) (m : List Byte) :
    (l ++ y :: m).set l.length z = l ++ z :: m := by
  rw [List.set_append_right _ _ (le_refl _), Nat.sub_self, List.set_cons_zero]

theorem takeWhile_append_nul {a x : List Byte} (h : 0 ∉ a) :
    (a ++ 0 :: x).takeWhile (· ≠ 0) = a := by
  have hall : ∀ b ∈ a, decide (b ≠ 0) = true := fun b hb ↦ decide_eq_true fun h0 ↦ h (h0 ▸ hb)
  rw [takeWhile_append_of_pos hall, takeWhile_cons, if_neg (by simp), append_nil]

/-- The inner loop, on a buffer with the bytes `r` behind those that are done: it writes what is to
be written for the lines in `r`, up to a rest `r'` in which there is no line. -/
theorem scan_spec (pattern : Text) (d r x : List Byte) (h : d.length + r.length ≤ 1023) :
    ∃ d' r' out, scan pattern (d ++ (r ++ 0 :: x)) d.length =
      (d' ++ (r' ++ 0 :: x), d'.length, out) ∧
      d'.length + r'.length = d.length + r.length ∧ newline ∉ r'.takeWhile (· ≠ 0) ∧
      ∀ rest, output pattern (r ++ rest) = out ++ output pattern (r' ++ rest) := by
  induction hn : r.length using Nat.strong_induction_on generalizing d r with
  | _ n ih =>
    subst hn
    rw [scan]
    split
    · rename_i hnone
      rw [drop_left] at hnone
      refine ⟨d, r, [], rfl, rfl, fun hmem ↦ strchr_eq_none hnone ?_, fun _ ↦ rfl⟩
      rw [takeWhile_append]
      split_ifs
      · exact mem_append_left _ ((List.takeWhile_prefix _).subset hmem)
      · exact hmem
    · rename_i k hsome
      rw [drop_left] at hsome
      obtain ⟨a, r', rfl, rfl, hnew, h0⟩ := strchr_buffer hsome
      rw [length_append, length_cons] at h ih ⊢
      have hfits : fits a = true := decide_eq_true ⟨by simpa using h0, by omega⟩
      have hbuf (y : Byte) : d ++ ((a ++ y :: r') ++ 0 :: x) = (d ++ a) ++ y :: (r' ++ 0 :: x) := by
        simp only [append_assoc, cons_append]
      have hset (y z : Byte) : (d ++ ((a ++ y :: r') ++ 0 :: x)).set (d.length + a.length) z =
          d ++ ((a ++ z :: r') ++ 0 :: x) := by
        rw [hbuf, hbuf, ← length_append, set_append_cons]
      have hline : cstring (d ++ ((a ++ 0 :: r') ++ 0 :: x)) d.length = a := by
        rw [cstring, drop_left, append_assoc, cons_append, takeWhile_append_nul h0]
      have hwrite : ((d ++ ((a ++ newline :: r') ++ 0 :: x)).drop d.length).take (a.length + 1) =
          a ++ [newline] := by
        rw [drop_left, append_assoc, take_length_add_append]
        rfl
      -- the loop goes on behind the line
      have hrest (y : Byte) := ih r'.length (by omega) (d ++ a ++ [y]) r'
        (by simp only [length_append, length_singleton]; omega) rfl
      have hnext (y : Byte) : d ++ ((a ++ y :: r') ++ 0 :: x) =
          (d ++ a ++ [y]) ++ (r' ++ 0 :: x) := by
        simp only [append_assoc, cons_append, nil_append]
      have hlen (y : Byte) : d.length + a.length + 1 = (d ++ a ++ [y]).length := by
        rw [length_append, length_append, length_singleton]
      dsimp only
      rw [hset, hline]
      split_ifs with hmatch
      · obtain ⟨d', r'', out, hscan, hlens, hstuck, hout⟩ := hrest newline
        rw [hset, hwrite, hlen newline, hnext newline, hscan]
        refine ⟨d', r'', a ++ [newline] ++ out, rfl, ?_, hstuck, fun rest ↦ ?_⟩
        · rw [hlens, ← hlen]
          omega
        · rw [append_assoc, cons_append, output_append hnew hfits, if_pos hmatch, hout,
            append_assoc (a ++ [newline])]
      · obtain ⟨d', r'', out, hscan, hlens, hstuck, hout⟩ := hrest 0
        rw [hlen 0, hnext 0, hscan]
        refine ⟨d', r'', out, rfl, ?_, hstuck, fun rest ↦ ?_⟩
        · rw [hlens, ← hlen]
          omega
        · rw [append_assoc, cons_append, output_append hnew hfits, if_neg hmatch, hout,
            nil_append]

/-- Nothing is written for a rest without a line, if no more is read. -/
theorem output_of_stuck {r : Text} (hstuck : newline ∉ r.takeWhile (· ≠ 0))
    (hend : input = [] ∨ 1023 ≤ r.length) : output pattern (r ++ input) = [] := by
  refine output_eq_nil fun a rest heq ha ↦ Bool.eq_false_iff.2 fun hfits ↦ ?_
  obtain ⟨h0, hlen⟩ := of_decide_eq_true hfits
  rw [contains_eq_mem, decide_eq_false_iff_not] at h0
  rcases append_eq_append_iff.1 heq with ⟨a', rfl, hinput⟩ | ⟨r', rfl, hr'⟩
  · -- the line goes on behind the buffer
    rcases hend with rfl | hfull
    · exact absurd hinput (by simp)
    · rw [length_append] at hlen
      omega
  · cases r' with
    | nil =>
      rcases hend with rfl | hfull
      · exact absurd hr' (by simp)
      · rw [append_nil] at hfull
        omega
    | cons y r' =>
      obtain ⟨rfl, -⟩ := List.cons.inj hr'
      have hall : ∀ b ∈ a, decide (b ≠ 0) = true := fun b hb ↦ decide_eq_true fun h ↦ h0 (h ▸ hb)
      rw [takeWhile_append_of_pos hall, takeWhile_cons, if_pos (by decide)] at hstuck
      exact hstuck (mem_append_right _ mem_cons_self)

/-- The buffer after a read, with the `NUL` behind what was read. -/
theorem set_splice {m : ℕ} {piece : List Byte} (h : m + piece.length < buf.length) :
    ∃ x, (splice buf m piece).set (m + piece.length) 0 = (buf.take m ++ piece) ++ 0 :: x ∧
      (buf.take m ++ piece).length = m + piece.length := by
  have hlen : (buf.take m ++ piece).length = m + piece.length := by
    rw [length_append, length_take]
    omega
  refine ⟨buf.drop (m + piece.length + 1), ?_, hlen⟩
  have hset := set_append_cons (buf.take m ++ piece) buf[m + piece.length] 0
    (buf.drop (m + piece.length + 1))
  rwa [hlen, ← List.drop_eq_getElem_cons h] at hset

/-- The loop of `grep`, when the buffer has no line. -/
theorem grepFrom_eq (pattern : Text) (want : ℕ → ℕ) (reads : ℕ) {m : ℕ} (input : Text)
    (hbuf : buf.length = bufSize) (hm : m ≤ 1023)
    (hstuck : newline ∉ (buf.take m).takeWhile (· ≠ 0)) :
    grepFrom pattern want reads buf m input = output pattern (buf.take m ++ input) := by
  induction hlen : input.length using Nat.strong_induction_on generalizing reads buf m input with
  | _ len ih =>
    subst hlen
    have hbufSize : bufSize = 1024 := rfl
    have htake : (buf.take m).length = m := by
      rw [length_take, hbuf]
      omega
    rw [grepFrom]
    generalize hsize : pieceSize (want reads) (bufSize - m - 1) input.length = n
    rw [pieceSize] at hsize
    by_cases hn : 0 < n
    · have hpiece : (input.take n).length = n := by
        rw [length_take]
        omega
      obtain ⟨x, hset, hlen⟩ := @set_splice buf m (input.take n) (by rw [hbuf, hpiece]; omega)
      rw [hpiece] at hset hlen
      obtain ⟨d, r, out, hscan, hlens, hstuck', hout⟩ :=
        scan_spec pattern [] (buf.take m ++ input.take n) x (by rw [hlen, length_nil]; omega)
      rw [nil_append, length_nil] at hscan
      rw [hlen, length_nil, zero_add] at hlens
      have htotal : (d ++ (r ++ 0 :: x)).length = bufSize := by
        have hlenx := congrArg List.length hset
        rw [length_set, length_splice (by omega), length_append, hlen, hpiece,
          hbuf] at hlenx
        rw [length_append, length_append]
        omega
      have hrest : m + n - d.length = r.length := by omega
      have hmove : memmove (d ++ (r ++ 0 :: x)) 0 d.length r.length =
          r ++ (d ++ (r ++ 0 :: x)).drop r.length := by
        rw [memmove_zero (by rw [htotal]; omega), drop_left, take_left]
      dsimp only
      rw [if_pos hn, hset, hscan]
      dsimp only
      rw [if_pos (by omega)]
      dsimp only
      rw [hrest, hmove,
        ih _ (by rw [length_drop]; omega) (reads + 1) (input.drop n) ?_ (by omega) ?_ rfl]
      · rw [take_left, ← hout, append_assoc, take_append_drop]
      · rw [length_append, length_drop, htotal]
        omega
      · rwa [take_left]
    · rw [if_neg hn]
      refine (output_of_stuck hstuck ?_).symm
      rw [htake, ← length_eq_zero_iff]
      omega

end

/-- **The output of `grep` does not depend on how its input is cut into pieces.** -/
theorem grep_eq_output (pattern : Text) (want : ℕ → ℕ) (buf : Vector Byte bufSize) (input : Text) :
    grep pattern want buf input = output pattern input := by
  rw [grep, grepFrom_eq pattern want 0 input Vector.length_toList (Nat.zero_le _)
    List.not_mem_nil, List.take_zero, List.nil_append]

example : output [0x61] [0x61, 0x62, newline, 0x62, newline, 0x61, newline, 0x61] =
    [0x61, 0x62, newline, 0x61, newline] := by decide

end Xv6.Grep

import Xv6.Shell.Grammar

/-!
# The shell's parser

`gettoken`, `peek`, `parsecmd`, `parseline`, `parsepipe`, `parseredirs`, `parseblock`, `parseexec`
and `nulterminate` of `user/sh.c`. A pointer into the text, `char *s`, is the text from there up to
its end `es`, where the `NUL` is; so `s < es` says that it is not empty, and the string a pointer
and the pointer to its end stand for is what the one has and the other has not. The parser only
notes such pairs of pointers; `nulterminate` then overwrites the byte behind each string by a `NUL`.

The loops of `parseline`, `parseredirs` and `parseexec` use up text or arguments. The recursion
between the functions has a bound on its depth as an argument, which `parsecmd` makes large enough.
-/

namespace Xv6.Shell

/-- The calls of `panic`, and the bound on the depth of the recursion. -/
inductive Failure
  /-- `leftovers: …`, `panic("syntax")` in `parsecmd` -/
  | leftovers
  /-- `panic("missing file for redirection")` -/
  | missingFile
  /-- `panic("parseblock")` -/
  | parseblock
  /-- `panic("syntax - missing )")` -/
  | missingParen
  /-- `panic("syntax")` in `parseexec` -/
  | unexpected
  /-- `panic("too many args")` -/
  | tooManyArgs
  | outOfFuel
  deriving DecidableEq, Repr

/-! ### Tokens -/

/-- `while (s < es && strchr(whitespace, *s)) s++;` -/
def skip (s : Text) : Text := s.dropWhile whitespace.contains

/-- What `gettoken` returns for `>>`. -/
def plus : Byte := 0x2b

/-- What `gettoken` returns for a word. -/
def wordCode : Byte := 0x61

/-- The result of `gettoken`: its value, the token from `q` up to `eq`, and the text behind it. -/
structure Token where
  ret : Byte
  q : Text
  eq : Text
  rest : Text

def gettoken (s : Text) : Token :=
  let s := skip s
  match s with
  | [] => ⟨0, s, s, skip s⟩
  | c :: t =>
    if c = bar ∨ c = lparen ∨ c = rparen ∨ c = semi ∨ c = amp ∨ c = less then ⟨c, s, t, skip t⟩
    else if c = greater then
      if t.head? = some greater then ⟨plus, s, t.tail, skip t.tail⟩ else ⟨greater, s, t, skip t⟩
    else
      let t := s.dropWhile wordByte
      ⟨wordCode, s, t, skip t⟩

/-- `peek`: whether the next byte that is not white space is one of `toks`, and where it is. -/
def peek (s : Text) (toks : List Byte) : Bool × Text :=
  let s := skip s
  (s.head?.any toks.contains, s)

theorem length_skip_le (s : Text) : (skip s).length ≤ s.length := length_dropWhile_le _ s

theorem not_white_of_skip {s t : Text} {c : Byte} (h : skip s = c :: t) :
    whitespace.contains c = false := by
  have hhead := List.head?_dropWhile_not whitespace.contains s
  rw [show s.dropWhile whitespace.contains = c :: t from h] at hhead
  exact hhead

/-- A byte that is neither white space nor a symbol. -/
theorem wordByte_of {c : Byte} (hw : whitespace.contains c = false)
    (hs : ¬(c = bar ∨ c = lparen ∨ c = rparen ∨ c = semi ∨ c = amp ∨ c = less))
    (hg : c ≠ greater) : wordByte c = true := by
  simp only [not_or] at hs
  rw [wordByte, hw]
  simp [symbols, hs, hg]

/-- A token uses up text. -/
theorem length_rest_lt {s : Text} (h : skip s ≠ []) : (gettoken s).rest.length < s.length := by
  obtain ⟨c, t, hs⟩ := List.exists_cons_of_ne_nil h
  have hle := length_skip_le s
  rw [hs, List.length_cons] at hle
  have ht := length_skip_le t
  have htail := length_skip_le t.tail
  rw [List.length_tail] at htail
  rw [gettoken, hs]
  dsimp only
  split_ifs with hsym hgt happ
  · dsimp only
    omega
  · dsimp only
    omega
  · dsimp only
    omega
  · have hword := length_skip_le (t.dropWhile wordByte)
    have hdrop := length_dropWhile_le wordByte t
    rw [List.dropWhile_cons_of_pos (wordByte_of (not_white_of_skip hs) hsym hgt)]
    dsimp only
    omega

theorem length_rest_le (s : Text) : (gettoken s).rest.length ≤ s.length := by
  by_cases h : skip s = []
  · rw [gettoken, h]
    exact Nat.zero_le _
  · exact Nat.le_of_lt (length_rest_lt h)

theorem skip_ne_nil_of_peek {s : Text} {toks : List Byte} (h : (peek s toks).1 = true) :
    skip s ≠ [] := by
  intro hnil
  rw [peek, hnil] at h
  exact nomatch h

theorem skip_skip (s : Text) : skip (skip s) = skip s := by
  cases hs : skip s with
  | nil => rfl
  | cons c t => exact List.dropWhile_cons_of_neg (by rw [not_white_of_skip hs]; exact nofun)

/-! ### Commands -/

/-- A string in the text: the pointer to it and the pointer to its end. -/
structure Ptr where
  q : Text
  eq : Text
  deriving DecidableEq, Repr

/-- `cmd->argv[argc] = q; cmd->eargv[argc] = eq;`, where `cmd` is the command inside the
redirections that have been put around it. -/
def addArg (p : Ptr) : Cmd Ptr → Cmd Ptr
  | .exec argv => .exec (argv ++ [p])
  | .redir cmd file mode fd => .redir (addArg p cmd) file mode fd
  | cmd => cmd

/-- The `switch (tok)` of `parseredirs`. -/
def redircmd (tok : Byte) (cmd : Cmd Ptr) (p : Ptr) : Cmd Ptr :=
  if tok = less then .redir cmd p oRdonly 0
  else if tok = greater then .redir cmd p (oWronly ||| oCreate ||| oTrunc) 1
  else if tok = plus then .redir cmd p (oWronly ||| oCreate) 1
  else cmd

def parseredirs (cmd : Cmd Ptr) (s : Text) : Except Failure (Cmd Ptr × Text) :=
  if (peek s [less, greater]).1 then
    let tok := gettoken (peek s [less, greater]).2
    let file := gettoken tok.rest
    if file.ret ≠ wordCode then .error .missingFile
    else parseredirs (redircmd tok.ret cmd ⟨file.q, file.eq⟩) file.rest
  else .ok (cmd, (peek s [less, greater]).2)
termination_by s.length
decreasing_by
  have hne := skip_ne_nil_of_peek (by assumption)
  have h₁ := length_rest_le (gettoken (skip s)).rest
  have h₂ := @length_rest_lt (skip s) (by rw [skip_skip]; exact hne)
  have h₃ := length_skip_le s
  exact Nat.lt_of_le_of_lt h₁ (Nat.lt_of_lt_of_le h₂ h₃)

/-- The loop of `parseexec`, with `argc` words so far. -/
def parseargs (ret : Cmd Ptr) (argc : ℕ) (s : Text) : Except Failure (Cmd Ptr × Text) :=
  let s := peek s [bar, rparen, amp, semi]
  if s.1 then .ok (ret, s.2)
  else
    let tok := gettoken s.2
    if tok.ret = 0 then .ok (ret, tok.rest)
    else if tok.ret ≠ wordCode then .error .unexpected
    else if maxargs ≤ argc + 1 then .error .tooManyArgs
    else do
      let (ret, s) ← parseredirs (addArg ⟨tok.q, tok.eq⟩ ret) tok.rest
      parseargs ret (argc + 1) s
termination_by maxargs - argc

/-- The loop of `parseline`. -/
def parseback (cmd : Cmd Ptr) (s : Text) : Cmd Ptr × Text :=
  if (peek s [amp]).1 then parseback (.back cmd) (gettoken (peek s [amp]).2).rest
  else (cmd, (peek s [amp]).2)
termination_by s.length
decreasing_by
  have hne := skip_ne_nil_of_peek (by assumption)
  have h₂ := @length_rest_lt (skip s) (by rw [skip_skip]; exact hne)
  have h₃ := length_skip_le s
  exact Nat.lt_of_lt_of_le h₂ h₃

mutual

def parseline : ℕ → Text → Except Failure (Cmd Ptr × Text)
  | 0, _ => .error .outOfFuel
  | n + 1, s => do
    let (cmd, s) ← parsepipe n s
    let (cmd, s) := parseback cmd s
    let (semicolon, s) := peek s [semi]
    if semicolon then
      let (right, s) ← parseline n (gettoken s).rest
      .ok (.list cmd right, s)
    else .ok (cmd, s)

def parsepipe : ℕ → Text → Except Failure (Cmd Ptr × Text)
  | 0, _ => .error .outOfFuel
  | n + 1, s => do
    let (cmd, s) ← parseexec n s
    let (pipe, s) := peek s [bar]
    if pipe then
      let (right, s) ← parsepipe n (gettoken s).rest
      .ok (.pipe cmd right, s)
    else .ok (cmd, s)

def parseexec : ℕ → Text → Except Failure (Cmd Ptr × Text)
  | 0, _ => .error .outOfFuel
  | n + 1, s =>
    let (block, s) := peek s [lparen]
    if block then parseblock n s
    else do
      let (ret, s) ← parseredirs (.exec []) s
      parseargs ret 0 s

def parseblock : ℕ → Text → Except Failure (Cmd Ptr × Text)
  | 0, _ => .error .outOfFuel
  | n + 1, s =>
    let (opened, s) := peek s [lparen]
    if !opened then .error .parseblock
    else do
      let (cmd, s) ← parseline n (gettoken s).rest
      let (close, s) := peek s [rparen]
      if !close then .error .missingParen else parseredirs cmd (gettoken s).rest

end

/-! ### Strings -/

/-- The buffer in which byte `i` is `NUL`. -/
def setNul (buf : List Byte) (i : ℕ) : List Byte := buf.set i 0

/-- `nulterminate`, on the buffer of a text of `n` bytes. -/
def nulterminate (n : ℕ) : Cmd Ptr → List Byte → List Byte
  | .exec argv, buf => argv.foldl (fun buf p ↦ setNul buf (n - p.eq.length)) buf
  | .redir cmd file _ _, buf => setNul (nulterminate n cmd buf) (n - file.eq.length)
  | .pipe left right, buf => nulterminate n right (nulterminate n left buf)
  | .list left right, buf => nulterminate n right (nulterminate n left buf)
  | .back cmd, buf => nulterminate n cmd buf

/-- The string at a pointer, in the buffer of a text of `n` bytes. -/
def cstring (n : ℕ) (buf : List Byte) (p : Ptr) : Text :=
  Xv6.cstring buf (n - p.q.length)

/-- A depth that is enough for a text: four calls for each token, and four for none. -/
def depth (s : Text) : ℕ := 4 * s.length + 4

/-- `parsecmd`, and the strings that its command has when it returns. -/
def parsecmd (s : Text) : Except Failure (Cmd Text) := do
  let (cmd, rest) ← parseline (depth s) s
  let (_, rest) := peek rest []
  if rest ≠ [] then .error .leftovers
  else
    let buf := nulterminate s.length cmd (s ++ [0])
    .ok (cmd.map (cstring s.length buf))

end Xv6.Shell

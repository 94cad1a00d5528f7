import Xv6.Param

/-!
# The grammar of the shell

The language that the shell's parser is meant to accept, stated without reference to the parser. A
line of text is a sequence of tokens (`lex`): words, which are maximal runs of bytes that are
neither white space nor one of the seven symbols, and the symbols themselves, two adjacent `>` being
one token. `Derives` is the grammar over tokens, and the tree that a derivation stands for:

* `line := pipe '&'* [';' line]`
* `pipe := exec ['|' pipe]`
* `exec := '(' line ')' redir* | redir* (word redir*)*`, the latter with at most nine words
* `redir := ('<' | '>' | '>>') word`
-/

namespace Xv6.Shell

/-! ### Characters -/

def less : Byte := 0x3c

def bar : Byte := 0x7c

def greater : Byte := 0x3e

def amp : Byte := 0x26

def semi : Byte := 0x3b

def lparen : Byte := 0x28

def rparen : Byte := 0x29

/-- `char whitespace[]`: blank, tab, carriage return, newline, vertical tab. -/
def whitespace : List Byte := [0x20, 0x09, 0x0d, 0x0a, 0x0b]

/-- `char symbols[]`. -/
def symbols : List Byte := [less, bar, greater, amp, semi, lparen, rparen]

/-- A byte that may stand in a word. -/
def wordByte (c : Byte) : Bool := !whitespace.contains c && !symbols.contains c

/-! ### Tokens -/

inductive Tok
  | word (w : Text)
  | less
  | greater
  /-- `>>` -/
  | append
  | bar
  | amp
  | semi
  | lparen
  | rparen
  deriving DecidableEq, Repr

/-- The token of a symbol. -/
def symbolTok (c : Byte) : Option Tok :=
  if c = less then some .less
  else if c = bar then some .bar
  else if c = greater then some .greater
  else if c = amp then some .amp
  else if c = semi then some .semi
  else if c = lparen then some .lparen
  else if c = rparen then some .rparen
  else none

theorem length_dropWhile_le (p : Byte → Bool) (s : Text) : (s.dropWhile p).length ≤ s.length :=
  (List.dropWhile_suffix p).length_le

/-- The tokens of a text. -/
def lex : Text → List Tok
  | [] => []
  | c :: s =>
    if whitespace.contains c then lex s
    else
      match symbolTok c with
      | some t =>
        if t = .greater ∧ s.head? = some greater then .append :: lex s.tail else t :: lex s
      | none => .word (c :: s.takeWhile wordByte) :: lex (s.dropWhile wordByte)
termination_by s => s.length
decreasing_by
  · exact Nat.lt_succ_self _
  · rw [List.length_tail, List.length_cons]
    omega
  · exact Nat.lt_succ_self _
  · exact Nat.lt_succ_of_le (length_dropWhile_le _ _)

@[simp] theorem lex_nil : lex [] = [] := by rw [lex]

/-! ### Commands -/

/-- `struct cmd`, with `α` for its strings. -/
inductive Cmd (α : Type)
  | exec (argv : List α)
  | redir (cmd : Cmd α) (file : α) (mode fd : ℕ)
  | pipe (left right : Cmd α)
  | list (left right : Cmd α)
  | back (cmd : Cmd α)
  deriving DecidableEq, Repr

namespace Cmd

variable {α β : Type}

/-- The same tree with other strings. -/
def map (g : α → β) : Cmd α → Cmd β
  | exec argv => exec (argv.map g)
  | redir cmd file mode fd => redir (cmd.map g) (g file) mode fd
  | pipe left right => pipe (left.map g) (right.map g)
  | list left right => list (left.map g) (right.map g)
  | back cmd => back (cmd.map g)

/-- The strings of a tree. -/
def strings : Cmd α → List α
  | exec argv => argv
  | redir cmd file _ _ => file :: cmd.strings
  | pipe left right => left.strings ++ right.strings
  | list left right => left.strings ++ right.strings
  | back cmd => cmd.strings

theorem map_congr {g h : α → β} {c : Cmd α} (heq : ∀ x ∈ c.strings, g x = h x) :
    c.map g = c.map h := by
  induction c with
  | exec argv => exact congrArg _ (List.map_congr_left heq)
  | redir cmd file mode fd ih =>
    rw [map, map, heq file List.mem_cons_self, ih fun x hx ↦ heq x (List.mem_cons_of_mem _ hx)]
  | pipe left right ihl ihr =>
    rw [map, map, ihl fun x hx ↦ heq x (List.mem_append_left _ hx),
      ihr fun x hx ↦ heq x (List.mem_append_right _ hx)]
  | list left right ihl ihr =>
    rw [map, map, ihl fun x hx ↦ heq x (List.mem_append_left _ hx),
      ihr fun x hx ↦ heq x (List.mem_append_right _ hx)]
  | back cmd ih => rw [map, map, ih heq]

end Cmd

/-- `O_RDONLY`, `O_WRONLY`, `O_CREATE` and `O_TRUNC` of `kernel/fcntl.h`. -/
def oRdonly : ℕ := 0x000

def oWronly : ℕ := 0x001

def oCreate : ℕ := 0x200

def oTrunc : ℕ := 0x400

/-- A redirection: the file, the mode in which it is opened, and the descriptor. -/
structure Redir (α : Type) where
  file : α
  mode : ℕ
  fd : ℕ

/-- What an operator of redirection does with a file. -/
def redirOf {α : Type} : Tok → Option (α → Redir α)
  | .less => some fun w ↦ ⟨w, oRdonly, 0⟩
  | .greater => some fun w ↦ ⟨w, oWronly ||| oCreate ||| oTrunc, 1⟩
  | .append => some fun w ↦ ⟨w, oWronly ||| oCreate, 1⟩
  | _ => none

/-- Redirections around a command, the first one innermost. -/
def redirect {α : Type} (c : Cmd α) (rs : List (Redir α)) : Cmd α :=
  rs.foldl (fun c r ↦ .redir c r.file r.mode r.fd) c

/-- `n` nodes `BACK` around a command. -/
def background {α : Type} : ℕ → Cmd α → Cmd α
  | 0, c => c
  | n + 1, c => background n (.back c)

/-! ### Derivations -/

/-- `redir*` -/
inductive Redirs : List Tok → List (Redir Text) → Prop
  | nil : Redirs [] []
  | cons {op : Tok} {mk : Text → Redir Text} {w : Text} {ts : List Tok} {rs : List (Redir Text)} :
    redirOf op = some mk → Redirs ts rs → Redirs (op :: .word w :: ts) (mk w :: rs)

/-- `(word redir*)*` -/
inductive Args : List Tok → List Text → List (Redir Text) → Prop
  | nil : Args [] [] []
  | cons {w : Text} {ts ts' : List Tok} {rs rs' : List (Redir Text)} {ws : List Text} :
    Redirs ts rs → Args ts' ws rs' → Args (.word w :: (ts ++ ts')) (w :: ws) (rs ++ rs')

inductive Nonterminal
  | line
  | pipe
  | exec
  deriving DecidableEq, Repr

/-- `MAXARGS`. -/
def maxargs : ℕ := 10

/-- The token sequences that derive from a nonterminal, with the trees of the derivations. -/
inductive Derives : Nonterminal → List Tok → Cmd Text → Prop
  | block {ts ts' : List Tok} {c : Cmd Text} {rs : List (Redir Text)} :
    Derives .line ts c → Redirs ts' rs →
      Derives .exec (.lparen :: (ts ++ .rparen :: ts')) (redirect c rs)
  | simple {ts ts' : List Tok} {rs rs' : List (Redir Text)} {ws : List Text} :
    Redirs ts rs → Args ts' ws rs' → ws.length ≤ maxargs - 1 →
      Derives .exec (ts ++ ts') (redirect (.exec ws) (rs ++ rs'))
  | exec {ts : List Tok} {c : Cmd Text} : Derives .exec ts c → Derives .pipe ts c
  | bar {ts ts' : List Tok} {c c' : Cmd Text} :
    Derives .exec ts c → Derives .pipe ts' c' → Derives .pipe (ts ++ .bar :: ts') (.pipe c c')
  | pipe {ts : List Tok} {c : Cmd Text} (n : ℕ) :
    Derives .pipe ts c → Derives .line (ts ++ List.replicate n .amp) (background n c)
  | semi {ts ts' : List Tok} {c c' : Cmd Text} (n : ℕ) :
    Derives .pipe ts c → Derives .line ts' c' →
      Derives .line (ts ++ (List.replicate n .amp ++ .semi :: ts')) (.list (background n c) c')

end Xv6.Shell

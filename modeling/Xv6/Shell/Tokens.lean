import Xv6.Shell.Parser

/-!
# Tokens, as the parser reads them

`gettoken` returns the first token of the text and leaves the others (`gettoken_of_lex`), and `peek`
tells which symbol the text begins with (`peek_of_lex`). Both are read off one description of a text
by its first token, `Begins`.
-/

namespace Xv6.Shell

open List

/-- The byte with which a token that is no word begins. -/
def Tok.first : Tok → Option Byte
  | .word _ => none
  | .less => some Shell.less
  | .greater => some Shell.greater
  | .append => some Shell.greater
  | .bar => some Shell.bar
  | .amp => some Shell.amp
  | .semi => some Shell.semi
  | .lparen => some Shell.lparen
  | .rparen => some Shell.rparen

/-- What `gettoken` returns for a token. -/
def Tok.code : Tok → Byte
  | .word _ => wordCode
  | .append => plus
  | t => t.first.getD 0

/-- The string that a pair of pointers stands for. -/
def Ptr.text (p : Ptr) : Text := p.q.take (p.q.length - p.eq.length)

/-- A pair of pointers around a word of the text `s`. -/
structure Ptr.WordOf (p : Ptr) (s : Text) : Prop where
  suffix : p.q <:+ s
  split : p.q = p.text ++ p.eq
  word : ∀ c ∈ p.text, wordByte c = true
  stop : ∀ c, p.eq.head? = some c → wordByte c = false

theorem Ptr.WordOf.mono {p : Ptr} {s s' : Text} (h : p.WordOf s) (hs : s <:+ s') : p.WordOf s' :=
  { h with suffix := h.suffix.trans hs }

/-! ### The first token -/

/-- A text by its first token: its tokens, and what `gettoken` returns. -/
inductive Begins (s : Text) : Prop
  | atEnd : skip s = [] → lex s = [] → gettoken s = ⟨0, [], [], []⟩ → Begins s
  | symbol {c : Byte} {t : Text} {tok : Tok} : skip s = c :: t → tok.first = some c →
    tok.code = c → lex s = tok :: lex t → gettoken s = ⟨c, c :: t, t, skip t⟩ → Begins s
  | append {t : Text} : skip s = greater :: greater :: t → lex s = .append :: lex t →
    gettoken s = ⟨plus, greater :: greater :: t, t, skip t⟩ → Begins s
  | word {c : Byte} {t : Text} : skip s = c :: t → wordByte c = true →
    lex s = .word (c :: t.takeWhile wordByte) :: lex (t.dropWhile wordByte) →
    gettoken s = ⟨wordCode, c :: t, t.dropWhile wordByte, skip (t.dropWhile wordByte)⟩ → Begins s

theorem lex_skip (s : Text) : lex (skip s) = lex s := by
  induction s with
  | nil => rfl
  | cons c s ih =>
    cases hc : whitespace.contains c with
    | true =>
      have hskip : skip (c :: s) = skip s := dropWhile_cons_of_pos hc
      rw [hskip, ih, lex, if_pos hc]
    | false =>
      have hskip : skip (c :: s) = c :: s :=
        dropWhile_cons_of_neg (by rw [hc]; exact Bool.false_ne_true)
      rw [hskip]

/-- The symbols, with their tokens. -/
theorem symbolTok_cases (c : Byte) :
    (∃ tok, symbolTok c = some tok ∧ tok ≠ .greater ∧ tok.first = some c ∧ tok.code = c ∧
      (c = bar ∨ c = lparen ∨ c = rparen ∨ c = semi ∨ c = amp ∨ c = less)) ∨
    (c = greater ∧ symbolTok c = some .greater ∧
      ¬(c = bar ∨ c = lparen ∨ c = rparen ∨ c = semi ∨ c = amp ∨ c = less)) ∨
    (symbolTok c = none ∧ c ≠ greater ∧
      ¬(c = bar ∨ c = lparen ∨ c = rparen ∨ c = semi ∨ c = amp ∨ c = less)) := by
  by_cases hsym : c = bar ∨ c = lparen ∨ c = rparen ∨ c = semi ∨ c = amp ∨ c = less
  · left
    rcases hsym with rfl | rfl | rfl | rfl | rfl | rfl
    · exact ⟨.bar, rfl, nofun, rfl, rfl, by decide⟩
    · exact ⟨.lparen, rfl, nofun, rfl, rfl, by decide⟩
    · exact ⟨.rparen, rfl, nofun, rfl, rfl, by decide⟩
    · exact ⟨.semi, rfl, nofun, rfl, rfl, by decide⟩
    · exact ⟨.amp, rfl, nofun, rfl, rfl, by decide⟩
    · exact ⟨.less, rfl, nofun, rfl, rfl, by decide⟩
  · by_cases hgt : c = greater
    · exact .inr (.inl ⟨hgt, by rw [hgt]; rfl, hsym⟩)
    · refine .inr (.inr ⟨?_, hgt, hsym⟩)
      simp only [not_or] at hsym
      simp [symbolTok, hsym, hgt]

/-- Every text begins with a token or is at its end. -/
theorem begins (s : Text) : Begins s := by
  cases hs : skip s with
  | nil =>
    refine .atEnd hs ?_ ?_
    · rw [← lex_skip, hs, lex]
    · rw [gettoken, hs]
      rfl
  | cons c t =>
    have hw := not_white_of_skip hs
    have hlex : lex s = lex (c :: t) := by rw [← lex_skip, hs]
    rw [lex, hw] at hlex
    simp only [Bool.false_eq_true, if_false] at hlex
    rcases symbolTok_cases c with ⟨tok, htok, hne, hfirst, hcode, hsym⟩ | ⟨rfl, htok, hsym⟩ |
      ⟨htok, hgt, hsym⟩
    · refine .symbol hs hfirst hcode ?_ ?_
      · simpa only [htok, hne, false_and, if_false] using hlex
      · simp only [gettoken, hs, if_pos hsym]
    · by_cases happ : t.head? = some greater
      · obtain ⟨t, rfl⟩ : ∃ t', t = greater :: t' := by
          cases t with
          | nil => cases happ
          | cons c' t' => exact ⟨t', by rw [Option.some.inj happ]⟩
        refine .append hs ?_ ?_
        · simpa only [htok, happ, and_self, if_true, tail_cons] using hlex
        · simp only [gettoken, hs, if_neg hsym, if_true, happ, tail_cons]
      · refine @Begins.symbol s greater t .greater hs rfl rfl ?_ ?_
        · simpa only [htok, happ, and_false, if_false] using hlex
        · simp only [gettoken, hs, if_neg hsym, if_true, happ, if_false]
    · have hword := wordByte_of hw hsym hgt
      refine .word hs hword ?_ ?_
      · simpa only [htok] using hlex
      · simp only [gettoken, hs, if_neg hsym, if_neg hgt]
        rw [dropWhile_cons_of_pos hword]

/-! ### `gettoken` and `peek` -/

variable {s : Text} {tok : Tok} {toks : List Tok}

theorem skip_suffix (s : Text) : skip s <:+ s := dropWhile_suffix _

theorem gettoken_of_lex_nil (h : lex s = []) : gettoken s = ⟨0, [], [], []⟩ := by
  cases begins s with
  | atEnd _ _ hget => exact hget
  | symbol _ _ _ hlex => exact nomatch h.symm.trans hlex
  | append _ hlex => exact nomatch h.symm.trans hlex
  | word _ _ hlex => exact nomatch h.symm.trans hlex

/-- A word, as `gettoken` notes it. -/
theorem wordOf_gettoken {c : Byte} {t : Text} (hs : skip s = c :: t) (hc : wordByte c = true) :
    Ptr.text ⟨c :: t, t.dropWhile wordByte⟩ = c :: t.takeWhile wordByte ∧
      Ptr.WordOf ⟨c :: t, t.dropWhile wordByte⟩ s := by
  have happ : c :: t = (c :: t.takeWhile wordByte) ++ t.dropWhile wordByte := by
    rw [cons_append, takeWhile_append_dropWhile]
  have htext : Ptr.text ⟨c :: t, t.dropWhile wordByte⟩ = c :: t.takeWhile wordByte := by
    show (c :: t).take ((c :: t).length - (t.dropWhile wordByte).length) = _
    have hlen := congrArg List.length happ
    rw [length_append] at hlen
    rw [hlen, Nat.add_sub_cancel]
    conv_lhs => rw [happ]
    exact take_left
  refine ⟨htext, ⟨hs ▸ skip_suffix s, ?_, ?_, ?_⟩⟩
  · rw [htext]
    exact happ
  · rw [htext]
    intro b hb
    rcases mem_cons.1 hb with rfl | hb
    · exact hc
    · exact all_eq_true.1 all_takeWhile b hb
  · intro b hb
    have hhead := List.head?_dropWhile_not wordByte t
    rw [show (t.dropWhile wordByte).head? = some b from hb] at hhead
    exact hhead

/-- **`gettoken` takes the first token.** -/
theorem gettoken_of_lex (h : lex s = tok :: toks) :
    (gettoken s).ret = tok.code ∧ lex (gettoken s).rest = toks ∧ (gettoken s).rest <:+ s ∧
      ∀ w, tok = .word w → Ptr.text ⟨(gettoken s).q, (gettoken s).eq⟩ = w ∧
        Ptr.WordOf ⟨(gettoken s).q, (gettoken s).eq⟩ s := by
  cases begins s with
  | atEnd _ hlex => exact nomatch h.symm.trans hlex
  | @symbol c t tok' hs hfirst hcode hlex hget =>
    obtain ⟨rfl, rfl⟩ := List.cons.inj (h.symm.trans hlex)
    rw [hget]
    refine ⟨hcode.symm, lex_skip t, ?_, ?_⟩
    · exact (skip_suffix t).trans ((suffix_cons c t).trans (hs ▸ skip_suffix s))
    · rintro w rfl
      exact nomatch hfirst
  | @append t hs hlex hget =>
    obtain ⟨rfl, rfl⟩ := List.cons.inj (h.symm.trans hlex)
    rw [hget]
    have hsuffix := skip_suffix s
    rw [hs] at hsuffix
    refine ⟨rfl, lex_skip t, ?_, nofun⟩
    exact (skip_suffix t).trans ((suffix_append [greater, greater] t).trans hsuffix)
  | @word c t hs hc hlex hget =>
    obtain ⟨rfl, rfl⟩ := List.cons.inj (h.symm.trans hlex)
    rw [hget]
    refine ⟨rfl, lex_skip _, ?_, ?_⟩
    · exact (skip_suffix _).trans ((dropWhile_suffix _).trans
        ((suffix_cons c t).trans (hs ▸ skip_suffix s)))
    · rintro w ⟨⟩
      exact wordOf_gettoken hs hc

theorem lex_peek (s : Text) (cs : List Byte) : lex (peek s cs).2 = lex s := lex_skip s

theorem peek_suffix (s : Text) (cs : List Byte) : (peek s cs).2 <:+ s := skip_suffix s

theorem peek_of_lex_nil (h : lex s = []) (cs : List Byte) : peek s cs = (false, []) := by
  cases begins s with
  | atEnd hs => rw [peek, hs]; rfl
  | symbol _ _ _ hlex => cases h.symm.trans hlex
  | append _ hlex => cases h.symm.trans hlex
  | word _ _ hlex => cases h.symm.trans hlex

/-- **`peek` sees the first token**, if it is asked for symbols. -/
theorem peek_of_lex (h : lex s = tok :: toks) {cs : List Byte}
    (hcs : ∀ c ∈ cs, symbols.contains c = true) : (peek s cs).1 = tok.first.any cs.contains := by
  cases begins s with
  | atEnd _ hlex => exact nomatch h.symm.trans hlex
  | @symbol c t tok' hs hfirst hcode hlex hget =>
    obtain ⟨rfl, rfl⟩ := List.cons.inj (h.symm.trans hlex)
    rw [peek, hs, hfirst]
    rfl
  | @append t hs hlex hget =>
    obtain ⟨rfl, rfl⟩ := List.cons.inj (h.symm.trans hlex)
    rw [peek, hs]
    rfl
  | @word c t hs hc hlex hget =>
    obtain ⟨rfl, rfl⟩ := List.cons.inj (h.symm.trans hlex)
    rw [peek, hs]
    show cs.contains c = false
    rw [← Bool.not_eq_true, contains_iff_mem]
    intro hmem
    rw [wordByte, hcs c hmem] at hc
    simp at hc

/-- There are not more tokens than bytes. -/
theorem length_lex_le (s : Text) : (lex s).length ≤ s.length := by
  induction hn : s.length using Nat.strongRecOn generalizing s with
  | _ n ih =>
    have hskip := length_skip_le s
    cases begins s with
    | atEnd _ hlex => rw [hlex]; exact Nat.zero_le _
    | @symbol c t tok' hs hfirst hcode hlex hget =>
      rw [hs, length_cons] at hskip
      have ht := ih t.length (by omega) t rfl
      rw [hlex, length_cons]
      omega
    | @append t hs hlex hget =>
      rw [hs, length_cons, length_cons] at hskip
      have ht := ih t.length (by omega) t rfl
      rw [hlex, length_cons]
      omega
    | @word c t hs hc hlex hget =>
      rw [hs, length_cons] at hskip
      have hdrop := length_dropWhile_le wordByte t
      have ht := ih (t.dropWhile wordByte).length (by omega) _ rfl
      rw [hlex, length_cons]
      omega

end Xv6.Shell

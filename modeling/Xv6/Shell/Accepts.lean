import Xv6.Library.Run
import Xv6.Shell.Tokens

/-!
# The shell's parser accepts its grammar

The loops first: `parseredirs` reads `redir*`, `parseargs` reads `(word redir*)*` and `parseback`
reads `'&'*`, each as far as it can. What they return is a tree over pointers; with the strings of
the pointers in it, it is the tree of the grammar. Then the functions that call each other: what
they return has been derived (`parse_sound`), and what can be derived they return if it is followed
by a token that can follow it (`parse_complete`). A depth of four calls for each token is enough
(`parse_enough`). At last, the bytes that `nulterminate` overwrites are not in words, so that the
strings are those of the grammar (`cstring_nulterminate`).
-/

namespace Xv6.Shell

open List Option

variable {s s' S : Text} {c cmd : Cmd Ptr}

/-! ### Trees over pointers -/

/-- The same redirection with another string. -/
def Redir.map {α β : Type} (g : α → β) (r : Redir α) : Redir β := ⟨g r.file, r.mode, r.fd⟩

theorem map_redirect {α β : Type} (g : α → β) (c : Cmd α) (rs : List (Redir α)) :
    (redirect c rs).map g = redirect (c.map g) (rs.map (Redir.map g)) := by
  induction rs generalizing c with
  | nil => rfl
  | cons r rs ih => exact ih _

theorem redirect_append {α : Type} (c : Cmd α) (rs rs' : List (Redir α)) :
    redirect c (rs ++ rs') = redirect (redirect c rs) rs' := foldl_append

theorem map_background {α β : Type} (g : α → β) (n : ℕ) (c : Cmd α) :
    (background n c).map g = background n (c.map g) := by
  induction n generalizing c with
  | zero => rfl
  | succ n ih => exact ih _

theorem strings_background {α : Type} (n : ℕ) (c : Cmd α) :
    (background n c).strings = c.strings := by
  induction n generalizing c with
  | zero => rfl
  | succ n ih => exact ih _

/-- An argument goes to the command inside the redirections. -/
theorem addArg_redirect (p : Ptr) (rs : List (Redir Ptr)) (argv : List Ptr) :
    addArg p (redirect (.exec argv) rs) = redirect (.exec (argv ++ [p])) rs := by
  have hall : ∀ c, addArg p (redirect c rs) = redirect (addArg p c) rs := by
    induction rs with
    | nil => exact fun _ ↦ rfl
    | cons r rs ih => exact fun c ↦ ih _
  exact hall _

theorem mem_strings_redirect {α : Type} {c : Cmd α} {rs : List (Redir α)} {x : α} :
    x ∈ (redirect c rs).strings ↔ x ∈ c.strings ∨ ∃ r ∈ rs, x = r.file := by
  induction rs generalizing c with
  | nil => simp [redirect]
  | cons r rs ih =>
    rw [show redirect c (r :: rs) = redirect (.redir c r.file r.mode r.fd) rs from rfl, ih,
      Cmd.strings, mem_cons]
    simp only [mem_cons, exists_eq_or_imp]
    tauto

/-- The strings of a tree are words of the text. -/
def Cmd.WordsOf (c : Cmd Ptr) (S : Text) : Prop := ∀ p ∈ c.strings, p.WordOf S

/-! ### Redirections -/

/-- The operators of redirection, as `peek` sees them. -/
theorem peek_redir {tok : Tok} {toks : List Tok} (h : lex s = tok :: toks) :
    (peek s [less, greater]).1 = true ↔ ∃ mk : Text → Redir Text, redirOf tok = some mk := by
  rw [peek_of_lex h (by decide)]
  cases tok <;> simp [redirOf, Tok.first, less, greater, bar, amp, semi, lparen, rparen]

/-- What `parseredirs` makes of an operator. -/
theorem redircmd_code {tok : Tok} {mk : Text → Redir Text} (h : redirOf tok = some mk) (p : Ptr)
    (cmd : Cmd Ptr) : ∃ r : Redir Ptr, redircmd tok.code cmd p = redirect cmd [r] ∧ r.file = p ∧
      r.map Ptr.text = mk p.text := by
  cases tok with
  | less =>
    obtain rfl := Option.some.inj h
    exact ⟨⟨p, oRdonly, 0⟩, rfl, rfl, rfl⟩
  | greater =>
    obtain rfl := Option.some.inj h
    exact ⟨⟨p, oWronly ||| oCreate ||| oTrunc, 1⟩, rfl, rfl, rfl⟩
  | append =>
    obtain rfl := Option.some.inj h
    exact ⟨⟨p, oWronly ||| oCreate, 1⟩, rfl, rfl, rfl⟩
  | _ => exact nomatch h

/-- A word is the only token with the code of a word. -/
theorem eq_word_of_code {tok : Tok} (h : tok.code = wordCode) : ∃ w, tok = .word w := by
  cases tok with
  | word w => exact ⟨w, rfl⟩
  | _ => exact absurd h (by decide)

/-- No operator of redirection comes next. -/
def NoRedir (ts : List Tok) : Prop := ∀ op ts', ts = op :: ts' → @redirOf Text op = none

/-- What one turn of `parseredirs` does: it ends, it misses the file, or it takes an operator and a
word. -/
inductive RedirTurn (cmd : Cmd Ptr) (s : Text) : Prop
  | stop : NoRedir (lex s) → parseredirs cmd s = .ok (cmd, skip s) → RedirTurn cmd s
  | missing {op : Tok} {mk : Text → Redir Text} {ts : List Tok} : lex s = op :: ts →
    redirOf op = some mk → (∀ w ts', ts ≠ .word w :: ts') →
    parseredirs cmd s = .error .missingFile → RedirTurn cmd s
  | next {op : Tok} {mk : Text → Redir Text} {ts : List Tok} {r : Redir Ptr} {s2 : Text} :
    lex s = op :: .word r.file.text :: ts → redirOf op = some mk → r.map Ptr.text = mk r.file.text →
    r.file.WordOf s → s2 <:+ s → lex s2 = ts →
    parseredirs cmd s = parseredirs (redirect cmd [r]) s2 → RedirTurn cmd s

theorem redirTurn (cmd : Cmd Ptr) (s : Text) : RedirTurn cmd s := by
  cases hlex : lex s with
  | nil =>
    refine .stop (by rw [hlex]; exact nofun) ?_
    rw [parseredirs, peek_of_lex_nil hlex, if_neg nofun]
    cases begins s with
    | atEnd hs => rw [hs]
    | symbol _ _ _ h => exact nomatch hlex.symm.trans h
    | append _ h => exact nomatch hlex.symm.trans h
    | word _ _ h => exact nomatch hlex.symm.trans h
  | cons op ts =>
    by_cases hop : ∃ mk : Text → Redir Text, redirOf op = some mk
    · obtain ⟨mk, hmk⟩ := hop
      have hpeek := (peek_redir hlex).2 ⟨mk, hmk⟩
      obtain ⟨hret, hrest, hsuf, -⟩ :=
        gettoken_of_lex ((lex_peek s [less, greater]).trans hlex)
      have heq : parseredirs cmd s =
          if (gettoken (gettoken (peek s [less, greater]).2).rest).ret ≠ wordCode then
            .error .missingFile
          else parseredirs (redircmd op.code cmd
            ⟨(gettoken (gettoken (peek s [less, greater]).2).rest).q,
              (gettoken (gettoken (peek s [less, greater]).2).rest).eq⟩)
            (gettoken (gettoken (peek s [less, greater]).2).rest).rest := by
        rw [parseredirs, if_pos hpeek]
        simp only [hret]
      cases ts with
      | nil =>
        refine .missing hlex hmk nofun ?_
        rw [heq, gettoken_of_lex_nil hrest, if_pos (by decide)]
      | cons t ts =>
        obtain ⟨hret', hrest', hsuf', hword⟩ := gettoken_of_lex hrest
        by_cases hcode : t.code = wordCode
        · obtain ⟨w, rfl⟩ := eq_word_of_code hcode
          obtain ⟨htext, hof⟩ := hword w rfl
          have hsuf1 := hsuf.trans (peek_suffix s [less, greater])
          obtain ⟨r, hcmd, hfile, hmap⟩ := redircmd_code hmk
            ⟨(gettoken (gettoken (peek s [less, greater]).2).rest).q,
              (gettoken (gettoken (peek s [less, greater]).2).rest).eq⟩ cmd
          refine @RedirTurn.next _ _ op mk ts r _ ?_ hmk ?_ ?_ (hsuf'.trans hsuf1) hrest' ?_
          · rw [hfile, htext, hlex]
          · rw [hmap, hfile]
          · rw [hfile]
            exact hof.mono hsuf1
          · rw [heq, if_neg (fun h ↦ h (hret'.trans hcode)), hcmd]
        · refine .missing hlex hmk ?_ ?_
          · rintro w ts' heq'
            obtain ⟨rfl, -⟩ := List.cons.inj heq'
            exact hcode rfl
          · rw [heq, hret', if_pos hcode]
    · refine .stop ?_ ?_
      · rintro op' ts' heq'
        obtain ⟨rfl, -⟩ := List.cons.inj (hlex.symm.trans heq')
        exact eq_none_iff_forall_ne_some.2 fun mk hmk ↦ hop ⟨mk, hmk⟩
      · rw [parseredirs, if_neg (fun h ↦ hop ((peek_redir hlex).1 h))]
        rfl

theorem parseredirs_sound (h : parseredirs cmd s = .ok (c, s')) (hs : s <:+ S)
    (hcmd : cmd.WordsOf S) : ∃ ts rs, lex s = ts ++ lex s' ∧ s' <:+ S ∧ c.WordsOf S ∧
      Redirs ts (rs.map (Redir.map Ptr.text)) ∧ c = redirect cmd rs := by
  induction hn : (lex s).length using Nat.strongRecOn generalizing s cmd with
  | _ n ih =>
    cases redirTurn cmd s with
    | stop _ heq =>
      obtain ⟨rfl, rfl⟩ := Prod.mk.inj (Except.ok.inj (heq.symm.trans h))
      exact ⟨[], [], (lex_skip s).symm, (skip_suffix s).trans hs, hcmd, .nil, rfl⟩
    | missing _ _ _ heq => exact nomatch heq.symm.trans h
    | @next op mk ts r s2 hlex hop hmap hof hsuf hlex2 heq =>
      have hcmd' : (redirect cmd [r]).WordsOf S := by
        intro p hp
        rcases mem_strings_redirect.1 hp with hp | ⟨r', hr', rfl⟩
        · exact hcmd p hp
        · rw [mem_singleton.1 hr']
          exact hof.mono hs
      have hlt : (lex s2).length < n := by
        rw [← hn, hlex, hlex2, length_cons, length_cons]
        omega
      obtain ⟨ts', rs, hts, hs', hc, hrs, rfl⟩ :=
        ih _ hlt (heq.symm.trans h) (hsuf.trans hs) hcmd' rfl
      refine ⟨op :: .word r.file.text :: ts', r :: rs, ?_, hs', hc, ?_, rfl⟩
      · rw [hlex, ← hlex2, hts]
        rfl
      · rw [map_cons, hmap]
        exact .cons hop hrs

theorem parseredirs_complete {ts rest : List Tok} {rs : List (Redir Text)} (h : Redirs ts rs)
    (hlex : lex s = ts ++ rest) (hrest : NoRedir rest) (cmd : Cmd Ptr) :
    ∃ rs' s', parseredirs cmd s = .ok (redirect cmd rs', s') ∧ lex s' = rest ∧
      rs'.map (Redir.map Ptr.text) = rs := by
  induction h generalizing s cmd with
  | nil =>
    cases redirTurn cmd s with
    | stop _ heq => exact ⟨[], skip s, heq, (lex_skip s).trans hlex, rfl⟩
    | missing hlex' hop => exact nomatch hop.symm.trans (hrest _ _ (hlex.symm.trans hlex'))
    | next hlex' hop => exact nomatch hop.symm.trans (hrest _ _ (hlex.symm.trans hlex'))
  | @cons op mk w ts rs hop _ ih =>
    cases redirTurn cmd s with
    | stop hno => exact nomatch hop.symm.trans (hno _ _ hlex)
    | missing hlex' hop' hno =>
      obtain ⟨rfl, rfl⟩ := List.cons.inj (hlex'.symm.trans hlex)
      exact absurd rfl (hno _ _)
    | @next op' mk' ts' r s2 hlex' hop' hmap hof hsuf hlex2 heq =>
      obtain ⟨rfl, htail⟩ := List.cons.inj (hlex'.symm.trans hlex)
      obtain ⟨hw, rfl⟩ := List.cons.inj htail
      obtain rfl := Option.some.inj (hop'.symm.trans hop)
      obtain ⟨rs', s', hparse, hs', hrs⟩ := ih hlex2 (redirect cmd [r])
      refine ⟨r :: rs', s', heq.trans hparse, hs', ?_⟩
      rw [map_cons, hrs, hmap, Tok.word.inj hw]

theorem parseredirs_ne_outOfFuel (cmd : Cmd Ptr) (s : Text) :
    parseredirs cmd s ≠ .error .outOfFuel := by
  induction hn : (lex s).length using Nat.strongRecOn generalizing s cmd with
  | _ n ih =>
    cases redirTurn cmd s with
    | stop _ heq =>
      rw [heq]
      exact nofun
    | missing _ _ _ heq =>
      rw [heq]
      exact nofun
    | @next op mk ts r s2 hlex _ _ _ _ hlex2 heq =>
      rw [heq]
      refine ih _ ?_ _ s2 rfl
      rw [← hn, hlex, hlex2, length_cons, length_cons]
      omega

/-! ### Words -/

/-- A command without parentheses ends here. -/
def Stops (ts : List Tok) : Prop :=
  ∀ t ts', ts = t :: ts' → t = .bar ∨ t = .rparen ∨ t = .amp ∨ t = .semi

theorem Stops.noRedir {ts : List Tok} (h : Stops ts) : NoRedir ts := by
  intro op ts' heq
  rcases h op ts' heq with rfl | rfl | rfl | rfl <;> rfl

theorem peek_stops {tok : Tok} {toks : List Tok} (h : lex s = tok :: toks) :
    (peek s [bar, rparen, amp, semi]).1 = true ↔
      tok = .bar ∨ tok = .rparen ∨ tok = .amp ∨ tok = .semi := by
  rw [peek_of_lex h (by decide)]
  cases tok <;> simp [Tok.first, less, greater, bar, amp, semi, lparen, rparen]

/-- What one turn of the loop of `parseexec` does: it ends, it fails, or it takes a word and the
redirections behind it. -/
inductive ArgTurn (ret : Cmd Ptr) (argc : ℕ) (s : Text) : Prop
  | stop {s' : Text} : Stops (lex s) → lex s' = lex s → s' <:+ s →
    parseargs ret argc s = .ok (ret, s') → ArgTurn ret argc s
  | fail {t : Tok} {ts : List Tok} {e : Failure} : lex s = t :: ts → ¬Stops (lex s) →
    (∀ w, t = .word w → maxargs ≤ argc + 1) → e ≠ .outOfFuel →
    parseargs ret argc s = .error e → ArgTurn ret argc s
  | next {p : Ptr} {ts : List Tok} {s2 : Text} : lex s = .word p.text :: ts → p.WordOf s →
    argc + 1 < maxargs → s2 <:+ s → lex s2 = ts →
    parseargs ret argc s = (parseredirs (addArg p ret) s2 >>= fun r ↦
      parseargs r.1 (argc + 1) r.2) → ArgTurn ret argc s

theorem argTurn (ret : Cmd Ptr) (argc : ℕ) (s : Text) : ArgTurn ret argc s := by
  have heq : parseargs ret argc s =
      if (peek s [bar, rparen, amp, semi]).1 then .ok (ret, (peek s [bar, rparen, amp, semi]).2)
      else
        let tok := gettoken (peek s [bar, rparen, amp, semi]).2
        if tok.ret = 0 then .ok (ret, tok.rest)
        else if tok.ret ≠ wordCode then .error .unexpected
        else if maxargs ≤ argc + 1 then .error .tooManyArgs
        else parseredirs (addArg ⟨tok.q, tok.eq⟩ ret) tok.rest >>= fun r ↦
          parseargs r.1 (argc + 1) r.2 := by
    rw [parseargs]
  have hlex' := lex_peek s [bar, rparen, amp, semi]
  cases hlex : lex s with
  | nil =>
    rw [hlex] at hlex'
    rw [peek_of_lex_nil hlex, if_neg nofun] at heq
    have hget : gettoken [] = ⟨0, [], [], []⟩ := rfl
    dsimp only at heq
    rw [hget] at heq
    exact @ArgTurn.stop _ _ _ [] (by rw [hlex]; exact nofun) (by rw [hlex, lex_nil]) nil_suffix heq
  | cons t ts =>
    rw [hlex] at hlex'
    by_cases hstop : t = .bar ∨ t = .rparen ∨ t = .amp ∨ t = .semi
    · rw [if_pos ((peek_stops hlex).2 hstop)] at heq
      refine .stop ?_ (lex_peek s _) (peek_suffix s _) heq
      rw [hlex]
      rintro t' ts' heq'
      rwa [← (List.cons.inj heq').1]
    · have hnot : ¬Stops (lex s) := fun h ↦ hstop (h t ts hlex)
      obtain ⟨hret, hrest, hsuf, hword⟩ := gettoken_of_lex hlex'
      rw [if_neg (fun h ↦ hstop ((peek_stops hlex).1 h))] at heq
      dsimp only at heq
      have hcode0 : t.code ≠ 0 := by
        cases t with
        | word w => exact (by decide : wordCode ≠ 0)
        | _ => decide
      rw [hret, if_neg hcode0] at heq
      by_cases hcode : t.code = wordCode
      · obtain ⟨w, rfl⟩ := eq_word_of_code hcode
        obtain ⟨htext, hof⟩ := hword w rfl
        rw [if_neg (fun h ↦ h hcode)] at heq
        by_cases hmany : maxargs ≤ argc + 1
        · rw [if_pos hmany] at heq
          exact .fail (e := .tooManyArgs) hlex hnot (fun _ _ ↦ hmany) nofun heq
        · rw [if_neg hmany] at heq
          refine .next (by rw [htext, hlex]) (hof.mono (peek_suffix s _)) (Nat.not_le.1 hmany)
            (hsuf.trans (peek_suffix s _)) hrest heq
      · rw [if_pos hcode] at heq
        refine .fail (e := .unexpected) hlex hnot ?_ nofun heq
        rintro w rfl
        exact absurd rfl hcode

theorem parseargs_sound {argv : List Ptr} {rs0 : List (Redir Ptr)}
    (h : parseargs (redirect (.exec argv) rs0) argv.length s = .ok (c, s')) (hs : s <:+ S)
    (hargv : argv.length ≤ maxargs - 1) (hret : (redirect (.exec argv) rs0).WordsOf S) :
    ∃ ts ws rs, lex s = ts ++ lex s' ∧ s' <:+ S ∧ c.WordsOf S ∧
      Args ts (ws.map Ptr.text) (rs.map (Redir.map Ptr.text)) ∧
      (argv ++ ws).length ≤ maxargs - 1 ∧ c = redirect (.exec (argv ++ ws)) (rs0 ++ rs) := by
  induction hn : maxargs - argv.length using Nat.strongRecOn generalizing s argv rs0 with
  | _ n ih =>
    cases argTurn (redirect (.exec argv) rs0) argv.length s with
    | stop _ hlex hsuf heq =>
      obtain ⟨rfl, rfl⟩ := Prod.mk.inj (Except.ok.inj (heq.symm.trans h))
      refine ⟨[], [], [], hlex.symm, hsuf.trans hs, hret, .nil, ?_, ?_⟩
      · rwa [append_nil]
      · rw [append_nil, append_nil]
    | fail _ _ _ _ heq => exact nomatch heq.symm.trans h
    | @next p ts s2 hlex hof hlt hsuf hlex2 heq =>
      rw [heq, addArg_redirect] at h
      obtain ⟨⟨c1, s1⟩, hredirs, hargs⟩ := except_bind_eq_ok.1 h
      have hwords : (redirect (.exec (argv ++ [p])) rs0).WordsOf S := by
        intro q hq
        rcases mem_strings_redirect.1 hq with hq | hq
        · rcases mem_append.1 hq with hq | hq
          · exact hret q (mem_strings_redirect.2 (.inl hq))
          · rw [mem_singleton.1 hq]
            exact hof.mono hs
        · exact hret q (mem_strings_redirect.2 (.inr hq))
      obtain ⟨ts1, rs1, hts1, hs1, hc1, hrs1, rfl⟩ :=
        parseredirs_sound hredirs (hsuf.trans hs) hwords
      have hlen : (argv ++ [p]).length = argv.length + 1 := by
        rw [length_append, length_singleton]
      rw [← redirect_append] at hargs hc1
      dsimp only at hargs
      rw [← hlen] at hargs
      obtain ⟨ts2, ws, rs2, hts2, hs', hc, hargs2, hmax, rfl⟩ :=
        ih (maxargs - (argv ++ [p]).length) (by omega) hargs hs1 (by omega) hc1 rfl
      refine ⟨.word p.text :: (ts1 ++ ts2), p :: ws, rs1 ++ rs2, ?_, hs', hc, ?_, ?_, ?_⟩
      · rw [hlex, ← hlex2, hts1, hts2, cons_append, append_assoc]
      · rw [map_append, map_cons]
        exact .cons hrs1 hargs2
      · rwa [append_assoc] at hmax
      · rw [append_assoc, append_assoc]
        rfl

theorem Args.noRedir {ts rest : List Tok} {ws : List Text} {rs : List (Redir Text)}
    (h : Args ts ws rs) (hrest : NoRedir rest) : NoRedir (ts ++ rest) := by
  cases h with
  | nil => exact hrest
  | cons _ _ =>
    intro op ts' heq
    rw [← (List.cons.inj heq).1]
    rfl

theorem parseargs_complete {ts rest : List Tok} {ws : List Text} {rs : List (Redir Text)}
    (h : Args ts ws rs) (hlex : lex s = ts ++ rest) (hrest : Stops rest) {argv : List Ptr}
    (rs0 : List (Redir Ptr)) (hmax : argv.length + ws.length ≤ maxargs - 1) :
    ∃ ws' rs' s', parseargs (redirect (.exec argv) rs0) argv.length s =
        .ok (redirect (.exec (argv ++ ws')) (rs0 ++ rs'), s') ∧ lex s' = rest ∧
      ws'.map Ptr.text = ws ∧ rs'.map (Redir.map Ptr.text) = rs := by
  induction h generalizing s argv rs0 with
  | nil =>
    cases argTurn (redirect (.exec argv) rs0) argv.length s with
    | @stop s' _ hlex' _ heq =>
      refine ⟨[], [], s', ?_, hlex'.trans hlex, rfl, rfl⟩
      rwa [append_nil, append_nil]
    | fail _ hnot =>
      rw [hlex] at hnot
      exact absurd hrest hnot
    | next hlex' =>
      rcases hrest _ _ (hlex.symm.trans hlex') with h | h | h | h <;> exact nomatch h
  | @cons w ts ts' rs rs' ws hredirs hargs ih =>
    have hm : maxargs = 10 := rfl
    rw [length_cons] at hmax
    rw [cons_append, append_assoc] at hlex
    cases argTurn (redirect (.exec argv) rs0) argv.length s with
    | stop hstops =>
      rcases hstops _ _ hlex with h | h | h | h <;> exact nomatch h
    | fail hlex' _ hmany =>
      have hle := hmany w (List.cons.inj (hlex'.symm.trans hlex)).1
      omega
    | @next p ts2 s2 hlex' hof hlt hsuf hlex2 heq =>
      obtain ⟨hw, htail⟩ := List.cons.inj (hlex'.symm.trans hlex)
      have hlen : (argv ++ [p]).length = argv.length + 1 := by
        rw [length_append, length_singleton]
      rw [htail] at hlex2
      obtain ⟨rs1, s3, hparse, hlex3, hrs1⟩ := parseredirs_complete hredirs hlex2
        (hargs.noRedir hrest.noRedir) (redirect (.exec (argv ++ [p])) rs0)
      obtain ⟨ws2, rs2, s', hparse2, hs', hws2, hrs2⟩ :=
        @ih s3 hlex3 (argv ++ [p]) (rs0 ++ rs1) (by omega)
      refine ⟨p :: ws2, rs1 ++ rs2, s', ?_, hs', ?_, ?_⟩
      · rw [heq, addArg_redirect, hparse, ← redirect_append]
        show parseargs _ _ _ = _
        dsimp only
        rw [← hlen, hparse2, append_assoc, append_assoc]
        rfl
      · rw [map_cons, hws2, Tok.word.inj hw]
      · rw [map_append, hrs1, hrs2]

theorem parseargs_ne_outOfFuel (ret : Cmd Ptr) (argc : ℕ) (s : Text) :
    parseargs ret argc s ≠ .error .outOfFuel := by
  induction hn : maxargs - argc using Nat.strongRecOn generalizing s ret argc with
  | _ n ih =>
    cases argTurn ret argc s with
    | stop _ _ _ heq =>
      rw [heq]
      exact nofun
    | fail _ _ _ he heq =>
      rw [heq]
      exact fun h ↦ he (Except.error.inj h)
    | next _ _ hlt _ _ heq =>
      rw [heq]
      exact except_bind_ne_error (parseredirs_ne_outOfFuel _ _) fun r _ ↦
        ih _ (by omega) r.1 (argc + 1) r.2 rfl

/-! ### Commands in the background -/

/-- Apart from `>`, a symbol begins one token only. -/
theorem first_eq_iff {tok t : Tok} {c : Byte} (h : tok.first = some c) (hc : c ≠ greater) :
    t.first = some c ↔ t = tok := by
  constructor
  · intro ht
    cases tok <;> cases h <;> cases t <;>
      first | rfl | exact absurd rfl hc | exact absurd ht (by decide) | exact nomatch ht
  · rintro rfl
    exact h

/-- `peek` for one symbol. -/
theorem peek_iff {tok : Tok} {c : Byte} (h : tok.first = some c) (hc : c ≠ greater) :
    (peek s [c]).1 = true ↔ ∃ ts, lex s = tok :: ts := by
  have hsym : symbols.contains c = true := by
    cases tok <;> cases h <;> decide
  cases hlex : lex s with
  | nil =>
    rw [peek_of_lex_nil hlex]
    exact ⟨nofun, nofun⟩
  | cons t ts =>
    rw [peek_of_lex hlex (by simpa using hsym)]
    have hany : t.first.any [c].contains = true ↔ t.first = some c := by
      cases t.first <;> simp
    rw [hany, first_eq_iff h hc]
    exact ⟨fun heq ↦ ⟨ts, by rw [heq]⟩, fun ⟨_, heq⟩ ↦ (List.cons.inj heq).1⟩

/-- `parseback` takes all the `&`. -/
theorem parseback_eq (cmd : Cmd Ptr) (s : Text) : ∃ n s', parseback cmd s = (background n cmd, s') ∧
    lex s = List.replicate n .amp ++ lex s' ∧ s' <:+ s ∧ ∀ ts, lex s' ≠ .amp :: ts := by
  induction hn : (lex s).length using Nat.strongRecOn generalizing s cmd with
  | _ n ih =>
    rw [parseback]
    by_cases hpeek : (peek s [amp]).1 = true
    · obtain ⟨ts, hlex⟩ := (@peek_iff s .amp amp rfl (by decide)).1 hpeek
      obtain ⟨-, hrest, hsuf, -⟩ := gettoken_of_lex ((lex_peek s [amp]).trans hlex)
      have hlt : (lex (gettoken (peek s [amp]).2).rest).length < n := by
        rw [← hn, hlex, hrest, length_cons]
        exact Nat.lt_succ_self _
      obtain ⟨k, s', heq, hlex', hsuf', hno⟩ := ih _ hlt (.back cmd) _ rfl
      rw [if_pos hpeek]
      refine ⟨k + 1, s', heq, ?_, hsuf'.trans (hsuf.trans (peek_suffix s _)), hno⟩
      rw [hlex, ← hrest, hlex', replicate_succ]
      rfl
    · rw [if_neg hpeek]
      refine ⟨0, (peek s [amp]).2, rfl, (lex_peek s _).symm, peek_suffix s _, fun ts heq ↦ hpeek ?_⟩
      rw [lex_peek] at heq
      exact (peek_iff rfl (by decide)).2 ⟨ts, heq⟩

/-! ### The functions that call each other -/

theorem parseline_succ (n : ℕ) (s : Text) : parseline (n + 1) s = (parsepipe n s >>= fun r ↦
    if (peek (parseback r.1 r.2).2 [semi]).1 then
      parseline n (gettoken (peek (parseback r.1 r.2).2 [semi]).2).rest >>= fun q ↦
        .ok (.list (parseback r.1 r.2).1 q.1, q.2)
    else .ok ((parseback r.1 r.2).1, (peek (parseback r.1 r.2).2 [semi]).2)) := by
  rw [parseline]

theorem parsepipe_succ (n : ℕ) (s : Text) : parsepipe (n + 1) s = (parseexec n s >>= fun r ↦
    if (peek r.2 [bar]).1 then
      parsepipe n (gettoken (peek r.2 [bar]).2).rest >>= fun q ↦ .ok (.pipe r.1 q.1, q.2)
    else .ok (r.1, (peek r.2 [bar]).2)) := by
  rw [parsepipe]

theorem parseexec_succ (n : ℕ) (s : Text) : parseexec (n + 1) s =
    if (peek s [lparen]).1 then parseblock n (peek s [lparen]).2
    else parseredirs (.exec []) (peek s [lparen]).2 >>= fun r ↦ parseargs r.1 0 r.2 := by
  rw [parseexec]

theorem parseblock_succ (n : ℕ) (s : Text) : parseblock (n + 1) s =
    if !(peek s [lparen]).1 then .error .parseblock
    else parseline n (gettoken (peek s [lparen]).2).rest >>= fun r ↦
      if !(peek r.2 [rparen]).1 then .error .missingParen
      else parseredirs r.1 (gettoken (peek r.2 [rparen]).2).rest := by
  rw [parseblock]

/-- What a function of the parser has read when it returns: tokens that derive from `nt`. -/
def Derived (S : Text) (nt : Nonterminal) (s : Text) (r : Cmd Ptr × Text) : Prop :=
  ∃ ts, lex s = ts ++ lex r.2 ∧ r.2 <:+ S ∧ r.1.WordsOf S ∧ Derives nt ts (r.1.map Ptr.text)

/-- The text behind a symbol that `peek` has seen. -/
theorem rest_of_peek (tok : Tok) {b : Byte} (h : tok.first = some b) (hb : b ≠ greater)
    (hpeek : (peek s [b]).1 = true) :
    lex s = tok :: lex (gettoken (peek s [b]).2).rest ∧ (gettoken (peek s [b]).2).rest <:+ s := by
  obtain ⟨ts, hlex⟩ := (peek_iff h hb).1 hpeek
  obtain ⟨-, hrest, hsuf, -⟩ := gettoken_of_lex ((lex_peek s [b]).trans hlex)
  exact ⟨by rw [hrest, hlex], hsuf.trans (peek_suffix s _)⟩

/-- What `f` returns on a part of `S` has been derived from `nt`. -/
def Sound (S : Text) (nt : Nonterminal) (f : Text → Except Failure (Cmd Ptr × Text)) : Prop :=
  ∀ s r, s <:+ S → f s = .ok r → Derived S nt s r

section Sound

variable {n : ℕ}

theorem wordsOf_append {left right : Cmd Ptr} (hl : left.WordsOf S) (hr : right.WordsOf S) :
    ∀ p ∈ left.strings ++ right.strings, p.WordOf S := by
  intro p hp
  rcases mem_append.1 hp with hp | hp
  · exact hl p hp
  · exact hr p hp

theorem parseline_sound (hpipe : Sound S .pipe (parsepipe n))
    (hline : Sound S .line (parseline n)) :
    Sound S .line (parseline (n + 1)) := by
  intro s r hs h
  rw [parseline_succ] at h
  obtain ⟨⟨c1, s1⟩, h1, h⟩ := except_bind_eq_ok.1 h
  obtain ⟨ts1, hlex1, hs1, hw1, hd1⟩ := hpipe s _ hs h1
  obtain ⟨k, s2, hback, hlex2, hs2, -⟩ := parseback_eq c1 s1
  rw [hback] at h
  dsimp only at h hlex1 hs1 hw1
  have hsuf2 := hs2.trans hs1
  have hw2 : (background k c1).WordsOf S := by
    rw [Cmd.WordsOf, strings_background]
    exact hw1
  split_ifs at h with hpeek
  · obtain ⟨hlex3, hs3⟩ := rest_of_peek .semi rfl (by decide) hpeek
    obtain ⟨⟨c4, s4⟩, h4, h⟩ := except_bind_eq_ok.1 h
    obtain ⟨ts4, hlex4, hs4, hw4, hd4⟩ := hline _ _ (hs3.trans hsuf2) h4
    obtain rfl := Except.ok.inj h
    refine ⟨ts1 ++ (List.replicate k .amp ++ .semi :: ts4), ?_, hs4, wordsOf_append hw2 hw4, ?_⟩
    · rw [hlex1, hlex2, hlex3, hlex4]
      simp
    · rw [Cmd.map, map_background]
      exact .semi k hd1 hd4
  · obtain rfl := Except.ok.inj h
    refine ⟨ts1 ++ List.replicate k .amp, ?_, (peek_suffix s2 [semi]).trans hsuf2, hw2, ?_⟩
    · rw [lex_peek, hlex1, hlex2, append_assoc]
    · rw [map_background]
      exact .pipe k hd1

theorem parsepipe_sound (hexec : Sound S .exec (parseexec n))
    (hpipe : Sound S .pipe (parsepipe n)) :
    Sound S .pipe (parsepipe (n + 1)) := by
  intro s r hs h
  rw [parsepipe_succ] at h
  obtain ⟨⟨c1, s1⟩, h1, h⟩ := except_bind_eq_ok.1 h
  obtain ⟨ts1, hlex1, hs1, hw1, hd1⟩ := hexec s _ hs h1
  dsimp only at h hlex1 hs1
  split_ifs at h with hpeek
  · obtain ⟨hlex3, hs3⟩ := rest_of_peek .bar rfl (by decide) hpeek
    obtain ⟨⟨c4, s4⟩, h4, h⟩ := except_bind_eq_ok.1 h
    obtain ⟨ts4, hlex4, hs4, hw4, hd4⟩ := hpipe _ _ (hs3.trans hs1) h4
    obtain rfl := Except.ok.inj h
    refine ⟨ts1 ++ .bar :: ts4, ?_, hs4, wordsOf_append hw1 hw4, .bar hd1 hd4⟩
    rw [hlex1, hlex3, hlex4]
    simp
  · obtain rfl := Except.ok.inj h
    exact ⟨ts1, by rw [lex_peek, hlex1], (peek_suffix s1 [bar]).trans hs1, hw1, .exec hd1⟩

theorem parseexec_sound (hblock : Sound S .exec (parseblock n)) :
    Sound S .exec (parseexec (n + 1)) := by
  intro s r hs h
  have hs' := (peek_suffix s [lparen]).trans hs
  rw [parseexec_succ] at h
  split_ifs at h with hpeek
  · obtain ⟨ts, hlex, hrest⟩ := hblock _ r hs' h
    exact ⟨ts, by rw [← hlex, lex_peek], hrest⟩
  · obtain ⟨⟨c1, s1⟩, h1, h⟩ := except_bind_eq_ok.1 h
    obtain ⟨ts1, rs1, hlex1, hs1, hw1, hr1, rfl⟩ := parseredirs_sound h1 hs' nofun
    rw [lex_peek] at hlex1
    obtain ⟨ts2, ws, rs2, hlex2, hs2, hw2, ha2, hmax, hc⟩ :=
      @parseargs_sound _ _ _ _ [] rs1 h hs1 (by decide) hw1
    rw [nil_append] at hmax hc
    refine ⟨ts1 ++ ts2, ?_, hs2, hw2, ?_⟩
    · rw [hlex1, hlex2, append_assoc]
    · rw [hc, map_redirect, map_append]
      exact .simple hr1 ha2 (by rwa [length_map])

theorem parseblock_sound (hline : Sound S .line (parseline n)) :
    Sound S .exec (parseblock (n + 1)) := by
  intro s r hs h
  rw [parseblock_succ] at h
  by_cases hopen : (peek s [lparen]).1 = true
  · obtain ⟨hlex0, hs0⟩ := rest_of_peek .lparen rfl (by decide) hopen
    rw [hopen, Bool.not_true, if_neg nofun] at h
    obtain ⟨⟨c1, s1⟩, h1, h⟩ := except_bind_eq_ok.1 h
    obtain ⟨ts1, hlex1, hs1, hw1, hd1⟩ := hline _ _ (hs0.trans hs) h1
    dsimp only at h hlex1 hs1
    by_cases hclose : (peek s1 [rparen]).1 = true
    · obtain ⟨hlex2, hs2⟩ := rest_of_peek .rparen rfl (by decide) hclose
      rw [hclose, Bool.not_true, if_neg nofun] at h
      obtain ⟨ts3, rs, hlex3, hs3, hw3, hr3, hc⟩ :=
        @parseredirs_sound _ _ _ r.1 _ h (hs2.trans hs1) hw1
      refine ⟨.lparen :: (ts1 ++ .rparen :: ts3), ?_, hs3, hw3, ?_⟩
      · rw [hlex0, hlex1, hlex2, hlex3]
        simp
      · rw [hc, map_redirect]
        exact .block hd1 hr3
    · rw [Bool.not_eq_true] at hclose
      rw [hclose] at h
      exact nomatch h
  · rw [Bool.not_eq_true] at hopen
    rw [hopen] at h
    exact nomatch h

/-- **Soundness**: what the parser returns has been derived. -/
theorem parse_sound (S : Text) (n : ℕ) : Sound S .line (parseline n) ∧
    Sound S .pipe (parsepipe n) ∧ Sound S .exec (parseexec n) ∧ Sound S .exec (parseblock n) := by
  induction n with
  | zero =>
    refine ⟨?_, ?_, ?_, ?_⟩ <;> intro s r _ h
    · rw [parseline] at h
      exact nomatch h
    · rw [parsepipe] at h
      exact nomatch h
    · rw [parseexec] at h
      exact nomatch h
    · rw [parseblock] at h
      exact nomatch h
  | succ n ih =>
    obtain ⟨hline, hpipe, hexec, hblock⟩ := ih
    exact ⟨parseline_sound hpipe hline, parsepipe_sound hexec hpipe, parseexec_sound hblock,
      parseblock_sound hline⟩

end Sound

/-! ### Completeness -/

/-- The tokens that can follow what derives from a nonterminal. -/
def Nonterminal.follow : Nonterminal → List Tok
  | .line => [.rparen]
  | .pipe => [.rparen, .amp, .semi]
  | .exec => [.rparen, .amp, .semi, .bar]

/-- What comes next can follow. -/
def Follows (nt : Nonterminal) (rest : List Tok) : Prop := ∀ t ts, rest = t :: ts → t ∈ nt.follow

/-- The function for a nonterminal. -/
def Nonterminal.parser : Nonterminal → ℕ → Text → Except Failure (Cmd Ptr × Text)
  | .line => parseline
  | .pipe => parsepipe
  | .exec => parseexec

/-- The depth of the recursion for a nonterminal before the first token. -/
def Nonterminal.depth : Nonterminal → ℕ
  | .line => 4
  | .pipe => 3
  | .exec => 2

theorem Follows.mono {nt nt' : Nonterminal} {rest : List Tok} (h : Follows nt rest)
    (hsub : ∀ t ∈ nt.follow, t ∈ nt'.follow) : Follows nt' rest :=
  fun t ts heq ↦ hsub t (h t ts heq)

theorem follows_cons {nt : Nonterminal} {t : Tok} {ts : List Tok} (h : t ∈ nt.follow) :
    Follows nt (t :: ts) := by
  intro t' ts' heq
  rwa [← (List.cons.inj heq).1]

theorem Follows.stops {rest : List Tok} (h : Follows .exec rest) : Stops rest := by
  intro t ts heq
  have hmem := h t ts heq
  simp only [Nonterminal.follow, mem_cons, not_mem_nil, or_false] at hmem
  tauto

/-- A symbol that cannot follow is not there. -/
theorem not_peek_of_follows {nt : Nonterminal} {tok : Tok} {b : Byte} (h : Follows nt (lex s))
    (hb : tok.first = some b) (hgt : b ≠ greater) (htok : tok ∉ nt.follow) :
    ¬(peek s [b]).1 = true := by
  intro hpeek
  obtain ⟨ts, hlex⟩ := (peek_iff hb hgt).1 hpeek
  exact htok (h tok ts hlex)

theorem replicate_append_inj {α : Type*} {x : α} {l l' : List α} (hl : ∀ t, l ≠ x :: t)
    (hl' : ∀ t, l' ≠ x :: t) {a b : ℕ} (h : List.replicate a x ++ l = List.replicate b x ++ l') :
    a = b ∧ l = l' := by
  induction a generalizing b with
  | zero =>
    cases b with
    | zero => exact ⟨rfl, h⟩
    | succ b => exact absurd h (hl _)
  | succ a ih =>
    cases b with
    | zero => exact absurd h.symm (hl' _)
    | succ b =>
      obtain ⟨rfl, rfl⟩ := ih (List.cons.inj h).2
      exact ⟨rfl, rfl⟩

/-- `parseback` on `n` times `&`. -/
theorem parseback_complete {n : ℕ} {rest : List Tok} (hlex : lex s = List.replicate n .amp ++ rest)
    (hrest : ∀ ts, rest ≠ .amp :: ts) (cmd : Cmd Ptr) :
    ∃ s', parseback cmd s = (background n cmd, s') ∧ lex s' = rest := by
  obtain ⟨k, s', heq, hlex', -, hno⟩ := parseback_eq cmd s
  obtain ⟨rfl, hs'⟩ := replicate_append_inj hno hrest (hlex'.symm.trans hlex)
  exact ⟨s', heq, hs'⟩

theorem follows_replicate {n : ℕ} {rest : List Tok} (h : Follows .pipe rest) :
    Follows .pipe (List.replicate n .amp ++ rest) := by
  cases n with
  | zero => exact h
  | succ n => exact follows_cons (by decide)

/-- A command without parentheses does not begin with one. -/
theorem not_lparen {ts ts' rest : List Tok} {rs rs' : List (Redir Text)} {ws : List Text}
    (hr : Redirs ts rs) (ha : Args ts' ws rs') (hrest : Follows .exec rest) (l : List Tok) :
    ts ++ ts' ++ rest ≠ .lparen :: l := by
  intro heq
  cases hr with
  | cons hop _ =>
    rw [(List.cons.inj heq).1] at hop
    exact nomatch hop
  | nil =>
    cases ha with
    | cons _ _ => exact nomatch (List.cons.inj heq).1
    | nil => exact absurd (hrest _ _ heq) (by decide)

/-- What derives from `nt` with the tokens `ts` and the tree `t` is returned, if a token follows
that can follow it and the depth is enough. -/
def Complete (nt : Nonterminal) (ts : List Tok) (t : Cmd Text) : Prop :=
  ∀ s rest n, lex s = ts ++ rest → Follows nt rest → 4 * ts.length + nt.depth ≤ n →
    ∃ c s', nt.parser n s = .ok (c, s') ∧ lex s' = rest ∧ c.map Ptr.text = t

/-- The text behind a symbol that comes next. -/
theorem peek_of_cons {tok : Tok} {b : Byte} {ts : List Tok} (hlex : lex s = tok :: ts)
    (h : tok.first = some b) (hb : b ≠ greater) :
    (peek s [b]).1 = true ∧ lex (gettoken (peek s [b]).2).rest = ts := by
  obtain ⟨-, hrest, -, -⟩ := gettoken_of_lex ((lex_peek s [b]).trans hlex)
  exact ⟨(peek_iff h hb).2 ⟨ts, hlex⟩, hrest⟩

section Complete

variable {ts ts' : List Tok} {t t' : Cmd Text} {rs rs' : List (Redir Text)} {ws : List Text}

theorem complete_block (hline : Complete .line ts t) (hredirs : Redirs ts' rs) :
    Complete .exec (.lparen :: (ts ++ .rparen :: ts')) (redirect t rs) := by
  intro s rest n hlex hrest hn
  rw [length_cons, length_append, length_cons, Nonterminal.depth] at hn
  obtain ⟨k, rfl⟩ : ∃ k, n = k + 1 + 1 := ⟨n - 2, by omega⟩
  rw [cons_append, append_assoc, cons_append] at hlex
  obtain ⟨hopen, -⟩ := peek_of_cons hlex rfl (by decide)
  obtain ⟨hopen', hlex1⟩ := peek_of_cons ((lex_peek s [lparen]).trans hlex) rfl (by decide)
  obtain ⟨c, s1, h1, hs1, hc⟩ := hline _ _ k hlex1 (follows_cons (by decide)) (by
    rw [Nonterminal.depth]
    omega)
  obtain ⟨hclose, hlex2⟩ := peek_of_cons hs1 rfl (by decide)
  obtain ⟨rs', s', h2, hs', hrs⟩ := parseredirs_complete hredirs hlex2 hrest.stops.noRedir c
  refine ⟨redirect c rs', s', ?_, hs', by rw [map_redirect, hc, hrs]⟩
  simp only [Nonterminal.parser] at h1 ⊢
  rw [parseexec_succ, if_pos hopen, parseblock_succ, hopen', Bool.not_true, if_neg nofun, h1,
    except_ok_bind, hclose, Bool.not_true, if_neg nofun, h2]

theorem complete_simple (hredirs : Redirs ts rs) (hargs : Args ts' ws rs')
    (hmax : ws.length ≤ maxargs - 1) :
    Complete .exec (ts ++ ts') (redirect (.exec ws) (rs ++ rs')) := by
  intro s rest n hlex hrest hn
  rw [Nonterminal.depth] at hn
  obtain ⟨k, rfl⟩ : ∃ k, n = k + 1 := ⟨n - 1, by omega⟩
  have hpeek : ¬(peek s [lparen]).1 = true := by
    intro hpeek
    obtain ⟨l, hl⟩ := (@peek_iff s .lparen lparen rfl (by decide)).1 hpeek
    exact not_lparen hredirs hargs hrest l (hlex.symm.trans hl)
  have hlex0 := (lex_peek s [lparen]).trans hlex
  rw [append_assoc] at hlex0
  obtain ⟨rs1, s1, h1, hs1, hrs1⟩ := parseredirs_complete hredirs hlex0
    (hargs.noRedir hrest.stops.noRedir) (.exec [])
  obtain ⟨ws2, rs2, s2, h2, hs2, hws2, hrs2⟩ := @parseargs_complete _ _ _ _ _ hargs hs1
    hrest.stops [] rs1 (by rwa [length_nil, Nat.zero_add])
  refine ⟨redirect (.exec ws2) (rs1 ++ rs2), s2, ?_, hs2, ?_⟩
  · rw [Nonterminal.parser, parseexec_succ, if_neg hpeek, h1, except_ok_bind]
    exact h2
  · rw [map_redirect, map_append, hrs1, hrs2, Cmd.map, hws2]

theorem complete_exec (hexec : Complete .exec ts t) : Complete .pipe ts t := by
  intro s rest n hlex hrest hn
  rw [Nonterminal.depth] at hn
  obtain ⟨k, rfl⟩ : ∃ k, n = k + 1 := ⟨n - 1, by omega⟩
  obtain ⟨c, s1, h1, hs1, hc⟩ := hexec s rest k hlex (hrest.mono (by decide)) (by
    rw [Nonterminal.depth]
    omega)
  refine ⟨c, (peek s1 [bar]).2, ?_, (lex_peek s1 _).trans hs1, hc⟩
  rw [← hs1] at hrest
  simp only [Nonterminal.parser] at h1 ⊢
  rw [parsepipe_succ, h1, except_ok_bind,
    if_neg (@not_peek_of_follows _ _ .bar _ hrest rfl (by decide) (by decide))]

theorem complete_bar (hexec : Complete .exec ts t) (hpipe : Complete .pipe ts' t') :
    Complete .pipe (ts ++ .bar :: ts') (.pipe t t') := by
  intro s rest n hlex hrest hn
  rw [length_append, length_cons, Nonterminal.depth] at hn
  obtain ⟨k, rfl⟩ : ∃ k, n = k + 1 := ⟨n - 1, by omega⟩
  rw [append_assoc, cons_append] at hlex
  obtain ⟨c, s1, h1, hs1, hc⟩ := hexec s _ k hlex (follows_cons (by decide)) (by
    rw [Nonterminal.depth]
    omega)
  obtain ⟨hbar, hlex2⟩ := peek_of_cons hs1 rfl (by decide)
  obtain ⟨c', s2, h2, hs2, hc'⟩ := hpipe _ rest k hlex2 hrest (by
    rw [Nonterminal.depth]
    omega)
  refine ⟨.pipe c c', s2, ?_, hs2, by rw [Cmd.map, hc, hc']⟩
  simp only [Nonterminal.parser] at h1 h2 ⊢
  rw [parsepipe_succ, h1, except_ok_bind, if_pos hbar, h2, except_ok_bind]

theorem complete_pipe (j : ℕ) (hpipe : Complete .pipe ts t) :
    Complete .line (ts ++ List.replicate j .amp) (background j t) := by
  intro s rest n hlex hrest hn
  rw [length_append, Nonterminal.depth] at hn
  obtain ⟨k, rfl⟩ : ∃ k, n = k + 1 := ⟨n - 1, by omega⟩
  rw [append_assoc] at hlex
  obtain ⟨c, s1, h1, hs1, hc⟩ := hpipe s _ k hlex
    (follows_replicate (hrest.mono (by decide))) (by
      rw [Nonterminal.depth]
      omega)
  obtain ⟨s2, h2, hs2⟩ := parseback_complete hs1
    (fun l heq ↦ absurd (hrest _ _ heq) (by decide)) c
  refine ⟨background j c, (peek s2 [semi]).2, ?_, (lex_peek s2 _).trans hs2, ?_⟩
  · rw [← hs2] at hrest
    simp only [Nonterminal.parser] at h1 ⊢
    rw [parseline_succ, h1, except_ok_bind, h2,
      if_neg (@not_peek_of_follows _ _ .semi _ hrest rfl (by decide) (by decide))]
  · rw [map_background, hc]

theorem complete_semi (j : ℕ) (hpipe : Complete .pipe ts t) (hline : Complete .line ts' t') :
    Complete .line (ts ++ (List.replicate j .amp ++ .semi :: ts')) (.list (background j t) t') := by
  intro s rest n hlex hrest hn
  rw [length_append, length_append, length_cons, Nonterminal.depth] at hn
  obtain ⟨k, rfl⟩ : ∃ k, n = k + 1 := ⟨n - 1, by omega⟩
  rw [append_assoc, append_assoc, cons_append] at hlex
  obtain ⟨c, s1, h1, hs1, hc⟩ := hpipe s _ k hlex
    (follows_replicate (follows_cons (by decide))) (by
      rw [Nonterminal.depth]
      omega)
  obtain ⟨s2, h2, hs2⟩ := parseback_complete hs1 (fun l heq ↦ nomatch (List.cons.inj heq).1) c
  obtain ⟨hsemi, hlex3⟩ := peek_of_cons hs2 rfl (by decide)
  obtain ⟨c', s3, h3, hs3, hc'⟩ := hline _ rest k hlex3 hrest (by
    rw [Nonterminal.depth]
    omega)
  refine ⟨.list (background j c) c', s3, ?_, hs3, by rw [Cmd.map, map_background, hc, hc']⟩
  simp only [Nonterminal.parser] at h1 h3 ⊢
  rw [parseline_succ, h1, except_ok_bind, h2, if_pos hsemi, h3, except_ok_bind]

/-- **Completeness**: what can be derived is returned. -/
theorem parse_complete {nt : Nonterminal} (h : Derives nt ts t) : Complete nt ts t := by
  induction h with
  | block _ hredirs ih => exact complete_block ih hredirs
  | simple hredirs hargs hmax => exact complete_simple hredirs hargs hmax
  | exec _ ih => exact complete_exec ih
  | bar _ _ ih ih' => exact complete_bar ih ih'
  | pipe j _ ih => exact complete_pipe j ih
  | semi j _ _ ih ih' => exact complete_semi j ih ih'

end Complete

/-! ### Depth -/

/-- The parser does not run out of depth on texts of at most `k` tokens. -/
def Enough (f : Text → Except Failure (Cmd Ptr × Text)) (k : ℕ) : Prop :=
  ∀ s, (lex s).length ≤ k → f s ≠ .error .outOfFuel

/-- What is behind a symbol has fewer tokens. -/
theorem length_rest_of_peek (tok : Tok) {b : Byte} (h : tok.first = some b) (hb : b ≠ greater)
    (hpeek : (peek s [b]).1 = true) :
    (lex (gettoken (peek s [b]).2).rest).length < (lex s).length := by
  rw [(rest_of_peek tok h hb hpeek).1, length_cons]
  exact Nat.lt_succ_self _

theorem Derived.length_le {nt : Nonterminal} {r : Cmd Ptr × Text} (h : Derived S nt s r) :
    (lex r.2).length ≤ (lex s).length := by
  obtain ⟨ts, hlex, -⟩ := h
  rw [hlex, length_append]
  exact Nat.le_add_left _ _

/-- **Termination**: four calls for each token are enough. -/
theorem parse_enough (n : ℕ) : ∀ k, (4 * k + 4 ≤ n → Enough (parseline n) k) ∧
    (4 * k + 3 ≤ n → Enough (parsepipe n) k) ∧ (4 * k + 2 ≤ n → Enough (parseexec n) k) ∧
    (4 * k + 1 ≤ n → Enough (parseblock n) k) := by
  induction n with
  | zero => exact fun k ↦ ⟨by omega, by omega, by omega, by omega⟩
  | succ n ih =>
    intro k
    refine ⟨fun hk s hs ↦ ?_, fun hk s hs ↦ ?_, fun hk s hs ↦ ?_, fun hk s hs ↦ ?_⟩
    · rw [parseline_succ]
      refine except_bind_ne_error ((ih k).2.1 (by omega) s hs) fun r hr ↦ ?_
      have hle := ((parse_sound s n).2.1 s r (suffix_refl s) hr).length_le
      obtain ⟨j, s2, hback, hlex, -, -⟩ := parseback_eq r.1 r.2
      have hlen := congrArg List.length hlex
      rw [length_append] at hlen
      rw [hback]
      dsimp only
      split_ifs with hpeek
      · have hlt := length_rest_of_peek .semi rfl (by decide) hpeek
        exact except_bind_ne_error ((ih (k - 1)).1 (by omega) _ (by omega)) fun _ _ ↦ nofun
      · exact nofun
    · rw [parsepipe_succ]
      refine except_bind_ne_error ((ih k).2.2.1 (by omega) s hs) fun r hr ↦ ?_
      have hle := ((parse_sound s n).2.2.1 s r (suffix_refl s) hr).length_le
      split_ifs with hpeek
      · have hlt := length_rest_of_peek .bar rfl (by decide) hpeek
        exact except_bind_ne_error ((ih (k - 1)).2.1 (by omega) _ (by omega)) fun _ _ ↦ nofun
      · exact nofun
    · rw [parseexec_succ]
      split_ifs with hpeek
      · exact (ih k).2.2.2 (by omega) _ (by rwa [lex_peek])
      · exact except_bind_ne_error (parseredirs_ne_outOfFuel _ _) fun r _ ↦
          parseargs_ne_outOfFuel _ _ _
    · rw [parseblock_succ]
      by_cases hopen : (peek s [lparen]).1 = true
      · have hlt := length_rest_of_peek .lparen rfl (by decide) hopen
        rw [hopen, Bool.not_true, if_neg nofun]
        refine except_bind_ne_error ((ih (k - 1)).1 (by omega) _ (by omega)) fun r _ ↦ ?_
        split_ifs
        · exact nofun
        · exact parseredirs_ne_outOfFuel _ _
      · rw [Bool.not_eq_true] at hopen
        rw [hopen, Bool.not_false, if_pos rfl]
        exact nofun

/-! ### Strings -/

theorem getElem?_setNul (buf : List Byte) (i j : ℕ) :
    (setNul buf j)[i]? = if i = j then buf[i]?.map fun _ ↦ 0 else buf[i]? := by
  rw [setNul, List.getElem?_set]
  split_ifs with h h' h' <;> simp_all

/-- `nulterminate` overwrites the bytes behind the strings, and no others. -/
theorem getElem?_nulterminate (n i : ℕ) (c : Cmd Ptr) (buf : List Byte) :
    (nulterminate n c buf)[i]? =
      if ∃ p ∈ c.strings, i = n - p.eq.length then buf[i]?.map fun _ ↦ 0 else buf[i]? := by
  have hor : ∀ {P Q : Prop} [Decidable P] [Decidable Q] (b : Option Byte),
      (if P then (if Q then b.map fun _ ↦ (0 : Byte) else b).map fun _ ↦ 0
        else if Q then b.map fun _ ↦ 0 else b) = if P ∨ Q then b.map fun _ ↦ 0 else b := by
    intro P Q _ _ b
    by_cases P <;> by_cases Q <;> cases b <;> simp_all
  induction c generalizing buf with
  | exec argv =>
    induction argv generalizing buf with
    | nil => rfl
    | cons p argv ih =>
      refine (ih _).trans ?_
      rw [getElem?_setNul, hor]
      simp only [Cmd.strings, mem_cons, exists_eq_or_imp, or_comm]
  | redir cmd file mode fd ih =>
    rw [nulterminate, getElem?_setNul, ih, hor]
    simp only [Cmd.strings, mem_cons, exists_eq_or_imp]
  | pipe left right ihl ihr | list left right ihl ihr =>
    rw [nulterminate, ihr, ihl, hor]
    simp only [Cmd.strings, mem_append, or_and_right, exists_or, or_comm]
  | back cmd ih => exact ih buf

/-- Where a word ends: a byte that is in no word, or the end of the text. -/
theorem Ptr.WordOf.stop_at {p : Ptr} (h : p.WordOf S) {b : Byte}
    (hb : S[S.length - p.eq.length]? = some b) : wordByte b = false := by
  obtain ⟨pre, hpre⟩ := h.suffix
  have hS : S = (pre ++ p.text) ++ p.eq := by rw [append_assoc, ← h.split, hpre]
  have hlen : S.length - p.eq.length = (pre ++ p.text).length := by
    conv_lhs => rw [hS, length_append]
    exact Nat.add_sub_cancel _ _
  rw [hlen, hS, List.getElem?_append_right (Nat.le_refl _), Nat.sub_self] at hb
  exact h.stop b (by rw [List.head?_eq_getElem?, hb])

/-- The bytes between the pointers. -/
theorem Ptr.WordOf.wordByte_at {p : Ptr} (h : p.WordOf S) {i : ℕ} (hi : S.length - p.q.length ≤ i)
    (hi' : i < S.length - p.eq.length) : ∃ b, S[i]? = some b ∧ wordByte b = true := by
  obtain ⟨pre, hpre⟩ := h.suffix
  have hS : S = pre ++ (p.text ++ p.eq) := by rw [← h.split, hpre]
  have hlenq : p.q.length = p.text.length + p.eq.length := by
    conv_lhs => rw [h.split, length_append]
  have hlenS : S.length = pre.length + p.q.length := by rw [← hpre, length_append]
  have hlt : i - pre.length < p.text.length := by omega
  refine ⟨p.text[i - pre.length], ?_, h.word _ (getElem_mem hlt)⟩
  rw [hS, List.getElem?_append_right (by omega), List.getElem?_append_left hlt,
    List.getElem?_eq_getElem hlt]

/-- What is before the first `NUL`. -/
theorem takeWhile_eq_of_getElem? {w l : Text} (h0 : (0 : Byte) ∉ w)
    (hw : ∀ i < w.length, l[i]? = w[i]?) (hend : l[w.length]? = some 0) :
    l.takeWhile (· ≠ 0) = w := by
  induction w generalizing l with
  | nil =>
    have hhead : l.head? = some 0 := List.head?_eq_getElem?.trans hend
    obtain ⟨l', rfl⟩ := List.head?_eq_some_iff.1 hhead
    rfl
  | cons b w ih =>
    have hhead : l.head? = some b := List.head?_eq_getElem?.trans (hw 0 (Nat.succ_pos _))
    obtain ⟨l', rfl⟩ := List.head?_eq_some_iff.1 hhead
    rw [mem_cons, not_or] at h0
    have hb : decide (b ≠ 0) = true := decide_eq_true (Ne.symm h0.1)
    rw [takeWhile_cons, hb, if_pos rfl,
      ih h0.2 (fun i hi ↦ hw (i + 1) (Nat.succ_lt_succ hi)) hend]

/-- The string at the pointer to a word is the word: its bytes are not overwritten, and the byte
behind it is. -/
theorem cstring_nulterminate (h0 : (0 : Byte) ∉ S) (hc : c.WordsOf S) {p : Ptr}
    (hp : p ∈ c.strings) :
    cstring S.length (nulterminate S.length c (S ++ [0])) p = p.text := by
  have hw := hc p hp
  obtain ⟨pre, hpre⟩ := hw.suffix
  have hS : S = pre ++ (p.text ++ p.eq) := by rw [← hw.split, hpre]
  have hlenq : p.q.length = p.text.length + p.eq.length := by rw [hw.split, length_append]
  have hlenS : S.length = pre.length + p.q.length := by rw [← hpre, length_append]
  have hstart : S.length - p.q.length = pre.length := by omega
  have hbyte (i : ℕ) (hi : i < p.text.length) : S[pre.length + i]? = p.text[i]? := by
    rw [hS, List.getElem?_append_right (Nat.le_add_right _ _), Nat.add_sub_cancel_left,
      List.getElem?_append_left hi]
  rw [cstring, Xv6.cstring, hstart]
  refine takeWhile_eq_of_getElem? (fun hmem ↦ h0 ?_) (fun i hi ↦ ?_) ?_
  · rw [hS]
    exact mem_append_right _ (mem_append_left _ hmem)
  · -- a byte of a word is not the byte behind another
    have hne : ¬∃ q ∈ c.strings, pre.length + i = S.length - q.eq.length := by
      rintro ⟨q, hq, heq⟩
      have hat : S[S.length - q.eq.length]? = some p.text[i] := by
        rw [← heq, hbyte i hi, List.getElem?_eq_getElem hi]
      have hstop := (hc q hq).stop_at hat
      rw [hw.word _ (getElem_mem hi)] at hstop
      exact nomatch hstop
    rw [List.getElem?_drop, getElem?_nulterminate, if_neg hne,
      List.getElem?_append_left (by omega), hbyte i hi]
  · have hend : pre.length + p.text.length = S.length - p.eq.length := by omega
    rw [List.getElem?_drop, getElem?_nulterminate, if_pos ⟨p, hp, hend⟩, hend,
      List.getElem?_eq_getElem (by rw [length_append, length_singleton]; omega),
      map_some]

/-! ### The whole text -/

/-- A text has no token exactly if it is whitespace. -/
theorem skip_eq_nil_iff : skip s = [] ↔ lex s = [] := by
  refine ⟨fun h ↦ by rw [← lex_skip, h, lex_nil], fun h ↦ ?_⟩
  cases begins s with
  | atEnd hskip => exact hskip
  | symbol _ _ _ hlex | append _ hlex | word _ _ hlex => exact nomatch h.symm.trans hlex

/-- What `parsecmd` does with what `parseline` returns. -/
theorem parsecmd_of_ok (h0 : (0 : Byte) ∉ S) {r : Cmd Ptr × Text}
    (h : parseline (depth S) S = .ok r) :
    parsecmd S = if lex r.2 = [] then .ok (r.1.map Ptr.text) else .error .leftovers := by
  obtain ⟨-, -, -, hwords, -⟩ := (parse_sound S (depth S)).1 S r (suffix_refl S) h
  have hmap : r.1.map (cstring S.length (nulterminate S.length r.1 (S ++ [0]))) =
      r.1.map Ptr.text := Cmd.map_congr fun p hp ↦ cstring_nulterminate h0 hwords hp
  have hrest : (peek r.2 []).2 = [] ↔ lex r.2 = [] := skip_eq_nil_iff
  rw [parsecmd, h, except_ok_bind]
  dsimp only
  rw [hmap]
  by_cases hlex : lex r.2 = []
  · rw [if_neg (not_not_intro (hrest.2 hlex)), if_pos hlex]
  · rw [if_pos fun heq ↦ hlex (hrest.1 heq), if_neg hlex]

/-- What `parsecmd` has built when it returns. -/
theorem parsecmd_eq_ok (h0 : (0 : Byte) ∉ S) {t : Cmd Text} (h : parsecmd S = .ok t) :
    ∃ cmd rest, parseline (depth S) S = .ok (cmd, rest) ∧ t = cmd.map Ptr.text ∧ cmd.WordsOf S ∧
      Derives .line (lex S) (cmd.map Ptr.text) := by
  cases hline : parseline (depth S) S with
  | error e =>
    rw [parsecmd, hline] at h
    exact nomatch h
  | ok r =>
    obtain ⟨ts, hlex, -, hwords, hderives⟩ :=
      (parse_sound S (depth S)).1 S r (suffix_refl S) hline
    rw [parsecmd_of_ok h0 hline] at h
    split_ifs at h with hrest
    rw [hrest, append_nil] at hlex
    exact ⟨r.1, r.2, rfl, (Except.ok.inj h).symm, hwords, hlex ▸ hderives⟩

/-- A string that derives from `line` is parsed, to the tree of the derivation. -/
theorem parsecmd_of_derives (h0 : (0 : Byte) ∉ S) {t : Cmd Text} (h : Derives .line (lex S) t) :
    parsecmd S = .ok t := by
  have hdepth : 4 * (lex S).length + 4 ≤ depth S := by
    have hle := length_lex_le S
    rw [depth]
    omega
  obtain ⟨c, s', hc, hrest, hmap⟩ := parse_complete h S [] (depth S)
    (append_nil _).symm (fun _ _ heq ↦ nomatch heq) hdepth
  rw [parsecmd_of_ok h0 hc, if_pos hrest, hmap]

/-- **The parser accepts its grammar.** On every string `parsecmd` returns or calls `panic`; it
returns a command exactly if the string derives from `line`, and then the command is the tree of the
derivation, of which there is only one. -/
theorem parsecmd_correct (s : Text) (h0 : (0 : Byte) ∉ s) :
    parsecmd s ≠ .error .outOfFuel ∧
    (∀ c, parsecmd s = .ok c ↔ Derives .line (lex s) c) ∧
    ∀ c c', Derives .line (lex s) c → Derives .line (lex s) c' → c = c' := by
  refine ⟨?_, fun c ↦ ⟨fun h ↦ ?_, parsecmd_of_derives h0⟩, fun c c' hc hc' ↦ ?_⟩
  · have hdepth : 4 * (lex s).length + 4 ≤ depth s := by
      have hle := length_lex_le s
      rw [depth]
      omega
    have henough := (parse_enough (depth s) (lex s).length).1 hdepth s (Nat.le_refl _)
    cases hline : parseline (depth s) s with
    | error e =>
      rw [parsecmd, hline]
      intro heq
      exact henough (hline.trans (congrArg _ (Except.error.inj heq)))
    | ok r =>
      rw [parsecmd_of_ok h0 hline]
      split_ifs <;> exact nofun
  · obtain ⟨cmd, rest, -, rfl, -, hderives⟩ := parsecmd_eq_ok h0 h
    exact hderives
  · exact Except.ok.inj ((parsecmd_of_derives h0 hc).symm.trans (parsecmd_of_derives h0 hc'))

/-- The line `a<b;c&`. -/
theorem parsecmd_correct_sample : (0 : Byte) ∉ [97, 60, 98, 59, 99, 38] ∧
    Derives .line (lex [97, 60, 98, 59, 99, 38])
      (.list (.redir (.exec [[97]]) [98] oRdonly 0) (.back (.exec [[99]]))) :=
  ⟨by decide, ((parsecmd_correct _ (by decide)).2.1 _).1 (by decide +kernel)⟩

/-- **The strings of a command are its words.** In the tree that `parsecmd` has built, every pair of
pointers is around a word of the text, and the tree of these words derives from the tokens. When the
strings are terminated no `NUL` is written into a word, so that each string is the word that was
read for it. -/
theorem strings_eq_words (s : Text) (h0 : (0 : Byte) ∉ s) (t : Cmd Text) (h : parsecmd s = .ok t) :
    ∃ cmd rest, parseline (depth s) s = .ok (cmd, rest) ∧ t = cmd.map Ptr.text ∧
      Derives .line (lex s) (cmd.map Ptr.text) ∧
      (∀ p ∈ cmd.strings, p.WordOf s ∧
        cstring s.length (nulterminate s.length cmd (s ++ [0])) p = p.text) ∧
      ∀ p ∈ cmd.strings, ∀ q ∈ cmd.strings,
        s.length - q.eq.length < s.length - p.q.length ∨
          s.length - p.eq.length ≤ s.length - q.eq.length := by
  obtain ⟨cmd, rest, hline, ht, hwords, hderives⟩ := parsecmd_eq_ok h0 h
  refine ⟨cmd, rest, hline, ht, hderives,
    fun p hp ↦ ⟨hwords p hp, cstring_nulterminate h0 hwords hp⟩, fun p hp q hq ↦ ?_⟩
  by_contra hinside
  rw [not_or, Nat.not_lt, Nat.not_le] at hinside
  obtain ⟨b, hb, hword⟩ := (hwords p hp).wordByte_at hinside.1 hinside.2
  rw [(hwords q hq).stop_at hb] at hword
  exact nomatch hword

/-- The line `(a|b)>c`. -/
theorem strings_eq_words_sample : ∃ cmd rest,
    parseline (depth [40, 97, 124, 98, 41, 62, 99]) [40, 97, 124, 98, 41, 62, 99] =
      .ok (cmd, rest) ∧
    cmd.map (cstring 7 (nulterminate 7 cmd [40, 97, 124, 98, 41, 62, 99, 0])) =
      .redir (.pipe (.exec [[97]]) (.exec [[98]])) [99] (oWronly ||| oCreate ||| oTrunc) 1 := by
  have hline : parsecmd [40, 97, 124, 98, 41, 62, 99] =
      .ok (.redir (.pipe (.exec [[97]]) (.exec [[98]])) [99]
        (oWronly ||| oCreate ||| oTrunc) 1) := by
    decide +kernel
  obtain ⟨cmd, rest, hparse, ht, -, hstrings, -⟩ := strings_eq_words _ (by decide) _ hline
  refine ⟨cmd, rest, hparse, ?_⟩
  rw [ht]
  exact Cmd.map_congr fun p hp ↦ (hstrings p hp).2

end Xv6.Shell

import Xv6.Console.Refines

/-!
# What a read takes from the console

A call of `consoleread` takes bytes from the committed input: those that it delivers, and a
control-D that ends it. `taken` shows each byte that is taken in a run, and by whom. In every run
the bytes are taken in the order in which they are committed, and what is not taken stays.

A call takes as many bytes as it returns, and a control-D besides if it ends with one, but for a
byte whose `copyout` fails: it is taken too, and nobody gets it (`lost`). So the account is right
exactly for the calls that lose nothing (`consoleread_balanced`). A turn may find that `copyout`
would fail and yet copy nothing, as there is nothing to take or a control-D: no harm is done then.
-/

namespace Xv6

open Function List Option

variable {N : ℕ}

namespace LineDiscipline

variable {d d' : LineDiscipline N} {p q : Fin N} {x : Reading} {ok : Bool} {r₀ : Reader}
  {l : List (BitVec 8)}

/-! ### Turns -/

/-- What a turn of a call does: how the queue and the reader change. -/
inductive Turn (d : LineDiscipline N) (p : Fin N) (ok : Bool) (x : Reading)
    (d' : LineDiscipline N) : Prop
  /-- There is nothing to take. -/
  | waits (hqueue : d'.queue = d.queue) (hproc : d'.proc = d.proc)
  | killed (hkilled : (d.proc p).killed = true) (hqueue : d'.queue = d.queue)
    (hproc : d'.proc = update d.proc p { d.proc p with
      reading := none, returned := (d.proc p).returned ++ [-1] })
  /-- The call has all it wants, or leaves a control-D for the next one. -/
  | returns (hqueue : d'.queue = d.queue)
    (hproc : d'.proc = update d.proc p { d.proc p with
      reading := none, returned := (d.proc p).returned ++ [x.got] })
  /-- A control-D for a call that has nothing. -/
  | endOfFile (hqueue : d.queue = ctrlD :: d'.queue) (hgot : x.got = 0)
    (hproc : d'.proc = update d.proc p { d.proc p with
      reading := none, returned := (d.proc p).returned ++ [x.got] })
  | gets (hok : ok = true) (ch : BitVec 8) (hch : ch ≠ ctrlD) (hqueue : d.queue = ch :: d'.queue)
    (hproc : d'.proc = update d.proc p { d.proc p with
      reading := some ⟨x.left - 1, x.got + 1⟩, received := (d.proc p).received ++ [ch] })
  /-- The last byte of a line. -/
  | completes (hok : ok = true) (ch : BitVec 8) (hch : ch ≠ ctrlD)
    (hqueue : d.queue = ch :: d'.queue)
    (hproc : d'.proc = update d.proc p { d.proc p with
      reading := none, received := (d.proc p).received ++ [ch],
      returned := (d.proc p).returned ++ [x.got + 1] })
  /-- A byte that cannot be delivered. -/
  | loses (hok : ok = false) (ch : BitVec 8) (hch : ch ≠ ctrlD) (hqueue : d.queue = ch :: d'.queue)
    (hproc : d'.proc = update d.proc p { d.proc p with
      reading := none, returned := (d.proc p).returned ++ [x.got] })

theorem turn_of_step (h : d.step (.turn p ok) = some d') :
    ∃ x, (d.proc p).reading = some x ∧ Turn d p ok x d' := by
  rw [step, map_eq_some_iff] at h
  obtain ⟨x, hx, h⟩ := h
  refine ⟨x, hx, ?_⟩
  split_ifs at h with hleft
  swap
  · subst h
    exact .returns rfl rfl
  rw [take] at h
  cases hq : d.queue with
  | nil =>
    rw [hq] at h
    dsimp only at h
    split_ifs at h with hkilled
    · subst h
      exact .killed hkilled rfl rfl
    · subst h
      exact .waits rfl rfl
  | cons ch rest =>
    rw [hq] at h
    dsimp only at h
    split_ifs at h with hD hgot hok hlf
    · subst h hD
      exact .endOfFile hq hgot (by rw [hgot]; rfl)
    · subst h
      exact .returns rfl rfl
    · subst h
      refine .completes hok ch hD hq ?_
      rw [ret, setProc, setProc]
      dsimp only
      rw [update_self, update_idem]
    · subst h
      exact .gets hok ch hD hq rfl
    · subst h
      exact .loses (Bool.eq_false_iff.2 hok) ch hD hq rfl

/-- A turn takes the first byte of the queue, or none, and leaves the other readers alone. -/
theorem Turn.queue (h : Turn d p ok x d') :
    (d'.queue = d.queue ∨ ∃ ch, d.queue = ch :: d'.queue) ∧
      ∃ y : Reader, d'.proc = update d.proc p y ∧ y.killed = (d.proc p).killed := by
  cases h with
  | waits hqueue hproc =>
    refine ⟨.inl hqueue, d.proc p, ?_, rfl⟩
    rw [hproc, update_eq_self]
  | killed _ hqueue hproc => exact ⟨.inl hqueue, _, hproc, rfl⟩
  | returns hqueue hproc => exact ⟨.inl hqueue, _, hproc, rfl⟩
  | endOfFile hqueue _ hproc => exact ⟨.inr ⟨_, hqueue⟩, _, hproc, rfl⟩
  | gets _ ch _ hqueue hproc => exact ⟨.inr ⟨ch, hqueue⟩, _, hproc, rfl⟩
  | completes _ ch _ hqueue hproc => exact ⟨.inr ⟨ch, hqueue⟩, _, hproc, rfl⟩
  | loses _ ch _ hqueue hproc => exact ⟨.inr ⟨ch, hqueue⟩, _, hproc, rfl⟩

/-! ### Taking bytes -/

/-- The byte that an event takes from the committed input, and the process that takes it. -/
def taken (d : LineDiscipline N) : ConsEvent N → Option (Fin N × BitVec 8)
  | .turn q ok => (d.step (.turn q ok)).bind fun d' ↦
    if d'.queue.length < d.queue.length then d.queue.head?.map (q, ·) else none
  | _ => none

theorem taken_of_eq (h : d.step (.turn q ok) = some d') (hqueue : d'.queue = d.queue) :
    d.taken (.turn q ok) = none := by
  rw [taken, h, bind_some, hqueue, if_neg (lt_irrefl _)]

theorem taken_of_cons {ch : BitVec 8} (h : d.step (.turn q ok) = some d')
    (hqueue : d.queue = ch :: d'.queue) : d.taken (.turn q ok) = some (q, ch) := by
  have hlt : d'.queue.length < d.queue.length := by
    rw [hqueue]
    exact Nat.lt_succ_self _
  rw [taken, h, bind_some, if_pos hlt, hqueue]
  rfl

/-- The byte that an event takes and does not deliver, of the byte `x` that it takes. -/
def lostOf (x : Option (Fin N × BitVec 8)) : ConsEvent N → Option (Fin N × BitVec 8)
  | .turn _ false => x.filter (·.2 ≠ ctrlD)
  | _ => none

theorem lostOf_cases (x : Option (Fin N × BitVec 8)) (a : ConsEvent N) :
    lostOf x a = none ∨ lostOf x a = x := by
  rw [lostOf.eq_def]
  split
  · cases x with
    | none => exact .inl rfl
    | some x =>
      rw [filter_some]
      split_ifs
      · exact .inr rfl
      · exact .inl rfl
  · exact .inl rfl

/-- The bytes that a process has taken. -/
def takenBy (p : Fin N) (l : List (Fin N × BitVec 8)) : List (BitVec 8) :=
  (l.filter (·.1 = p)).map Prod.snd

theorem takenBy_append (p : Fin N) (l l' : List (Fin N × BitVec 8)) :
    takenBy p (l ++ l') = takenBy p l ++ takenBy p l' := by
  rw [takenBy, filter_append, map_append]
  rfl

theorem append_extends (d : LineDiscipline N) (ch : BitVec 8) :
    (∃ more, (d.append ch).queue = d.queue ++ more) ∧ (d.append ch).proc = d.proc := by
  rw [append]
  split_ifs
  · exact ⟨⟨_, rfl⟩, rfl⟩
  · exact ⟨⟨[], (append_nil _).symm⟩, rfl⟩

/-- A byte that arrives may commit something behind the queue. -/
theorem input_extends (d : LineDiscipline N) (ch : BitVec 8) :
    (∃ more, (d.input ch).queue = d.queue ++ more) ∧ (d.input ch).proc = d.proc := by
  have hsame : ∃ more, d.queue = d.queue ++ more := ⟨[], (append_nil _).symm⟩
  rw [input]
  generalize (if ch = cr then lf else ch) = x
  split_ifs
  · exact ⟨hsame, rfl⟩
  · exact ⟨hsame, rfl⟩
  · exact ⟨hsame, rfl⟩
  · exact d.append_extends x
  · exact ⟨hsame, rfl⟩

/-- Bytes are taken from the front of the queue, and committed behind it. -/
theorem queue_step {a : ConsEvent N} (h : d.step a = some d') :
    ∃ more, d.queue ++ more = (d.taken a).toList.map Prod.snd ++ d'.queue := by
  cases a with
  | intr ch =>
    obtain rfl := Option.some.inj h
    obtain ⟨⟨more, hmore⟩, -⟩ := d.input_extends ch
    exact ⟨more, hmore.symm⟩
  | read p n =>
    rw [step, ite_none_right_eq_some] at h
    obtain rfl := Option.some.inj h.2
    exact ⟨[], append_nil _⟩
  | turn p ok =>
    obtain ⟨x, -, hturn⟩ := turn_of_step h
    refine ⟨[], ?_⟩
    rcases hturn.queue.1 with hqueue | ⟨ch, hqueue⟩
    · rw [taken_of_eq h hqueue, hqueue, append_nil]
      rfl
    · rw [taken_of_cons h hqueue, hqueue, append_nil]
      rfl
  | kill p =>
    obtain rfl := Option.some.inj h
    exact ⟨[], append_nil _⟩
  | acquire p =>
    obtain rfl := Option.some.inj h
    exact ⟨[], append_nil _⟩
  | sleep p =>
    obtain rfl := Option.some.inj h
    exact ⟨[], append_nil _⟩

end LineDiscipline

/-! ### The account of a call -/

/-- The reader is in the call, which has taken the bytes `l` since the reader was `r₀`. -/
structure Reader.Calling (r₀ r : Reader) (l : List (BitVec 8)) : Prop where
  returned : r.returned = r₀.returned
  received : r.received = r₀.received ++ l
  clean : ctrlD ∉ l
  reading : ∃ x, r.reading = some x ∧ x.got = l.length

/-- The call has returned. It has taken the bytes that it has delivered, as many as it returned, a
control-D if it was ended by one, and what it has lost. -/
structure Reader.Settled (r₀ r : Reader) (l lost : List (BitVec 8)) : Prop where
  reading : r.reading = none
  account : ∃ got eof, l = got ++ eof ++ lost ∧ ctrlD ∉ got ∧ ctrlD ∉ lost ∧
    (eof = [] ∨ eof = [ctrlD]) ∧ r.received = r₀.received ++ got ∧
    r.returned = r₀.returned ++ [(got.length : ℤ)]

namespace LineDiscipline

variable {d d' : LineDiscipline N} {p q : Fin N} {r₀ : Reader} {l : List (BitVec 8)} {ok : Bool}

/-- A turn of a call: the call goes on with what it takes, or it settles. -/
theorem step_calling (h : d.step (.turn p ok) = some d') (hcall : r₀.Calling (d.proc p) l)
    (hkilled : (d.proc p).killed = false) {x : Option (Fin N × BitVec 8)}
    (hx : d.taken (.turn p ok) = x) :
    r₀.Calling (d'.proc p) (l ++ x.toList.map Prod.snd) ∧ lostOf x (.turn p ok) = none ∨
      r₀.Settled (d'.proc p) (l ++ x.toList.map Prod.snd)
        ((lostOf x (.turn p ok)).toList.map Prod.snd) := by
  obtain ⟨y, hy, hturn⟩ := turn_of_step h
  obtain ⟨y', hy', hgot⟩ := hcall.reading
  obtain rfl : y = y' := Option.some.inj (hy.symm.trans hy')
  have hsnoc {ch : BitVec 8} (hch : ch ≠ ctrlD) : ctrlD ∉ l ++ [ch] := by
    rw [mem_append, mem_singleton]
    exact not_or.2 ⟨hcall.clean, hch.symm⟩
  have hlen (ch : BitVec 8) : y.got + 1 = ((l ++ [ch]).length : ℤ) := by
    rw [length_append, length_singleton, hgot]
    rfl
  have hnone : lostOf (N := N) none (.turn p ok) = none := by cases ok <;> rfl
  cases hturn with
  | waits hqueue hproc =>
    obtain rfl := hx.symm.trans (taken_of_eq h hqueue)
    rw [hproc]
    exact .inl ⟨by rwa [toList_none, map_nil, append_nil], hnone⟩
  | killed hk _ _ => exact absurd (hkilled.symm.trans hk) Bool.false_ne_true
  | returns hqueue hproc =>
    obtain rfl := hx.symm.trans (taken_of_eq h hqueue)
    rw [hproc, update_self, hnone]
    exact .inr ⟨rfl, l, [], by simp, hcall.clean, not_mem_nil, .inl rfl, hcall.received,
      by rw [hcall.returned, hgot]⟩
  | endOfFile hqueue h0 hproc =>
    obtain rfl := hx.symm.trans (taken_of_cons h hqueue)
    have hD : lostOf (some (p, ctrlD)) (.turn p ok) = none := by cases ok <;> rfl
    rw [hproc, update_self, hD]
    exact .inr ⟨rfl, l, [ctrlD], by simp, hcall.clean, not_mem_nil, .inr rfl, hcall.received,
      by rw [hcall.returned, hgot]⟩
  | gets hok ch hch hqueue hproc =>
    obtain rfl := hx.symm.trans (taken_of_cons h hqueue)
    rw [hproc, update_self, hok]
    exact .inl ⟨⟨hcall.returned, by rw [hcall.received, append_assoc]; rfl, hsnoc hch, _, rfl,
      hlen ch⟩, rfl⟩
  | completes hok ch hch hqueue hproc =>
    obtain rfl := hx.symm.trans (taken_of_cons h hqueue)
    rw [hproc, update_self, hok]
    exact .inr ⟨rfl, l ++ [ch], [], by simp [lostOf], hsnoc hch, not_mem_nil, .inl rfl,
      by rw [hcall.received, append_assoc], by rw [hcall.returned, hlen ch]⟩
  | loses hok ch hch hqueue hproc =>
    obtain rfl := hx.symm.trans (taken_of_cons h hqueue)
    have hlost : lostOf (some (p, ch)) (.turn p ok) = some (p, ch) := by
      rw [hok, lostOf, filter_some, if_pos (by simpa using hch)]
    rw [hproc, update_self, hlost]
    exact .inr ⟨rfl, l, [], by simp, hcall.clean, by simpa using hch.symm, .inl rfl,
      hcall.received, by rw [hcall.returned, hgot]⟩

/-- What a turn takes is taken by its process. -/
theorem takenBy_turn (h : d.step (.turn p ok) = some d') :
    takenBy p (d.taken (.turn p ok)).toList = (d.taken (.turn p ok)).toList.map Prod.snd := by
  obtain ⟨x, -, hx⟩ := turn_of_step h
  rcases hx.queue.1 with hqueue | ⟨ch, hqueue⟩
  · rw [taken_of_eq h hqueue]
    rfl
  · rw [taken_of_cons h hqueue, takenBy, toList_some, filter_cons_of_pos (by simp)]
    rfl

/-- The other events of a run leave the reader alone, unless it is killed. -/
theorem step_other {a : ConsEvent N} (h : d.step a = some d') (hturn : ∀ ok, a ≠ .turn p ok)
    (hread : ∀ n, a ≠ .read p n) (hkilled : (d'.proc p).killed = false) :
    d'.proc p = d.proc p ∧ takenBy p (d.taken a).toList = [] := by
  have hne {q : Fin N} {y : Reader} (hq : q ≠ p) : update d.proc q y p = d.proc p :=
    update_of_ne hq.symm ..
  cases a with
  | intr ch =>
    obtain rfl := Option.some.inj h
    exact ⟨congrFun (d.input_extends ch).2 p, rfl⟩
  | read q n =>
    rw [step, ite_none_right_eq_some] at h
    obtain rfl := Option.some.inj h.2
    have hq : q ≠ p := fun hq ↦ hread n (by rw [hq])
    exact ⟨hne hq, rfl⟩
  | turn q ok =>
    have hq : q ≠ p := fun hq ↦ hturn ok (by rw [hq])
    obtain ⟨x, -, hx⟩ := turn_of_step h
    obtain ⟨hqueue, y, hproc, -⟩ := hx.queue
    refine ⟨by rw [hproc, hne hq], ?_⟩
    rcases hqueue with hqueue | ⟨ch, hqueue⟩
    · rw [taken_of_eq h hqueue]
      rfl
    · rw [taken_of_cons h hqueue, toList_some, takenBy, filter_cons_of_neg (by simpa using hq)]
      rfl
  | kill q =>
    obtain rfl := Option.some.inj h
    by_cases hq : q = p
    · rw [hq] at hkilled
      dsimp only [setProc] at hkilled
      rw [update_self] at hkilled
      cases hkilled
    · exact ⟨hne hq, rfl⟩
  | acquire q =>
    obtain rfl := Option.some.inj h
    exact ⟨rfl, rfl⟩
  | sleep q =>
    obtain rfl := Option.some.inj h
    exact ⟨rfl, rfl⟩

/-- A killed reader stays killed. -/
theorem killed_of_step {a : ConsEvent N} (h : d.step a = some d')
    (hkilled : (d'.proc p).killed = false) : (d.proc p).killed = false := by
  have hupdate {q : Fin N} {y : Reader} (hu : (update d.proc q y p).killed = false)
      (hy : y.killed = false → (d.proc q).killed = false) : (d.proc p).killed = false := by
    by_cases hq : p = q
    · subst hq
      rw [update_self] at hu
      exact hy hu
    · rwa [update_of_ne hq] at hu
  cases a with
  | intr ch =>
    obtain rfl := Option.some.inj h
    rwa [(d.input_extends ch).2] at hkilled
  | read q n =>
    rw [step, ite_none_right_eq_some] at h
    obtain rfl := Option.some.inj h.2
    exact hupdate hkilled id
  | turn q ok =>
    obtain ⟨x, -, hx⟩ := turn_of_step h
    obtain ⟨-, y, hproc, hy⟩ := hx.queue
    rw [hproc] at hkilled
    exact hupdate hkilled (hy ▸ id)
  | kill q =>
    obtain rfl := Option.some.inj h
    exact hupdate hkilled fun h ↦ by cases h
  | acquire q =>
    obtain rfl := Option.some.inj h
    exact hkilled
  | sleep q =>
    obtain rfl := Option.some.inj h
    exact hkilled

end LineDiscipline

/-! ### Runs of the console -/

namespace Console

open LineDiscipline

variable {s t : Console N} {p : Fin N}

/-- The byte that an event takes from the committed input, and the process that takes it. -/
def taken (s : Console N) : ConsEvent N → Option (Fin N × BitVec 8)
  | .turn q ok => (s.step (.turn q ok)).bind fun t ↦
    if t.cons.committed < s.cons.committed then some (q, s.cons.buf (s.cons.r.toNat % inputBufSize))
    else none
  | _ => none

theorem Inv.taken_eq (h : s.Inv) {a : ConsEvent N} (hs : s.step a = some t) :
    s.taken a = s.abs.taken a := by
  obtain ⟨ht, habs⟩ := h.step hs
  cases a with
  | turn q ok =>
    rw [taken, LineDiscipline.taken, hs, habs, bind_some, bind_some,
      show s.abs.queue = s.cons.queue from rfl, show t.abs.queue = t.cons.queue from rfl,
      h.ok.length_queue, ht.ok.length_queue]
    split_ifs with hlt
    · have hne : s.cons.r ≠ s.cons.w := fun heq ↦ by
        rw [← h.ok.length_queue, h.ok.queue_eq_nil_iff.2 heq] at hlt
        exact absurd hlt (Nat.not_lt_zero _)
      rw [(h.ok.of_pop hne).2.1]
      rfl
    · rfl
  | _ => rfl

/-- The byte that an event takes from the committed input and does not deliver: its `copyout` has
failed. -/
def lost (s : Console N) (a : ConsEvent N) : Option (Fin N × BitVec 8) := lostOf (s.taken a) a

/-- Along a run in which `p` makes one call: its account, and the queue. -/
theorem Inv.account (h : s.Inv) {n : ℤ} {as : List (ConsEvent N)}
    (hs : runSteps Console.step s (.read p n :: as) = some t) (hcall : ∀ m, .read p m ∉ as) :
    (∃ more, s.cons.queue ++ more =
      (observations Console.step taken s (.read p n :: as)).map Prod.snd ++ t.cons.queue) ∧
    ((t.proc p).killed = false →
      (s.abs.proc p).Calling (t.abs.proc p)
          (takenBy p (observations Console.step taken s (.read p n :: as))) ∧
        takenBy p (observations Console.step lost s (.read p n :: as)) = [] ∨
      (s.abs.proc p).Settled (t.abs.proc p)
        (takenBy p (observations Console.step taken s (.read p n :: as)))
        (takenBy p (observations Console.step lost s (.read p n :: as)))) := by
  induction as using List.reverseRecOn generalizing t with
  | nil =>
    rw [runSteps] at hs
    obtain ⟨r, hr, hrt⟩ := bind_eq_some_iff.1 hs
    obtain rfl := Option.some.inj hrt
    have hobs (f : Console N → ConsEvent N → Option (Fin N × BitVec 8))
        (hf : f s (.read p n) = none) : observations Console.step f s [.read p n] = [] := by
      rw [observations, hr, hf]
      rfl
    have habs := (h.step hr).2
    rw [LineDiscipline.step, ite_none_right_eq_some, some_inj] at habs
    rw [hobs taken rfl, hobs lost rfl, show r.cons.queue = r.abs.queue from rfl, ← habs.2]
    refine ⟨⟨[], append_nil _⟩, fun _ ↦ .inl ⟨?_, rfl⟩⟩
    dsimp only [LineDiscipline.setProc]
    rw [update_self]
    exact ⟨rfl, (append_nil _).symm, not_mem_nil, _, rfl, rfl⟩
  | append_singleton as a ih =>
    rw [← cons_append] at hs ⊢
    obtain ⟨r, hr, hrt⟩ := runSteps_concat_eq_some hs
    obtain ⟨⟨more, hmore⟩, hcalling⟩ := ih hr fun m hm ↦ hcall m (mem_append_left _ hm)
    have hInv : r.Inv := runSteps_invariant h (fun _ _ _ h hs ↦ (h.step hs).1) hr
    have habs := (hInv.step hrt).2
    have htaken := hInv.taken_eq hrt
    rw [observations_concat hr, observations_concat hr, takenBy_append, takenBy_append, map_append,
      lost, htaken]
    refine ⟨?_, fun hkilled ↦ ?_⟩
    · obtain ⟨more', hmore'⟩ := queue_step habs
      refine ⟨more ++ more', ?_⟩
      rw [← append_assoc, hmore, append_assoc, append_assoc]
      exact congrArg _ hmore'
    have hkilled' := killed_of_step habs hkilled
    have hlost := lostOf_cases (r.abs.taken a) a
    by_cases hturn : ∃ ok, a = .turn p ok
    · obtain ⟨ok, rfl⟩ := hturn
      rcases hcalling hkilled' with ⟨hcalling, hnone⟩ | hsettled
      · have hby : takenBy p (lostOf (r.abs.taken (.turn p ok)) (.turn p ok)).toList =
            (lostOf (r.abs.taken (.turn p ok)) (.turn p ok)).toList.map Prod.snd := by
          rcases hlost with hlost | hlost <;> rw [hlost]
          · rfl
          · exact takenBy_turn habs
        rw [takenBy_turn habs, hnone, hby, nil_append]
        refine (step_calling habs hcalling hkilled' rfl).imp_left fun hstep ↦ ⟨hstep.1, ?_⟩
        rw [hstep.2]
        rfl
      · obtain ⟨x, hx, -⟩ := turn_of_step habs
        cases hsettled.reading.symm.trans hx
    · have hread : ∀ m, a ≠ .read p m := fun m hm ↦
        hcall m (mem_append_right _ (by rw [hm]; exact mem_cons_self))
      obtain ⟨hproc, hby⟩ := step_other habs (fun ok hok ↦ hturn ⟨ok, hok⟩) hread hkilled
      have hby' : takenBy p (lostOf (r.abs.taken a) a).toList = [] := by
        rcases hlost with hlost | hlost <;> rw [hlost]
        · rfl
        · exact hby
      rw [hproc, hby, hby', append_nil, append_nil]
      exact hcalling hkilled'

end Console

end Xv6

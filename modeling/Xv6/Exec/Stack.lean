import Xv6.Exec.Load

/-!
# The argument stack

The strings of `argv` and the array of their addresses are put below the stack pointer one after the
other, each rounded up to a multiple of 16 (`room`). The pointer starts at a multiple of 16, so that
rounding it down after each step is the same. It would come below zero only for a string that is
longer than the whole address space, and an address from there on is refused by `copyout`. All are
in their places (`withArgs`), or they do not fit.
-/

namespace Xv6.Exec

open Fs Fs.Kernel List

/-- What `n` bytes take on the stack. -/
def room (n : ℕ) : ℕ := (n + 15) / 16 * 16

/-- What the strings take on the stack. -/
def stringsRoom (argv : List CString) : ℕ := (argv.map fun a ↦ room (a.strlen + 1)).sum

/-- The addresses of the strings below `sp`. -/
def stringAddrs : ℕ → List CString → List ℕ
  | _, [] => []
  | sp, a :: argv => (sp - room (a.strlen + 1)) :: stringAddrs (sp - room (a.strlen + 1)) argv

/-- A layout with the strings below `sp`. -/
def withStrings (L : Layout) : ℕ → List CString → Layout
  | _, [] => L
  | sp, a :: argv =>
    withStrings (L.load (sp - room (a.strlen + 1)) (a.strlen + 1) a.byte)
      (sp - room (a.strlen + 1)) argv

/-- What `argv` takes on the stack: the strings, and the array. -/
def argsRoom (argv : List CString) : ℕ := stringsRoom argv + room ((argv.length + 1) * 8)

/-- A layout with `argv` below `sp`. -/
def withArgs (L : Layout) (sp : ℕ) (argv : List CString) : Layout :=
  (withStrings L sp argv).load (sp - argsRoom argv) ((argv.length + 1) * 8)
    (wordByte (stringAddrs sp argv ++ [0]))

theorem room_le {n : ℕ} (h : n ≤ 4096) : room n ≤ 4096 := by
  rw [room]
  omega

theorem room_le_of_mod {n sp : ℕ} (hsp : sp % 16 = 0) (h : n ≤ sp) : room n ≤ sp := by
  rw [room]
  omega

theorem le_room (n : ℕ) : n ≤ room n ∧ room n % 16 = 0 := by
  rw [room]
  omega

theorem stringsRoom_cons (a : CString) (argv : List CString) :
    stringsRoom (a :: argv) = room (a.strlen + 1) + stringsRoom argv := by
  rw [stringsRoom, map_cons, sum_cons]
  rfl

theorem stringsRoom_mod (argv : List CString) : stringsRoom argv % 16 = 0 := by
  induction argv with
  | nil => rfl
  | cons a argv ih =>
    have hroom := (le_room (a.strlen + 1)).2
    rw [stringsRoom_cons]
    omega

/-- The pointer is rounded down, or the room up. -/
theorem lower_eq {sp n : ℕ} (hsp : sp % 16 = 0) (hlt : sp < 2 ^ 64) (hn : room n ≤ sp) :
    lower sp n = sp - room n := by
  rw [room] at *
  rw [lower, sub64, u64]
  omega

theorem length_stringAddrs (sp : ℕ) (argv : List CString) :
    (stringAddrs sp argv).length = argv.length := by
  induction argv generalizing sp with
  | nil => rfl
  | cons a argv ih => rw [stringAddrs, length_cons, length_cons, ih]

theorem withStrings_eq (L : Layout) (sp : ℕ) (argv : List CString) :
    (withStrings L sp argv).sz = L.sz ∧ (withStrings L sp argv).flags = L.flags := by
  induction argv generalizing L sp with
  | nil => exact ⟨rfl, rfl⟩
  | cons a argv ih => exact ih _ _

/-! ### The code -/

variable [Image] {E : Halt → Prop} {S : Estate} {M : Memory} {x y : Machine} {pt sp stackbase : ℕ}
  {L : Layout} {argv : List CString}

/-- The pages from an address up to the size are the user's, who may write to them. -/
def StackPages (L : Layout) (stackbase : ℕ) : Prop :=
  ∀ v, stackbase / pgsize ≤ v → v < pagesOf L.sz →
    hasFlag (L.flags v) pteU = true ∧ hasFlag (L.flags v) pteW = true

theorem wpe_copyoutNew {va len : ℕ} {src : ℕ → Byte} (h : Built S M x.phys pt L)
    (hstack : StackPages L stackbase) (hlow : stackbase ≤ va) (hhigh : va + len ≤ L.sz)
    {Q : ℤ → Machine → Prop}
    (hQ : ∀ p, Built S M p pt (L.load va len src) → (∀ n, Ample x.phys n → Ample p n) →
      Q 0 { x with phys := p }) :
    wpe E (copyoutNew pt va src len) Q x := by
  rw [copyoutNew, wpe_bind, wpe_get]
  refine wpe_vm ((h.copyoutFrom le_rfl fun v hv hlt ↦ ?_).mono fun r p ⟨hr, hp, hample⟩ ↦ ?_)
  · have hv' : v < pagesOf L.sz := by
      rw [lt_pagesOf h.shape.size]
      omega
    exact ⟨hv', hstack v ((Nat.div_le_div_right hlow).trans hv) hv'⟩
  · rw [hr]
    exact hQ p hp hample

theorem wpe_copyoutNew_of_ge {va len : ℕ} {src : ℕ → Byte} (hva : maxva ≤ va) (hlen : 0 < len)
    {Q : ℤ → Machine → Prop} (hQ : Q (-1) x) : wpe E (copyoutNew pt va src len) Q x := by
  obtain ⟨n, rfl⟩ := Nat.exists_eq_succ_of_ne_zero hlen.ne'
  have hround : pgRoundDown va ≥ maxva := by
    have hva' : 274877906944 ≤ va := hva
    show va / 4096 * 4096 ≥ 274877906944
    omega
  rw [copyoutNew, wpe_bind, wpe_get]
  refine wpe_vm ?_
  rw [copyout, copyoutFrom, if_pos hlen]
  dsimp only
  rw [if_pos hround, wp_pure]
  exact hQ

/-- What pushing something returns and leaves: all is in its place, or it does not fit. -/
structure Pushed {α : Type} (S : Estate) (M : Memory) (x : Machine) (pt : ℕ) (L : Layout)
    (fits : Prop) (a : α) (L' : Layout) (r : Option α) (y : Machine) : Prop where
  rest : y = { x with phys := y.phys }
  ample : ∀ n, Ample x.phys n → Ample y.phys n
  ok : fits → r = some a ∧ Built S M y.phys pt L'
  bad : ¬fits → r = none ∧ ∃ L'', L''.sz = L.sz ∧ Built S M y.phys pt L''

/-- Something has been put into the address space before. -/
theorem Pushed.cons {α : Type} {fits fits' : Prop} {a : α} {L₁ L' : Layout}
    {r : Option α} {p : Phys}
    (h : Pushed S M { x with phys := p } pt L₁ fits a L' r y) (hsz : L₁.sz = L.sz)
    (hample : ∀ n, Ample x.phys n → Ample p n) (hfits : fits' ↔ fits) :
    Pushed S M x pt L fits' a L' r y := by
  refine ⟨h.rest, fun n hn ↦ h.ample n (hample n hn), fun hyes ↦ h.ok (hfits.1 hyes), fun hno ↦ ?_⟩
  obtain ⟨hr, L'', hL'', hbuilt⟩ := h.bad (mt hfits.2 hno)
  exact ⟨hr, L'', hL''.trans hsz, hbuilt⟩

/-- **The strings.** -/
theorem wpe_pushStrings {us : List ℕ} (h : Built S M x.phys pt L) (hstack : StackPages L stackbase)
    (hsp : sp % 16 = 0) (hbase : stackbase ≤ sp) (htop : sp ≤ L.sz)
    (hargs : ∀ a ∈ argv, a.strlen < 2 ^ 31) (hus : us.length ≤ maxarg) :
    wpe E (pushStrings pt stackbase argv sp us)
      (Pushed S M x pt L (us.length + argv.length ≤ maxarg ∧ stringsRoom argv ≤ sp - stackbase)
        (sp - stringsRoom argv, us ++ stringAddrs sp argv) (withStrings L sp argv)) x := by
  induction argv generalizing x L sp us with
  | nil =>
    rw [pushStrings, wpe_pure]
    refine ⟨rfl, fun _ ↦ id, fun _ ↦ ⟨?_, h⟩, fun hno ↦ absurd ⟨hus, Nat.zero_le _⟩ hno⟩
    rw [stringAddrs, append_nil]
    rfl
  | cons a argv ih =>
    have ha : a.strlen < 2 ^ 31 := hargs a mem_cons_self
    obtain ⟨hle, hmod⟩ := le_room (a.strlen + 1)
    have hsize : L.sz ≤ 274877898752 := h.shape.size
    have hbad : ¬(us.length + (a :: argv).length ≤ maxarg ∧
        stringsRoom (a :: argv) ≤ sp - stackbase) →
        Pushed S M x pt L (us.length + (a :: argv).length ≤ maxarg ∧
          stringsRoom (a :: argv) ≤ sp - stackbase) (sp - stringsRoom (a :: argv),
          us ++ stringAddrs sp (a :: argv)) (withStrings L sp (a :: argv)) none x := fun hno ↦
      ⟨rfl, fun _ ↦ id, fun hyes ↦ absurd hyes hno, fun _ ↦ ⟨rfl, L, rfl, h⟩⟩
    rw [length_cons, stringsRoom_cons] at hbad ⊢
    rw [pushStrings, wpe_ite, wpe_pure]
    refine ⟨fun hfull ↦ hbad (by omega), fun hfull ↦ ?_⟩
    rcases lt_or_ge sp (a.strlen + 1) with hwrap | hge
    · -- the pointer wraps around, and the address is not one of the user's
      have hhigh : maxva ≤ lower sp (a.strlen + 1) := by
        rw [lower, sub64, u64]
        show 274877906944 ≤ _
        omega
      have hmax : sp < maxva := by
        show sp < 274877906944
        omega
      dsimp only
      rw [if_neg (by omega), wpe_bind]
      refine wpe_copyoutNew_of_ge hhigh (Nat.succ_pos _) ?_
      rw [if_pos (by decide), wpe_pure]
      exact hbad (by omega)
    have hroom : room (a.strlen + 1) ≤ sp := room_le_of_mod hsp hge
    rw [lower_eq hsp (by omega) hroom]
    dsimp only
    rw [wpe_ite, wpe_pure]
    refine ⟨fun hlow ↦ hbad (by omega), fun hlow ↦ ?_⟩
    rw [wpe_bind]
    refine wpe_copyoutNew h hstack (Nat.le_of_not_lt hlow) (by omega) fun p hp hample ↦ ?_
    rw [if_neg (by decide)]
    have hnext : wpe E (pushStrings pt stackbase argv (sp - room (a.strlen + 1))
        (us ++ [sp - room (a.strlen + 1)])) _ { x with phys := p } :=
      ih hp hstack (by omega) (by omega) (by
        show _ ≤ L.sz
        omega) (fun b hb ↦ hargs b (mem_cons_of_mem _ hb)) (by
          rw [length_append, length_singleton]
          omega)
    refine hnext.mono fun r y hy ↦ ?_
    rw [append_assoc, singleton_append, length_append, length_singleton] at hy
    rw [← Nat.sub_sub, stringAddrs]
    refine hy.cons rfl hample ?_
    omega

/-- **The strings and the array.** -/
theorem wpe_pushArgs (h : Built S M x.phys pt L) (hstack : StackPages L stackbase)
    (hsp : sp % 16 = 0) (hbase : stackbase ≤ sp) (hguard : 4096 ≤ stackbase) (htop : sp ≤ L.sz)
    (hargs : ∀ a ∈ argv, a.strlen < 2 ^ 31) (hlen : E .ustack ∨ argv.length ≠ maxarg) :
    wpe E (pushArgs pt stackbase sp argv)
      (Pushed S M x pt L (argv.length < maxarg ∧ argsRoom argv ≤ sp - stackbase)
        (sp - argsRoom argv) (withArgs L sp argv)) x := by
  have hsize : L.sz ≤ 274877898752 := h.shape.size
  have hmod := stringsRoom_mod argv
  rw [pushArgs, wpe_bind]
  refine (wpe_pushStrings h hstack hsp hbase htop hargs (Nat.zero_le _)).mono fun r y hy ↦ ?_
  rw [length_nil, zero_add] at hy
  by_cases hfit : argv.length ≤ maxarg ∧ stringsRoom argv ≤ sp - stackbase
  swap
  · obtain ⟨hr, hbuilt⟩ := hy.bad hfit
    rw [hr]
    dsimp only
    rw [wpe_pure]
    refine ⟨hy.rest, hy.ample, fun hyes ↦ ?_, fun _ ↦ ⟨rfl, hbuilt⟩⟩
    rw [argsRoom] at hyes
    omega
  obtain ⟨hr, hbuilt⟩ := hy.ok hfit
  have hwords : (stringAddrs sp argv).length = argv.length := length_stringAddrs sp argv
  rw [hr, nil_append]
  dsimp only
  rw [hwords, wpe_ite, wpe_throw]
  refine ⟨fun hfull ↦ hlen.resolve_right (not_not.2 (le_antisymm hfit.1 hfull)), fun hlt ↦ ?_⟩
  have hroom : room ((argv.length + 1) * 8) ≤ 4096 := room_le (by
    have hmax : maxarg = 32 := rfl
    omega)
  obtain ⟨hle, hmod'⟩ := le_room ((argv.length + 1) * 8)
  rw [lower_eq (by omega) (by omega) (by omega), wpe_ite, wpe_pure]
  refine ⟨fun hlow ↦ ⟨hy.rest, hy.ample, fun hyes ↦ ?_,
    fun _ ↦ ⟨rfl, _, (withStrings_eq L sp argv).1,
    hbuilt⟩⟩, fun hlow ↦ ?_⟩
  · rw [argsRoom] at hyes
    omega
  obtain ⟨hsz, hflags⟩ := withStrings_eq L sp argv
  rw [wpe_bind]
  have hstack' : StackPages (withStrings L sp argv) stackbase := by
    rw [StackPages, hsz, hflags]
    exact hstack
  refine wpe_copyoutNew hbuilt hstack' (Nat.le_of_not_lt hlow) (by omega) fun p hp hample ↦ ?_
  rw [if_neg (by decide), wpe_pure]
  rw [Nat.sub_sub] at hp hlow ⊢
  refine ⟨?_, fun n hn ↦ hample n (hy.ample n hn), fun _ ↦ ⟨rfl, hp⟩, fun hno ↦ ?_⟩
  · rw [hy.rest]
  · rw [argsRoom] at hno
    omega

end Xv6.Exec

import Mathlib.Data.List.Chain
import Mathlib.Data.List.Nodup
import Mathlib.Logic.Function.Basic

/-!
# Doubly linked rings

A circular list threaded through its members by two pointers each, with a sentinel: the usual
intrusive list of C code. A node is `some a` for a member and `none` for the sentinel, `Links` are
all the pointers, and `Ring L l` says that following `next` from the sentinel goes through `l` and
comes back, `prev` being the way back.

The two editing operations are the assignments C code makes, in their order; what they do to a ring
is `Ring.unlink` and `Ring.pushFront`. Searching a ring is following one of the pointers until the
sentinel comes (`findFrom`); in a ring it ends, and it is `List.find?` (`Ring.findFrom_next`,
`Ring.findFrom_prev`).
-/

variable {α : Type*}

/-- The pointers of all nodes, `none` being the sentinel. -/
structure Links (α : Type*) where
  next : Option α → Option α
  prev : Option α → Option α

namespace Links

open Function List Option

/-- A sentinel that points to itself. -/
def empty : Links α := ⟨fun _ ↦ none, fun _ ↦ none⟩

/-- Follow the pointer `f` from the node `x` until a member satisfies `p` or the sentinel comes.
The result is `none` if `fuel` nodes were not enough. -/
def findFrom (f : Option α → Option α) (p : α → Bool) : ℕ → Option α → Option (Option α)
  | 0, _ => none
  | _ + 1, none => some none
  | fuel + 1, some b => if p b then some (some b) else findFrom f p fuel (f (some b))

section

variable [DecidableEq α]

/-- `x->next = y`. -/
def setNext (L : Links α) (x y : Option α) : Links α :=
    { L with next := update L.next x y }

/-- `x->prev = y`. -/
def setPrev (L : Links α) (x y : Option α) : Links α :=
    { L with prev := update L.prev x y }

/-- Take the member `b` out: `b->next->prev = b->prev`, `b->prev->next = b->next`. -/
def unlink (L : Links α) (b : α) : Links α :=
  let L := L.setPrev (L.next (some b)) (L.prev (some b))
  L.setNext (L.prev (some b)) (L.next (some b))

/-- Put `b` behind the sentinel: `b->next = head.next`, `b->prev = &head`, `head.next->prev = b`,
`head.next = b`. -/
def pushFront (L : Links α) (b : α) : Links α :=
  let L := L.setNext (some b) (L.next none)
  let L := L.setPrev (some b) none
  let L := L.setPrev (L.next none) (some b)
  L.setNext none (some b)

end

/-- `y` is next after `x`, and the way back agrees. -/
def Adjacent (L : Links α) (x y : Option α) : Prop := L.next x = y ∧ L.prev y = x

/-- Following `next` from the sentinel goes through the members of `l`, each once, and back to the
sentinel; `prev` is the way back. -/
structure Ring (L : Links α) (l : List α) : Prop where
  nodup : l.Nodup
  chain : (none :: (l.map some ++ [none])).IsChain L.Adjacent

theorem ring_empty : Ring (empty : Links α) [] :=
  ⟨nodup_nil, isChain_pair.2 ⟨rfl, rfl⟩⟩

namespace Ring

variable {L : Links α} {l l₁ l₂ : List α} {b : α}

/-! ### Searching -/

theorem findFrom_eq {f : Option α → Option α} {p : α → Bool} {x : Option α} {fuel : ℕ}
    (h : (x :: (l.map some ++ [none])).IsChain fun x y ↦ f x = y) (hf : l.length < fuel) :
    findFrom f p fuel (f x) = some (l.find? p) := by
  induction l generalizing x fuel with
  | nil =>
    obtain ⟨n, rfl⟩ : ∃ n, fuel = n + 1 := Nat.exists_eq_succ_of_ne_zero (Nat.ne_of_gt hf)
    rw [isChain_pair.1 h, findFrom, List.find?_nil]
  | cons b l ih =>
    obtain ⟨n, rfl⟩ : ∃ n, fuel = n + 1 := Nat.exists_eq_succ_of_ne_zero (Nat.ne_zero_of_lt hf)
    obtain ⟨hb, hrest⟩ := isChain_cons_cons.1 h
    rw [hb, findFrom, List.find?_cons]
    cases p b with
    | true => rfl
    | false => exact ih hrest (Nat.lt_of_succ_lt_succ hf)

/-- Searching forwards finds the first member. -/
theorem findFrom_next (h : Ring L l) (p : α → Bool) {fuel : ℕ} (hf : l.length < fuel) :
    findFrom L.next p fuel (L.next none) = some (l.find? p) :=
  findFrom_eq (h.chain.imp fun _ _ h ↦ h.1) hf

/-- Searching backwards finds the last. -/
theorem findFrom_prev (h : Ring L l) (p : α → Bool) {fuel : ℕ} (hf : l.length < fuel) :
    findFrom L.prev p fuel (L.prev none) = some (l.reverse.find? p) := by
  refine findFrom_eq ?_ (by rwa [length_reverse])
  have hback : (none :: (l.map some ++ [none])).reverse.IsChain fun x y ↦ L.prev x = y :=
    isChain_reverse.2 (h.chain.imp fun _ _ h ↦ h.2)
  simpa using hback

/-! ### Editing -/

variable [DecidableEq α]

/-- Taking a member out of a ring. -/
theorem unlink (h : Ring L (l₁ ++ b :: l₂)) : Ring (L.unlink b) (l₁ ++ l₂) := by
  obtain ⟨hnodup, hchain⟩ := h
  obtain ⟨A, p, hA⟩ : ∃ A p, none :: l₁.map some = A ++ [p] := by
    rcases eq_nil_or_concat (none :: l₁.map some) with h | ⟨A, p, h⟩
    · exact absurd h (cons_ne_nil _ _)
    · exact ⟨A, p, h.trans concat_eq_append⟩
  obtain ⟨n, B, hB⟩ : ∃ n B, l₂.map some ++ [none] = n :: B :=
    exists_cons_of_ne_nil (by simp)
  have hleft : some b ∉ A ++ [p] := by
    rw [← hA]
    simpa using fun hb ↦ (disjoint_of_nodup_append hnodup) hb mem_cons_self
  have hright : some b ∉ n :: B := by
    rw [← hB]
    simpa using (nodup_cons.1 (hnodup.sublist (sublist_append_right l₁ _))).1
  -- the path is `A`, `p`, `b`, `n`, `B`
  rw [map_append, map_cons, append_assoc, cons_append, hB, ← cons_append,
    hA, append_assoc, singleton_append, isChain_append_cons_cons,
    isChain_cons_cons] at hchain
  obtain ⟨hA', ⟨hpb, hbp⟩, ⟨hbn, hnb⟩, hB'⟩ := hchain
  have hne : some b ≠ n := fun heq ↦ hright (heq ▸ mem_cons_self)
  have hnext : (L.unlink b).next = update L.next p n := by
    show update L.next (update L.prev _ _ (some b)) (L.next (some b)) = _
    rw [hbn, update_of_ne hne, hbp]
  have hprev : (L.unlink b).prev = update L.prev n p := by
    show update L.prev _ _ = _
    rw [hbn, hbp]
  -- a pair without `b` in it is where it was
  have hkeep : ∀ x y, x ≠ some b → y ≠ some b → L.Adjacent x y → (L.unlink b).Adjacent x y := by
    intro x y hx hy ⟨hxy, hyx⟩
    have hxp : x ≠ p := fun heq ↦ hy (hxy.symm.trans (heq ▸ hpb))
    have hyn : y ≠ n := fun heq ↦ hx (hyx.symm.trans (heq ▸ hnb))
    rw [Adjacent, hnext, hprev, update_of_ne hxp, update_of_ne hyn]
    exact ⟨hxy, hyx⟩
  refine ⟨hnodup.sublist ((sublist_cons_self b l₂).append_left l₁), ?_⟩
  rw [map_append, append_assoc, hB, ← cons_append, hA, append_assoc,
    singleton_append, isChain_append_cons_cons]
  refine ⟨hA'.imp_of_mem_imp fun x y hx hy ↦ hkeep x y (fun h ↦ hleft (h ▸ hx)) fun h ↦
    hleft (h ▸ hy), ?_, hB'.imp_of_mem_imp fun x y hx hy ↦
      hkeep x y (fun h ↦ hright (h ▸ hx)) fun h ↦
    hright (h ▸ hy)⟩
  rw [Adjacent, hnext, hprev, update_self, update_self]
  exact ⟨rfl, rfl⟩

/-- Putting a new member first. -/
theorem pushFront (h : Ring L l) (hb : b ∉ l) : Ring (L.pushFront b) (b :: l) := by
  obtain ⟨hnodup, hchain⟩ := h
  obtain ⟨y, Q, hQ⟩ : ∃ y Q, l.map some ++ [none] = y :: Q :=
    exists_cons_of_ne_nil (by simp)
  have hfresh : some b ∉ y :: Q := by
    rw [← hQ]
    simpa using hb
  have hyQ : y ∉ Q := by
    have hpath : (l.map some ++ [none]).Nodup := by
      rw [nodup_append]
      refine ⟨hnodup.map fun _ _ ↦ Option.some.inj, nodup_singleton _, ?_⟩
      rintro _ hx _ hz rfl
      obtain ⟨a, -, ha⟩ := mem_map.1 hx
      exact some_ne_none a (ha.trans (mem_singleton.1 hz))
    rw [hQ] at hpath
    exact (nodup_cons.1 hpath).1
  rw [hQ, isChain_cons_cons] at hchain
  obtain ⟨⟨hny, hyn⟩, hrest⟩ := hchain
  have hby : some b ≠ y := fun heq ↦ hfresh (heq ▸ mem_cons_self)
  have hnone : (none : Option α) ≠ some b := (some_ne_none b).symm
  have hnext : (L.pushFront b).next = update (update L.next (some b) y) none
      (some b) := by
    show update (update L.next (some b) (L.next none)) none (some b) = _
    rw [hny]
  have hprev : (L.pushFront b).prev = update (update L.prev (some b) none) y
      (some b) := by
    show update (update L.prev (some b) none)
      (update L.next (some b) (L.next none) none) (some b) = _
    rw [update_of_ne hnone, hny]
  refine ⟨nodup_cons.2 ⟨hb, hnodup⟩, ?_⟩
  rw [map_cons, cons_append, hQ, isChain_cons_cons, isChain_cons_cons]
  refine ⟨?_, ?_, hrest.imp_of_mem_tail_imp fun x z hx hz hxz ↦ ?_⟩
  · rw [Adjacent, hnext, hprev, update_self, update_of_ne hby, update_self]
    exact ⟨rfl, rfl⟩
  · rw [Adjacent, hnext, hprev, update_of_ne hnone.symm, update_self,
      update_self]
    exact ⟨rfl, rfl⟩
  · obtain ⟨hxz, hzx⟩ := hxz
    have hzy : z ≠ y := fun heq ↦ hyQ (heq ▸ hz)
    have hxn : x ≠ none := fun heq ↦ hzy (hxz.symm.trans (heq ▸ hny))
    have hxb : x ≠ some b := fun heq ↦ hfresh (heq ▸ hx)
    have hzb : z ≠ some b := fun heq ↦ hfresh (heq ▸ mem_cons_of_mem y hz)
    rw [Adjacent, hnext, hprev, update_of_ne hxn, update_of_ne hxb,
      update_of_ne hzy, update_of_ne hzb]
    exact ⟨hxz, hzx⟩

end Ring

end Links

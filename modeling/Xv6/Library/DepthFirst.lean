import Mathlib.Data.Finset.Card
import Mathlib.Data.List.Chain
import Mathlib.Logic.Function.Basic
import Mathlib.Logic.Relation

/-!
# Depth-first search for cycles

A search that follows the edges of each node once and reports a path whenever it comes to a node
that it has not left yet. `visit` is the recursive function with its marks; its depth is bounded by
the number of nodes that are new, so a bound that is larger than that is none
(`visit_spec`, `search_spec`).

What carries the search is `Inv`: the nodes that are active are those of the path, each report is a
path that comes back to itself, and as long as there is no report, finished nodes lead to finished
nodes only, and to no cycle. A node becomes finished when its targets are, and it was not among
them.
-/

namespace DepthFirst

open List

variable {α ε : Type}

inductive Mark
  | new
  | active
  | finished
  deriving DecidableEq, Repr

/-- The state of a search. -/
structure Search (α ε : Type) where
  mark : α → Mark
  errors : List ε
  /-- The nodes whose edges have been followed, or are being followed. -/
  expanded : List α

namespace Search

variable [DecidableEq α]

def enter (s : Search α ε) (u : α) : Search α ε :=
  { s with mark := Function.update s.mark u .active, expanded := s.expanded ++ [u] }

def leave (s : Search α ε) (u : α) : Search α ε :=
  { s with mark := Function.update s.mark u .finished }

theorem enter_self (s : Search α ε) (u : α) : (s.enter u).mark u = .active :=
  Function.update_self _ _ _

theorem enter_of_ne (s : Search α ε) {u v : α} (h : v ≠ u) : (s.enter u).mark v = s.mark v :=
  Function.update_of_ne h _ _

theorem leave_self (s : Search α ε) (u : α) : (s.leave u).mark u = .finished :=
  Function.update_self _ _ _

theorem leave_of_ne (s : Search α ε) {u v : α} (h : v ≠ u) : (s.leave u).mark v = s.mark v :=
  Function.update_of_ne h _ _

end Search

variable (next : α → List α) (report : List α → ε)

section visit

variable [DecidableEq α]

/-- Visit `u`, to which `path` leads, with a bound on the depth. -/
def visit : ℕ → List α → Search α ε → α → Option (Search α ε)
  | 0, _, _, _ => none
  | depth + 1, path, s, u =>
    match s.mark u with
    | .active => some { s with errors := s.errors ++ [report (path ++ [u])] }
    | .finished => some s
    | .new =>
      ((next u).foldlM (visit depth (path ++ [u])) (s.enter u)).map fun t ↦ t.leave u

/-- Visit each of `nodes`. -/
def search (depth : ℕ) (nodes : List α) : Option (Search α ε) :=
  nodes.foldlM (visit next report depth []) ⟨fun _ ↦ .new, [], []⟩

end visit

/-- A path along edges. -/
abbrev IsPath (l : List α) : Prop := l.IsChain fun u v ↦ v ∈ next u

/-- `u` is on a cycle. -/
abbrev OnCycle (u : α) : Prop := Relation.TransGen (fun u v ↦ v ∈ next u) u u

variable {next report} {nodes : Finset α} {path ts : List α} {u v t : α} {s s' s'' : Search α ε}
  {depth : ℕ}

theorem IsPath.concat (h : IsPath next (path ++ [u])) (hv : v ∈ next u) :
    IsPath next (path ++ [u] ++ [v]) := by
  refine h.append (isChain_singleton v) fun x hx y hy ↦ ?_
  rw [List.getLast?_append, List.getLast?_singleton] at hx
  rw [← Option.some.inj hx, ← Option.some.inj hy]
  exact hv

/-- A path that ends in one of its nodes has a cycle. -/
theorem IsPath.onCycle (h : IsPath next (path ++ [u])) (hu : u ∈ path) : OnCycle next u := by
  obtain ⟨before, after, rfl⟩ := append_of_mem hu
  rw [append_assoc, cons_append] at h
  cases after with
  | nil =>
    exact .single (isChain_append_cons_cons.1 h).2.1
  | cons v after =>
    obtain ⟨-, huv, hrest⟩ := isChain_append_cons_cons.1 h
    have hreach := relationReflTransGen_of_exists_isChain _ hrest (cons_ne_nil _ _)
    exact .head' huv (by simpa using hreach)

/-! ### The invariant -/

/-- What holds while the nodes of `path` are being visited. -/
structure Inv (next : α → List α) (report : List α → ε) (path : List α) (s : Search α ε) :
    Prop where
  active : ∀ u, s.mark u = .active ↔ u ∈ path
  once : s.expanded.Nodup
  expanded : ∀ u, u ∈ s.expanded ↔ s.mark u ≠ .new
  reports : ∀ e ∈ s.errors, ∃ p u, e = report (p ++ [u]) ∧ IsPath next (p ++ [u]) ∧ u ∈ p
  closed : s.errors = [] → ∀ u, s.mark u = .finished → ∀ v ∈ next u, s.mark v = .finished
  acyclic : s.errors = [] → ∀ u, s.mark u = .finished → ¬OnCycle next u

theorem inv_start : Inv next report [] ⟨fun _ ↦ .new, [], []⟩ where
  active u := iff_of_false (fun h ↦ by cases h) not_mem_nil
  once := nodup_nil
  expanded u := iff_of_false not_mem_nil fun h ↦ h rfl
  reports e he := absurd he not_mem_nil
  closed _ u h := by cases h
  acyclic _ u h := by cases h

/-- Finished nodes lead to finished nodes. -/
theorem finished_of_transGen
    (hclosed : ∀ u, s.mark u = .finished → ∀ v ∈ next u, s.mark v = .finished)
    (hu : ∀ v ∈ next u, s.mark v = .finished)
    (h : Relation.TransGen (fun u v ↦ v ∈ next u) u v) : s.mark v = .finished := by
  induction h with
  | single h => exact hu _ h
  | tail _ h ih => exact hclosed _ ih _ h

/-- What a visit of `ts` leads to. -/
structure Visited (next : α → List α) (report : List α → ε) (path ts : List α)
    (s s' : Search α ε) : Prop where
  inv : Inv next report path s'
  kept : ∀ v, s.mark v ≠ .new → s'.mark v = s.mark v
  errors : s'.errors = [] → s.errors = []
  marked : ∀ t ∈ ts, s'.mark t ≠ .new
  finished : s'.errors = [] → ∀ t ∈ ts, s'.mark t = .finished

theorem Visited.cons (h : Visited next report path [t] s s')
    (h' : Visited next report path ts s' s'') : Visited next report path (t :: ts) s s'' where
  inv := h'.inv
  kept v hv := by
    have hs' := h.kept v hv
    rw [h'.kept v (by rwa [hs']), hs']
  errors he := h.errors (h'.errors he)
  marked := by
    intro v hv
    rcases mem_cons.1 hv with rfl | hv
    · rw [h'.kept v (h.marked v mem_cons_self)]
      exact h.marked v mem_cons_self
    · exact h'.marked v hv
  finished he := by
    intro v hv
    rcases mem_cons.1 hv with rfl | hv
    · rw [h'.kept v (h.marked v mem_cons_self)]
      exact h.finished (h'.errors he) v mem_cons_self
    · exact h'.finished he v hv

/-- The nodes that are new. -/
def fresh (nodes : Finset α) (s : Search α ε) : ℕ := (nodes.filter fun u ↦ s.mark u = .new).card

theorem Visited.fresh_le (h : Visited next report path ts s s') :
    fresh nodes s' ≤ fresh nodes s := by
  refine Finset.card_le_card (Finset.monotone_filter_right nodes fun v _ hv ↦ ?_)
  by_contra hne
  exact hne ((h.kept v hne).symm.trans hv)

/-- A loop of visits. -/
theorem foldlM_spec {f : Search α ε → α → Option (Search α ε)}
    (hf : ∀ t ∈ ts, ∀ s, Inv next report path s → fresh nodes s < depth →
      ∃ s', f s t = some s' ∧ Visited next report path [t] s s')
    (hinv : Inv next report path s) (hdepth : fresh nodes s < depth) :
    ∃ s', ts.foldlM f s = some s' ∧ Visited next report path ts s s' := by
  induction ts generalizing s with
  | nil =>
    exact ⟨s, rfl, hinv, fun _ _ ↦ rfl, id, fun _ h ↦ absurd h not_mem_nil,
      fun _ _ h ↦ absurd h not_mem_nil⟩
  | cons t ts ih =>
    obtain ⟨s₁, hs₁, hv₁⟩ := hf t mem_cons_self s hinv hdepth
    obtain ⟨s₂, hs₂, hv₂⟩ := ih (fun t ht ↦ hf t (mem_cons_of_mem _ ht)) hv₁.inv
      (hv₁.fresh_le.trans_lt hdepth)
    refine ⟨s₂, ?_, hv₁.cons hv₂⟩
    rw [foldlM_cons, hs₁]
    exact hs₂

/-! ### One visit -/

/-- An active node is reported. -/
theorem Inv.reported (h : Inv next report path s) (hpath : IsPath next (path ++ [u]))
    (hu : s.mark u = .active) :
    Visited next report path [u] s { s with errors := s.errors ++ [report (path ++ [u])] } := by
  have hne : s.errors ++ [report (path ++ [u])] ≠ [] := by simp
  refine ⟨⟨h.active, h.once, h.expanded, fun e he ↦ ?_, fun he ↦ absurd he hne,
    fun he ↦ absurd he hne⟩, fun _ _ ↦ rfl, fun he ↦ absurd he hne, fun v hv ↦ ?_,
    fun he ↦ absurd he hne⟩
  · rcases mem_append.1 he with he | he
    · exact h.reports e he
    · exact ⟨path, u, mem_singleton.1 he, hpath, (h.active u).1 hu⟩
  · rw [mem_singleton.1 hv]
    show s.mark u ≠ .new
    rw [hu]
    exact fun h ↦ by cases h

variable [DecidableEq α]

theorem fresh_enter_lt (hu : s.mark u = .new) (hmem : u ∈ nodes) :
    fresh nodes (s.enter u) < fresh nodes s := by
  refine Finset.card_lt_card (Finset.ssubset_iff_of_subset ?_ |>.2 ⟨u, ?_, ?_⟩)
  · refine Finset.monotone_filter_right nodes fun v _ hv ↦ ?_
    by_cases hvu : v = u
    · rwa [hvu]
    · rwa [s.enter_of_ne hvu] at hv
  · exact Finset.mem_filter.2 ⟨hmem, hu⟩
  · intro h
    have hnew := (Finset.mem_filter.1 h).2
    rw [s.enter_self] at hnew
    cases hnew

theorem Inv.enter (h : Inv next report path s) (hu : s.mark u = .new) :
    Inv next report (path ++ [u]) (s.enter u) := by
  have hfin : ∀ v, (s.enter u).mark v = .finished → s.mark v = .finished := by
    intro v hv
    by_cases hvu : v = u
    · rw [hvu, s.enter_self] at hv
      cases hv
    · rwa [s.enter_of_ne hvu] at hv
  refine ⟨fun v ↦ ?_, ?_, fun v ↦ ?_, h.reports, fun he v hv w hw ↦ ?_, fun he v hv ↦ ?_⟩
  · rw [mem_append, mem_singleton]
    by_cases hvu : v = u
    · rw [hvu, s.enter_self]
      exact iff_of_true rfl (.inr rfl)
    · rw [s.enter_of_ne hvu, h.active v, or_iff_left hvu]
  · refine nodup_append.2 ⟨h.once, nodup_singleton u, fun v hv w hw hvw ↦ ?_⟩
    rw [mem_singleton.1 hw] at hvw
    exact (h.expanded u).1 (hvw ▸ hv) hu
  · rw [show (s.enter u).expanded = s.expanded ++ [u] from rfl, mem_append,
      mem_singleton]
    by_cases hvu : v = u
    · rw [hvu, s.enter_self]
      exact iff_of_true (.inr rfl) fun h ↦ by cases h
    · rw [s.enter_of_ne hvu, h.expanded v, or_iff_left hvu]
  · have hw' := h.closed he v (hfin v hv) w hw
    rw [s.enter_of_ne (fun hwu ↦ by rw [hwu, hu] at hw'; cases hw'), hw']
  · exact h.acyclic he v (hfin v hv)

/-- **A node is left** when its targets have been visited. -/
theorem Visited.leave (h : Visited next report (path ++ [u]) (next u) (s.enter u) s')
    (hinv : Inv next report path s) (hu : s.mark u = .new) :
    Visited next report path [u] s (s'.leave u) := by
  have hnot : u ∉ path := fun hmem ↦ by
    have hact := (hinv.active u).2 hmem
    rw [hu] at hact
    cases hact
  have hactive : s'.mark u = .active :=
    (h.inv.active u).2 (mem_append_right _ (mem_singleton_self u))
  have hup : ∀ v, s'.mark v = .finished → (s'.leave u).mark v = .finished := by
    intro v hv
    by_cases hvu : v = u
    · rw [hvu, s'.leave_self]
    · rw [s'.leave_of_ne hvu, hv]
  have hdown : ∀ v, v ≠ u → (s'.leave u).mark v = .finished → s'.mark v = .finished := by
    intro v hvu hv
    rwa [s'.leave_of_ne hvu] at hv
  refine ⟨⟨fun v ↦ ?_, h.inv.once, fun v ↦ ?_, h.inv.reports, fun he v hv w hw ↦ ?_,
    fun he v hv ↦ ?_⟩, fun v hv ↦ ?_, h.errors, fun v hv ↦ ?_, fun _ v hv ↦ ?_⟩
  · by_cases hvu : v = u
    · rw [hvu, s'.leave_self]
      exact iff_of_false (fun h ↦ by cases h) hnot
    · rw [s'.leave_of_ne hvu, h.inv.active v, mem_append, mem_singleton, or_iff_left hvu]
  · rw [show (s'.leave u).expanded = s'.expanded from rfl, h.inv.expanded v]
    by_cases hvu : v = u
    · rw [hvu, s'.leave_self, hactive]
      exact iff_of_true (fun h ↦ by cases h) fun h ↦ by cases h
    · rw [s'.leave_of_ne hvu]
  · by_cases hvu : v = u
    · rw [hvu] at hw
      exact hup w (h.finished he w hw)
    · exact hup w (h.inv.closed he v (hdown v hvu hv) w hw)
  · by_cases hvu : v = u
    · -- from its targets the search has not come back to `u`, which is still active
      rw [hvu]
      intro hcycle
      have hreach := finished_of_transGen (h.inv.closed he) (h.finished he) hcycle
      rw [hactive] at hreach
      cases hreach
    · exact h.inv.acyclic he v (hdown v hvu hv)
  · have hvu : v ≠ u := fun hvu ↦ hv (hvu ▸ hu)
    rw [s'.leave_of_ne hvu, h.kept v (by rwa [s.enter_of_ne hvu]), s.enter_of_ne hvu]
  · rw [mem_singleton.1 hv, s'.leave_self]
    exact fun h ↦ by cases h
  · rw [mem_singleton.1 hv, s'.leave_self]

/-- **One visit**, with a bound that is larger than the number of new nodes. -/
theorem visit_spec (hnodes : ∀ u ∈ nodes, ∀ v ∈ next u, v ∈ nodes) (hu : u ∈ nodes)
    (hpath : IsPath next (path ++ [u])) (hinv : Inv next report path s)
    (hdepth : fresh nodes s < depth) :
    ∃ s', visit next report depth path s u = some s' ∧ Visited next report path [u] s s' := by
  induction depth generalizing path s u with
  | zero => exact absurd hdepth (Nat.not_lt_zero _)
  | succ depth ih =>
    rw [visit]
    cases hmark : s.mark u with
    | active => exact ⟨_, rfl, hinv.reported hpath hmark⟩
    | finished =>
      have hself : ∀ v ∈ [u], s.mark v = .finished := fun v hv ↦ by
        rwa [mem_singleton.1 hv]
      refine ⟨s, rfl, hinv, fun _ _ ↦ rfl, id, fun v hv ↦ ?_, fun _ ↦ hself⟩
      rw [hself v hv]
      exact fun h ↦ by cases h
    | new =>
      have hfresh := fresh_enter_lt hmark hu
      obtain ⟨s', hs', hvisited⟩ := foldlM_spec (fun t ht s₁ hinv₁ hlt ↦
        ih (hnodes u hu t ht) (hpath.concat ht) hinv₁ hlt) (hinv.enter hmark)
        (hfresh.trans_le (Nat.le_of_lt_succ hdepth))
      exact ⟨s'.leave u, by dsimp only; rw [hs']; rfl, hvisited.leave hinv hmark⟩

/-- **The search** of all nodes ends. It reports something if and only if there is a cycle, what it
reports are paths that come back to themselves, and it follows the edges of each node once. -/
theorem search_spec (next : α → List α) (report : List α → ε) {roots : List α}
    (hroots : ∀ u, ∀ v ∈ next u, u ∈ roots ∧ v ∈ roots) (hdepth : roots.length < depth) :
    ∃ s, search next report depth roots = some s ∧ (s.errors ≠ [] ↔ ∃ u, OnCycle next u) ∧
      (∀ e ∈ s.errors, ∃ p u, e = report (p ++ [u]) ∧ IsPath next (p ++ [u]) ∧ u ∈ p) ∧
      ∀ u ∈ roots, s.expanded.count u = 1 := by
  have hfresh : fresh roots.toFinset (⟨fun _ ↦ .new, [], []⟩ : Search α ε) < depth :=
    ((Finset.card_filter_le _ _).trans roots.toFinset_card_le).trans_lt hdepth
  obtain ⟨s, hs, hvisited⟩ := foldlM_spec (f := visit next report depth []) (fun t ht s hinv hlt ↦
    visit_spec (fun u _ v hv ↦ mem_toFinset.2 (hroots u v hv).2) (mem_toFinset.2 ht)
      (isChain_singleton t) hinv hlt) inv_start hfresh
  refine ⟨s, hs, ⟨fun he ↦ ?_, fun ⟨u, hcycle⟩ he ↦ ?_⟩, hvisited.inv.reports, fun u hu ↦ ?_⟩
  · obtain ⟨e, he⟩ := exists_mem_of_ne_nil _ he
    obtain ⟨p, u, -, hpath, hu⟩ := hvisited.inv.reports e he
    exact ⟨u, hpath.onCycle hu⟩
  · obtain ⟨v, hv, -⟩ := Relation.TransGen.head'_iff.1 hcycle
    have hu := (hroots u v hv).1
    exact hvisited.inv.acyclic he u (hvisited.finished he u hu) hcycle
  · exact count_eq_one_of_mem hvisited.inv.once
      ((hvisited.inv.expanded u).2 (hvisited.marked u hu))

end DepthFirst

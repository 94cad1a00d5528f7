import Xv6.Library.DepthFirst

/-!
# The curriculum's dependencies

`validate_acyclic_requires` of `docs/xv6-tutorial/tools/validate.py`: the units of the curriculum
require each other, and a cycle is an error. The function is the search of `DepthFirst`: its marks
are `state.get(unit_id)`, which is `None`, `1` or `2`, and what it reports is the text of the error.
Targets that are no units are skipped. The recursion is never deeper than there are units, which is
the bound it has here.
-/

namespace Xv6.Curriculum

open DepthFirst

/-- The dictionary of units, of which only the `requires` matter here. -/
structure Units where
  entries : List (String × List String)
  nodup_ids : (entries.map Prod.fst).Nodup

namespace Units

variable (units : Units)

def ids : List String := units.entries.map Prod.fst

/-- `units[unit_id]["requires"]` -/
def requires (unitId : String) : List String :=
  match units.entries.find? fun e ↦ e.1 = unitId with
  | some e => e.2
  | none => []

/-- The targets that are visited: those `in units`. -/
def targets (unitId : String) : List String :=
  (units.requires unitId).filter (· ∈ units.ids)

/-- The unit `u` requires the unit `v`. -/
def Requires (u v : String) : Prop := u ∈ units.ids ∧ v ∈ units.requires u ∧ v ∈ units.ids

theorem mem_targets {u v : String} : v ∈ units.targets u ↔ units.Requires u v := by
  rw [targets, List.mem_filter, decide_eq_true_iff, Requires]
  refine ⟨fun ⟨hv, hid⟩ ↦ ⟨?_, hv, hid⟩, And.right⟩
  rw [requires] at hv
  cases hfind : units.entries.find? fun e ↦ e.1 = u with
  | none =>
    rw [hfind] at hv
    exact absurd hv List.not_mem_nil
  | some e =>
    have hu := List.find?_some hfind
    exact List.mem_map.2 ⟨e, List.mem_of_find?_eq_some hfind, of_decide_eq_true hu⟩

end Units

/-- The text of an error. -/
def cycleMessage (path : List String) : String :=
  "requires cycle: " ++ " -> ".intercalate path

/-- The visits of all units. -/
def visitUnits (units : Units) : Option (Search String String) :=
  search units.targets cycleMessage (units.ids.length + 1) units.ids

/-- `validate_acyclic_requires`, which adds to the errors that there are. -/
def validateAcyclicRequires (units : Units) (errors : List String) : Option (List String) :=
  (visitUnits units).map (errors ++ ·.errors)

/-- **A cycle is reported if and only if there is one.** Each report is a path along `requires` that
ends in a unit which is on it already, and the `requires` of each unit are followed once. -/
theorem validateAcyclicRequires_exact (units : Units) (errors : List String) :
    ∃ s, visitUnits units = some s ∧
      validateAcyclicRequires units errors = some (errors ++ s.errors) ∧
      (s.errors ≠ [] ↔ ∃ u, Relation.TransGen units.Requires u u) ∧
      (∀ e ∈ s.errors, ∃ path u, e = cycleMessage (path ++ [u]) ∧
        (path ++ [u]).IsChain units.Requires ∧ u ∈ path) ∧
      ∀ u ∈ units.ids, s.expanded.count u = 1 := by
  have hedge : (fun u v ↦ v ∈ units.targets u) = units.Requires := by
    funext u v
    exact propext units.mem_targets
  obtain ⟨s, hs, hcycle, hpaths, honce⟩ := search_spec units.targets cycleMessage
    (fun u v hv ↦ ⟨(units.mem_targets.1 hv).1, (units.mem_targets.1 hv).2.2⟩)
    (Nat.lt_succ_self units.ids.length)
  simp only [OnCycle, IsPath, hedge] at hcycle hpaths
  refine ⟨s, hs, ?_, hcycle, hpaths, honce⟩
  rw [validateAcyclicRequires, visitUnits, hs]
  rfl

end Xv6.Curriculum

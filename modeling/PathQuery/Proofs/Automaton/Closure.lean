import PathQuery.Automaton.Closure
import PathQuery.Proofs.Automaton.Shape
import PathQuery.Proofs.Reachable

/-!
# Epsilon closures are exact

* `mem_epsilonClosure`: a state is in the closure of another one if and only if empty transitions
  lead to it;
* `Indexed.withClosures`: the table that is kept is the right one.
-/

namespace PathQuery
namespace Automaton

/-- One empty transition. -/
def Bridged (a : Automaton) (s t : StateId) : Prop :=
  bridge s t ∈ a.transitions

variable {a : Automaton}

theorem mem_epsilonTargets (ha : a.Indexed) {s t : StateId} :
    t ∈ a.epsilonTargets s ↔ a.Bridged s t := by
  simp only [epsilonTargets, List.mem_filterMap, ha.mem_outTransitions]
  constructor
  · rintro ⟨⟨s', t', symbol⟩, ⟨hmem, rfl⟩, ht⟩
    split at ht
    · rename_i hsymbol
      obtain rfl := Option.some.inj ht
      cases symbol with
      | epsilon => exact hmem
      | step _ => exact absurd hsymbol Bool.false_ne_true
      | stepAlong _ _ => exact absurd hsymbol Bool.false_ne_true
    · cases ht
  · intro h
    exact ⟨bridge s t, ⟨h, rfl⟩, rfl⟩

/-- Nothing is beyond the states, so the search has rounds enough. -/
theorem epsilonTargets_lt (ha : a.Indexed) {s : StateId} (hs : a.epsilonTargets s ≠ []) :
    s < a.stateCount := by
  rcases List.exists_mem_of_ne_nil _ hs with ⟨t, ht⟩
  exact ha.source_lt ((mem_epsilonTargets ha).1 ht)

theorem mem_closureOf (ha : a.Indexed) {s t : StateId} :
    t ∈ a.closureOf s ↔ Relation.ReflTransGen a.Bridged s t := by
  have hsame : NextStep a.epsilonTargets = a.Bridged := by
    funext s t
    exact propext (mem_epsilonTargets ha)
  rw [closureOf, IdSet.mem_ofList, ← hsame]
  exact mem_reachableFrom (fun _ => epsilonTargets_lt ha) (Nat.le_refl _)

theorem closureTable_eq (ha : a.Indexed) :
    a.closureTable = a.states.map fun state => a.closureOf state.id := by
  unfold closureTable
  split
  · rename_i table htable
    exact ha.closures_eq htable
  · rfl

theorem mem_epsilonClosure (ha : a.Indexed) {s t : StateId} (hs : s < a.stateCount) :
    t ∈ a.epsilonClosure s ↔ Relation.ReflTransGen a.Bridged s t := by
  rcases exists_state a hs with ⟨state, hstate⟩
  rw [epsilonClosure, closureTable_eq ha, Array.getElem?_map, hstate, Option.map_some,
    Option.getD_some, mem_closureOf ha, ha.id_eq hstate]

theorem Indexed.withClosures (ha : a.Indexed) : a.withClosures.Indexed := by
  refine { ha with closures_eq := ?_ }
  intro table h
  rw [← Option.some.inj h]
  exact closureTable_eq ha

theorem bridged_lt (ha : a.Indexed) {s t : StateId} (h : Relation.ReflTransGen a.Bridged s t)
    (hs : s < a.stateCount) : t < a.stateCount := by
  induction h with
  | refl => exact hs
  | tail _ ht _ => exact ha.target_lt ht

end Automaton
end PathQuery

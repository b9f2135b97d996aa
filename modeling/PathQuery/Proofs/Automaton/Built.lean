import PathQuery.Proofs.Automaton.Language
import PathQuery.Proofs.Automaton.Trim

/-!
# Built automata

* `Automaton.Built`: what the operations make out of the automata of the empty path and of one
  step;
* `Built.wellFormed`, `Built.trim`: the invariant that every operation keeps;
* `Automaton.Sound`: what this says about states, their lists, the check and the building itself;
* `Built.sound`: all of it holds of every built automaton.
-/

namespace PathQuery
namespace Automaton

/-- Serials are drawn from a supply that can be anywhere. -/
inductive Built : Automaton → Prop where
  | epsilon (n : Nat) : Built (epsilon n).1
  | single (symbol : Symbol) (n : Nat) : Built (single symbol n).1
  | concat {a b : Automaton} : Built a → Built b → Built (a.concat b)
  | union {a b : Automaton} (n : Nat) : Built a → Built b → Built (a.union b n).1
  | star {a : Automaton} (n : Nat) : Built a → Built (a.star n).1
  | plus {a : Automaton} (n : Nat) : Built a → Built (a.plus n).1
  | optional {a : Automaton} (n : Nat) : Built a → Built (a.optional n).1
  | power {a : Automaton} (count n : Nat) : Built a → Built (a.power count n).1
  | reverse {a : Automaton} (n : Nat) : Built a → Built (a.reverse n).1
  | copy {a : Automaton} (register : Bool) (n : Nat) : Built a → Built (a.copy register n).1
  | dedupTransitions {a : Automaton} : Built a → Built a.dedupTransitions.2

structure Sound (a : Automaton) : Prop where
  /-- No building step was refused, so no empty transition was to link a state with itself. -/
  fault_eq : a.fault = none
  validate_eq : a.validate = none
  id_eq {s : StateId} {state : State} : a.states[s]? = some state → state.id = s
  out_ascending {s : StateId} {state : State} :
    a.states[s]? = some state → state.out.Pairwise (· < ·)
  mem_out {s : StateId} {state : State} {i : Nat} : a.states[s]? = some state →
    (i ∈ state.out ↔ ∃ t, a.transitions[i]? = some t ∧ t.source = s)
  inc_ascending {s : StateId} {state : State} :
    a.states[s]? = some state → state.inc.Pairwise (· < ·)
  mem_inc {s : StateId} {state : State} {i : Nat} : a.states[s]? = some state →
    (i ∈ state.inc ↔ ∃ t, a.transitions[i]? = some t ∧ t.target = s)
  exists_final : ∃ f, a.isFinal f = true
  reached {s : StateId} : s < a.stateCount → a.Leads a.initial s
  finishes {s : StateId} : s < a.stateCount → ∃ f, a.isFinal f = true ∧ a.Leads s f

variable {a : Automaton}

/-- The transitions whose end on the given side is a state. -/
theorem mem_incident_transitions {side : Transition → StateId} {s : StateId} {i : Nat} :
    i ∈ incident a.transitions.size (fun i => a.transitions[i]?.map side) s ↔
      ∃ t, a.transitions[i]? = some t ∧ side t = s := by
  rw [mem_incident, Option.map_eq_some_iff, and_iff_right_iff_imp]
  rintro ⟨t, ht, _⟩
  exact (Array.getElem?_eq_some_iff.1 ht).1

theorem WellFormed.sound (ha : a.WellFormed) (htrim : a.Trim) : a.Sound where
  fault_eq := ha.fault_eq
  validate_eq := validate_eq_none ha (htrim.accepting ha)
  id_eq := ha.id_eq
  out_ascending hs := by
    rw [ha.out_eq hs]
    exact pairwise_incident
  mem_out hs := by
    rw [ha.out_eq hs]
    exact mem_incident_transitions
  inc_ascending hs := by
    rw [ha.inc_eq hs]
    exact pairwise_incident
  mem_inc hs := by
    rw [ha.inc_eq hs]
    exact mem_incident_transitions
  exists_final := (htrim.accepting ha).exists_final
  reached := htrim.reached
  finishes := htrim.finishes

theorem reverse_wellFormed (ha : a.WellFormed) (n : Nat) : (a.reverse n).1.WellFormed := by
  rcases reverse_shape ha n with ⟨_, _, hshape⟩ | hshape
  · exact hshape.wellFormed
  · exact hshape.wellFormed

namespace Built

theorem wellFormed (h : a.Built) : a.WellFormed := by
  induction h with
  | epsilon n => exact (epsilon_shape n).wellFormed
  | single symbol n => exact (single_shape symbol n).wellFormed
  | concat _ _ iha ihb => exact (concat_shape iha ihb).wellFormed
  | union n _ _ iha ihb => exact (union_shape iha ihb n).wellFormed
  | star n _ ih => exact (iterate_shape ih true n).wellFormed
  | plus n _ ih => exact (iterate_shape ih false n).wellFormed
  | optional n _ ih => exact (optional_shape ih n).wellFormed
  | power count n _ ih => exact power_wellFormed ih count n
  | reverse n _ ih => exact reverse_wellFormed ih n
  | copy register n _ ih => exact (copy_shape ih register n).wellFormed
  | dedupTransitions _ ih => exact (dedupTransitions_shape ih).wellFormed

theorem trim (h : a.Built) : a.Trim := by
  induction h with
  | epsilon n => exact epsilon_trim n
  | single symbol n => exact single_trim symbol n
  | concat ha hb iha ihb => exact concat_trim ha.wellFormed hb.wellFormed iha ihb
  | union n ha hb iha ihb => exact union_trim ha.wellFormed hb.wellFormed iha ihb n
  | star n ha ih => exact iterate_trim ha.wellFormed ih true n
  | plus n ha ih => exact iterate_trim ha.wellFormed ih false n
  | optional n ha ih => exact optional_trim ha.wellFormed ih n
  | power count n ha ih => exact power_trim ha.wellFormed ih count n
  | reverse n ha ih => exact reverse_trim ha.wellFormed ih n
  | copy register n ha ih => exact copy_trim ha.wellFormed ih register n
  | dedupTransitions ha ih => exact dedupTransitions_trim ha.wellFormed ih

theorem sound (h : a.Built) : a.Sound :=
  h.wellFormed.sound h.trim

end Built

end Automaton
end PathQuery

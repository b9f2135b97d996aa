import PathQuery.Path.Traversal
import PathQuery.Proofs.Automaton.Twin

/-!
# Traversals do not see serials

* `Automaton.VisitsAlike`: two automata start in the same states, and arrive in the same ones;
* `VisitsAlike.seed_eq`, `VisitsAlike.takeEdge_eq`: what a traversal does with them is the same,
  until it looks at what leaves a state;
* `Twin.traverse_eq`, `Twin.reachable_eq`, `Twin.connects_eq`, `Twin.pathSystem_eq`: a traversal of
  a twin is the same computation.
-/

namespace PathQuery
namespace Automaton

variable {m : Type → Type} [Monad m] [MonadExceptOf Failure m] {a b : Automaton}

/-! ## Visits -/

/-- All that a traversal asks of an automaton but the transitions that leave a state. -/
structure VisitsAlike (a b : Automaton) : Prop where
  initial_eq : a.initial = b.initial
  missing_eq : a.missing = b.missing
  isFinal_eq : a.isFinal = b.isFinal
  epsilonClosure_eq : a.epsilonClosure = b.epsilonClosure

namespace VisitsAlike

variable (h : VisitsAlike a b)
include h

theorem visit_eq (limits : Limits) (v : Nat) (step : PathStep) (search : Search) (s : StateId) :
    (Traversal.visit limits a v step search s : m Search) =
      Traversal.visit limits b v step search s := by
  unfold Traversal.visit Traversal.record
  rw [h.isFinal_eq]

theorem visitAll_eq (limits : Limits) (v : Nat) (step : PathStep) :
    (Traversal.visitAll limits a v step : Search → IdSet → m Search) =
      Traversal.visitAll limits b v step := by
  funext search states
  have hvisit : (Traversal.visit limits a v step : Search → StateId → m Search) =
      Traversal.visit limits b v step := by
    funext search s
    exact h.visit_eq limits v step search s
  unfold Traversal.visitAll
  rw [hvisit]

theorem seed_eq (limits : Limits) (g : Graph) (start : IdSet) :
    (Traversal.seed limits a g start : m Search) = Traversal.seed limits b g start := by
  have hinitial : (Traversal.initialStates a : m IdSet) = Traversal.initialStates b := by
    unfold Traversal.initialStates
    rw [h.missing_eq, h.initial_eq, h.epsilonClosure_eq]
  unfold Traversal.seed
  simp only [h.visitAll_eq, hinitial]

theorem takeEdge_eq (accepts : Transition → Nat → Incidence → m Bool) (limits : Limits)
    (g : Graph) (p : Pair) :
    Traversal.takeEdge accepts limits a g p = Traversal.takeEdge accepts limits b g p := by
  funext t search e
  unfold Traversal.takeEdge
  simp only [h.visitAll_eq, h.epsilonClosure_eq]

end VisitsAlike

/-! ## Twins -/

namespace Twin

variable {P : Symbol → Prop} (h : Twin P a b)
include h

theorem visitsAlike : VisitsAlike a b where
  initial_eq := h.initial
  missing_eq := h.missing_eq
  isFinal_eq := h.isFinal_eq
  epsilonClosure_eq := h.epsilonClosure_eq

section Tests

variable (accepts : Transition → Nat → Incidence → m Bool)

theorem expand_eq (limits : Limits) (g : Graph) (directionOf : List Transition → Direction)
    (p : Pair) (search : Search) :
    Traversal.expand accepts limits a g directionOf p search =
      Traversal.expand accepts limits b g directionOf p search := by
  unfold Traversal.expand
  simp only [h.outTransitions_eq, h.visitsAlike.takeEdge_eq]

theorem run_eq (limits : Limits) (g : Graph) (directionOf : List Transition → Direction)
    (bound i : Nat) (search : Search) :
    Traversal.run accepts limits a g directionOf bound i search =
      Traversal.run accepts limits b g directionOf bound i search :=
  Traversal.run_congr (h.expand_eq accepts limits g directionOf) bound i search

theorem traverse_eq (limits : Limits) (g : Graph) (start : IdSet) :
    Traversal.traverse accepts limits a g start = Traversal.traverse accepts limits b g start := by
  have hclosed := h.withClosures
  unfold Traversal.traverse Traversal.traverseVia
  simp only [hclosed.visitsAlike.seed_eq, hclosed.stateCount_eq, hclosed.run_eq]

theorem reachable_eq (limits : Limits) (g : Graph) (start : IdSet) :
    Traversal.reachable accepts limits a g start =
      Traversal.reachable accepts limits b g start := by
  unfold Traversal.reachable
  rw [h.traverse_eq]

theorem connects_eq (limits : Limits) (g : Graph) (start target : IdSet) :
    Traversal.connects accepts limits a g start target =
      Traversal.connects accepts limits b g start target := by
  unfold Traversal.connects
  rw [h.reachable_eq]

theorem pathSystem_eq (limits : Limits) (g : Graph) (start : IdSet) :
    Traversal.pathSystem accepts limits a g start =
      Traversal.pathSystem accepts limits b g start := by
  unfold Traversal.pathSystem
  rw [h.traverse_eq, h.finals_eq]

end Tests

end Twin

end Automaton
end PathQuery

import PathQuery.Path.Traversal
import PathQuery.Proofs.Automaton.Relabel
import PathQuery.Proofs.Graph.WellFormed

/-!
# What traversals do not see

A traversal looks at constraints through the test of its transitions only, apart from their
directions, and at a graph through its incidences and its vertices.

* `Traversal.traverse_map`: constraints can be replaced in the automaton or in the test;
* `SameData.traverse_eq`: names, types and attributes can be replaced.
-/

namespace PathQuery

variable {m : Type → Type} [Monad m] [MonadExceptOf Failure m]
  (accepts : Transition → Nat → Incidence → m Bool) (limits : Limits)

/-! ## Other constraints -/

namespace Traversal

variable (φ : Relabeling) (a : Automaton)

theorem incidenceDirection_map (ts : List Transition) :
    incidenceDirection (ts.map (Transition.map φ)) = incidenceDirection ts := by
  have hdirections : (ts.map (Transition.map φ)).map (·.symbol.constraint.map (·.direction)) =
      ts.map (·.symbol.constraint.map (·.direction)) := by
    rw [List.map_map]
    exact List.map_congr_left fun t _ => t.symbol.direction_map φ
  unfold incidenceDirection
  rw [hdirections]

theorem expand_map (g : Graph) (p : Pair) (search : Search) :
    expand accepts limits (a.map φ) g incidenceDirection p search =
      expand (fun t => accepts (t.map φ)) limits a g incidenceDirection p search := by
  have htake : ∀ t : Transition, takeEdge accepts limits (a.map φ) g p (t.map φ) =
      takeEdge (fun t => accepts (t.map φ)) limits a g p t := by
    intro t
    funext search e
    unfold takeEdge
    rw [Automaton.epsilonClosure_map]
    rfl
  have hconsuming : (fun t : Transition => !(t.map φ).symbol.isEpsilon) =
      fun t => !t.symbol.isEpsilon := by
    funext t
    exact congrArg (! ·) (t.symbol.isEpsilon_map φ)
  -- The same transitions are tried on the same edges, each with its constraint replaced.
  unfold expand
  simp only [Automaton.outTransitions_map, List.filter_map, Function.comp_def, hconsuming,
    incidenceDirection_map, List.foldlM_map, htake]

theorem run_map (g : Graph) (bound i : Nat) (search : Search) :
    run accepts limits (a.map φ) g incidenceDirection bound i search =
      run (fun t => accepts (t.map φ)) limits a g incidenceDirection bound i search :=
  run_congr (expand_map accepts limits φ a g) bound i search

theorem seed_map (g : Graph) (start : IdSet) :
    (seed limits (a.map φ) g start : m Search) = seed limits a g start := by
  unfold seed initialStates
  simp only [Automaton.initial_map, Automaton.missing_map, Automaton.epsilonClosure_map]
  rfl

theorem traverse_map (g : Graph) (start : IdSet) :
    traverse accepts limits (a.map φ) g start =
      traverse (fun t => accepts (t.map φ)) limits a g start := by
  unfold traverse traverseVia
  simp only [← Automaton.map_withClosures, seed_map, run_map, Automaton.stateCount_map]

end Traversal

/-! ## Other names and types -/

namespace Graph.SameData

open Traversal

variable {g g' : Graph} (h : SameData g g') (a : Automaton)
include h

theorem incidences_eq : g'.incidences = g.incidences := by
  funext v d
  unfold incidences
  rw [h.vertexData]

theorem run_eq (directionOf : List Transition → Direction) (bound i : Nat) (search : Search) :
    run accepts limits a g' directionOf bound i search =
      run accepts limits a g directionOf bound i search := by
  refine run_congr ?_ bound i search
  intro p search
  unfold expand takeEdge
  rw [h.incidences_eq, h.that_eq]

theorem traverse_eq (start : IdSet) :
    Traversal.traverse accepts limits a g' start = Traversal.traverse accepts limits a g start := by
  have hcount : g'.vertexCount = g.vertexCount := congrArg Array.size h.vertexData
  have hseed : ∀ b : Automaton, (seed limits b g' start : m Search) = seed limits b g start := by
    intro b
    have hcontains : g'.containsVertex = g.containsVertex := by
      funext v
      rw [containsVertex, containsVertex, hcount]
    unfold seed
    rw [hcontains]
  unfold Traversal.traverse traverseVia
  simp only [hseed, hcount, h.run_eq]

end Graph.SameData

end PathQuery

import PathQuery.Graph.Incidence
import PathQuery.Automaton.Basic

/-!
# Visited pairs

A traversal moves over pairs of a vertex and a state.

* `PathStep`: how a pair was first reached;
* `Visits`: the pairs reached so far, one row for each vertex.
-/

namespace PathQuery

structure PathStep where
  /-- The pair from which the edge was taken, and the edge; nothing for a pair at which the
  traversal started. -/
  origin : Option ((Nat × StateId) × Incidence)
  /-- How many edges were taken so far. -/
  hops : Nat
  deriving DecidableEq, Repr

/-- A row holds a step for every state in which its vertex was reached. -/
structure Visits where
  rows : Array (Array (Option PathStep)) := #[]
  deriving Repr

namespace Visits

def find (visits : Visits) (v : Nat) (s : StateId) : Option PathStep := do
  let row ← visits.rows[v]?
  let entry ← row[s]?
  entry

def contains (visits : Visits) (v : Nat) (s : StateId) : Bool :=
  (visits.find v s).isSome

/-- The array, with fillers added up to and including a place. -/
def extend {α : Type} (xs : Array α) (place : Nat) (filler : α) : Array α :=
  xs ++ Array.replicate (place + 1 - xs.size) filler

def insert (visits : Visits) (v : Nat) (s : StateId) (step : PathStep) : Visits :=
  ⟨(extend visits.rows v #[]).modify v fun row => (extend row s none).set! s (some step)⟩

end Visits

end PathQuery

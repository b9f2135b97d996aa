import PathQuery.Path.Visits

/-!
# Path systems

A path system answers, for every vertex that a traversal accepted, one shortest accepted path.

* `PathSystem.distance`: its number of edges;
* `PathSystem.pathTo`: its edges, from the root on;
* `PathSystem.rootOf`: the vertex at which it starts.
-/

namespace PathQuery

structure PathSystem where
  roots : IdSet
  /-- The vertices that were reached in a final state. -/
  reachable : IdSet
  visits : Visits
  finals : List StateId
  deriving Repr

namespace PathSystem

def contains (ps : PathSystem) (v : Nat) : Bool :=
  ps.reachable.contains v

/-- Of two ways to reach a vertex the one with fewer edges, then the one with the lower state. -/
def better (x y : Nat × StateId) : Bool :=
  x.1 < y.1 || (x.1 == y.1 && x.2 ≤ y.2)

def best : List (Nat × StateId) → Option (Nat × StateId)
  | [] => none
  | x :: xs =>
    match best xs with
    | none => some x
    | some y => some (if better x y then x else y)

/-- The number of edges and the final state of the best way to reach a vertex. -/
def bestFinal (ps : PathSystem) (v : Nat) : Option (Nat × StateId) :=
  best <| ps.finals.filterMap fun f => (ps.visits.find v f).map fun step => (step.hops, f)

def distance (ps : PathSystem) (v : Nat) : Option Nat :=
  (ps.bestFinal v).map (·.1)

/-- Goes back from a pair towards the start: the vertex where the way ends and the edges on it,
put before those already known.  A way that started so many hops ago ends within the bound. -/
def traceBack (ps : PathSystem) : Nat → Nat → StateId → List Incidence → Nat × List Incidence
  | 0, v, _, edges => (v, edges)
  | bound + 1, v, s, edges =>
    match (ps.visits.find v s).bind (·.origin) with
    | none => (v, edges)
    | some ((u, r), e) => ps.traceBack bound u r (e :: edges)

def trace (ps : PathSystem) (v : Nat) : Option (Nat × List Incidence) :=
  (ps.bestFinal v).map fun (hops, f) => ps.traceBack hops v f []

def pathTo (ps : PathSystem) (v : Nat) : Option (List Incidence) :=
  (ps.trace v).map (·.2)

def rootOf (ps : PathSystem) (v : Nat) : Option Nat :=
  (ps.trace v).map (·.1)

end PathSystem

end PathQuery

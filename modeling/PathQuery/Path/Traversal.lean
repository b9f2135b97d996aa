import PathQuery.Automaton.Closure
import PathQuery.Automaton.Compose
import PathQuery.Error
import PathQuery.Path.System

/-!
# Traversal — running an automaton over a graph

A breadth-first search over pairs of a vertex and a state.  A pair is visited at most once, when it
is first reached, and the pairs are expanded in the order of their visits; so they are reached in
the order of their hops.

* `Limits`: bounds on the hops and on the number of visited pairs;
* `Search`: the state of the search;
* `run_congr`: a search is determined by how pairs are expanded;
* `traverse`: the whole search;
* `reachable`, `connects`, `pathSystem`: what it is used for.

Whether an edge may be taken is decided by a test with effects of its own, so everything here is
over a monad in which failures can be thrown.
-/

namespace PathQuery

structure Limits where
  /-- The largest number of edges on a path. -/
  maxHops : Option Nat := none
  /-- The largest number of visited pairs. -/
  maxVisited : Option Nat := none
  deriving DecidableEq, Repr

structure Pair where
  vertex : Nat
  state : StateId
  hops : Nat
  deriving DecidableEq, Repr

structure Search where
  visits : Visits := {}
  /-- The visited pairs in the order of their visits. -/
  queue : Array Pair := #[]
  accepted : IdSet := .empty
  deriving Repr

namespace Limits

/-- Whether so many visits are too many. -/
def exceededBy (limits : Limits) (visited : Nat) : Option Nat :=
  limits.maxVisited.filter (· < visited)

/-- Whether a path with so many edges may not grow. -/
def stopsAt (limits : Limits) (hops : Nat) : Bool :=
  limits.maxHops.any (· ≤ hops)

end Limits

namespace Traversal

variable {m : Type → Type} [Monad m] [MonadExceptOf Failure m]

/-- Which incidences can be met by some of the transitions. -/
def incidenceDirection (ts : List Transition) : Direction :=
  let directions := ts.map fun t => t.symbol.constraint.map (·.direction)
  if directions.all (· == some .outgoing) && !directions.isEmpty then .outgoing
  else if directions.all (· == some .incoming) && !directions.isEmpty then .incoming
  else .any

/-! ## One visit -/

def record (a : Automaton) (search : Search) (v : Nat) (s : StateId) (step : PathStep) :
    Search where
  visits := search.visits.insert v s step
  queue := search.queue.push ⟨v, s, step.hops⟩
  accepted := if a.isFinal s then search.accepted.insert v else search.accepted

def visit (limits : Limits) (a : Automaton) (v : Nat) (step : PathStep) (search : Search)
    (s : StateId) : m Search :=
  if search.visits.contains v s then pure search
  else
    match limits.exceededBy (search.queue.size + 1) with
    | some limit => throw (Failure.error (.traversalLimit limit))
    | none => pure (record a search v s step)

def visitAll (limits : Limits) (a : Automaton) (v : Nat) (step : PathStep) (search : Search)
    (states : IdSet) : m Search :=
  states.toList.foldlM (visit limits a v step) search

/-! ## Expansion -/

section Expansion

variable (accepts : Transition → Nat → Incidence → m Bool)

/-- Takes an edge by a transition, if the transition accepts it. -/
def takeEdge (limits : Limits) (a : Automaton) (g : Graph) (p : Pair) (t : Transition)
    (search : Search) (e : Incidence) : m Search := do
  if ← accepts t p.vertex e then
    match g.that e with
    | none => pure search
    | some w =>
      visitAll limits a w ⟨some ((p.vertex, p.state), e), p.hops + 1⟩ search
        (a.epsilonClosure t.target)
  else pure search

/-- Tries every consuming transition of the pair's state on every incidence of its vertex. -/
def expand (limits : Limits) (a : Automaton) (g : Graph)
    (directionOf : List Transition → Direction) (p : Pair) (search : Search) : m Search :=
  let consuming := (a.outTransitions p.state).filter fun t => !t.symbol.isEpsilon
  let incidences := g.incidences p.vertex (directionOf consuming)
  consuming.foldlM
    (fun search t => incidences.foldlM (takeEdge accepts limits a g p t) search)
    search

/-- Expands the pairs of the queue from a place on.  No more pairs can be visited than there are,
which bounds the number of expansions. -/
def run (limits : Limits) (a : Automaton) (g : Graph)
    (directionOf : List Transition → Direction) : Nat → Nat → Search → m Search
  | 0, _, search => pure search
  | bound + 1, i, search =>
    match search.queue[i]? with
    | none => pure search
    | some p =>
      if limits.stopsAt p.hops then run limits a g directionOf bound (i + 1) search
      else do
        let search ← expand accepts limits a g directionOf p search
        run limits a g directionOf bound (i + 1) search

/-- What expands every pair in the same way runs in the same way. -/
theorem run_congr {accepts accepts' : Transition → Nat → Incidence → m Bool} {limits : Limits}
    {a b : Automaton} {g h : Graph} {directionOf directionOf' : List Transition → Direction}
    (hexpand : ∀ p search, expand accepts limits a g directionOf p search =
      expand accepts' limits b h directionOf' p search)
    (bound i : Nat) (search : Search) :
    run accepts limits a g directionOf bound i search =
      run accepts' limits b h directionOf' bound i search := by
  induction bound generalizing i search with
  | zero => rfl
  | succ bound ih =>
    unfold run
    simp only [ih, hexpand]

/-- The states in which a traversal starts.  It is abandoned if the initial state is missing. -/
def initialStates (a : Automaton) : m IdSet :=
  match a.missing a.initial with
  | some fault => throw (Failure.panic (some fault.message))
  | none => pure (a.epsilonClosure a.initial)

/-- Visits the initial closure at every start vertex of the graph. -/
def seed (limits : Limits) (a : Automaton) (g : Graph) (start : IdSet) : m Search :=
  (start.toList.filter g.containsVertex).foldlM
    (fun search v => do visitAll limits a v ⟨none, 0⟩ search (← initialStates a))
    {}

def traverseVia (directionOf : List Transition → Direction) (limits : Limits) (a : Automaton)
    (g : Graph) (start : IdSet) : m Search := do
  let a := a.withClosures
  let search ← seed limits a g start
  run accepts limits a g directionOf (g.vertexCount * a.stateCount) 0 search

def traverse (limits : Limits) (a : Automaton) (g : Graph) (start : IdSet) : m Search :=
  traverseVia accepts incidenceDirection limits a g start

/-! ## Uses -/

/-- The vertices at the end of an accepted path from a start vertex. -/
def reachable (limits : Limits) (a : Automaton) (g : Graph) (start : IdSet) : m IdSet := do
  let search ← traverse accepts limits a g start
  pure search.accepted

/-- Whether an accepted path leads from a start vertex to a target.  Without targets nothing is
traversed. -/
def connects (limits : Limits) (a : Automaton) (g : Graph) (start target : IdSet) : m Bool := do
  if target.isEmpty then pure false
  else
    let found ← reachable accepts limits a g start
    pure !(found.inter target).isEmpty

def pathSystem (limits : Limits) (a : Automaton) (g : Graph) (start : IdSet) : m PathSystem := do
  let search ← traverse accepts limits a g start
  pure
    { roots := start, reachable := search.accepted, visits := search.visits, finals := a.finals }

end Expansion

end Traversal

end PathQuery

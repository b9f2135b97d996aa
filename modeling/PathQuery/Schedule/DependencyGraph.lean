import PathQuery.Query

/-!
# Batches of queries

A batch holds named queries and says which of them need the results of which others.

* `Body`: what a query of a batch does when it runs;
* `DependencyGraph.addQuery`, `DependencyGraph.addDependency`: how a batch is put together;
* `DependencyGraph.emptied`: the batch while its bodies are elsewhere;
* `DependencyGraph.topologicalOrder`: an order in which every query comes after those it depends
  on, or the names of the queries for which there is none.
-/

namespace PathQuery

/-! ## Bodies -/

/-- What a procedure answers can depend on how many times it ran before. -/
structure Procedure where
  act : Nat → Graph → SharedEnvironment → Except Failure Value
  runs : Nat := 0

namespace Procedure

def constant (value : Value) : Procedure where
  act _ _ _ := .ok value

/-- Answers the result that another query has published. -/
def shared (name : String) : Procedure where
  act _ _ env :=
    match env.get name with
    | some value => .ok value
    | none => .error (.error (.unresolvedVariable name))

end Procedure

inductive Body where
  | query (q : Query)
  | procedure (p : Procedure)

namespace Body

/-- The outcome, the body to be run the next time, and the rest of the supply. -/
def run (body : Body) (g : Graph) (env : SharedEnvironment) (supply : Supply) :
    Except Failure Value × Body × Supply :=
  match body with
  | query q =>
    let (outcome, q, supply) := q.run g env supply
    (outcome, query q, supply)
  | procedure p => (p.act p.runs g env, procedure { p with runs := p.runs + 1 }, supply)

end Body

/-! ## Dependencies -/

structure QueryNode where
  name : String
  /-- Absent while the batch runs. -/
  body : Option Body
  /-- The queries that depend on this one. -/
  successors : List Nat := []
  /-- The queries on which this one depends. -/
  predecessors : List Nat := []

/-- The queries in the order in which they were added. -/
structure DependencyGraph where
  nodes : Array QueryNode := #[]

namespace DependencyGraph

def size (dag : DependencyGraph) : Nat :=
  dag.nodes.size

def names (dag : DependencyGraph) : List String :=
  dag.nodes.toList.map (·.name)

def find (dag : DependencyGraph) (name : String) : Option Nat :=
  dag.names.idxOf? name

def contains (dag : DependencyGraph) (name : String) : Bool :=
  (dag.find name).isSome

def position (dag : DependencyGraph) (name : String) : Except EvalError Nat :=
  match dag.find name with
  | some i => .ok i
  | none => .error (.unknownQuery name)

def nameOf (dag : DependencyGraph) (i : Nat) : String :=
  (dag.nodes[i]?.map (·.name)).getD ""

def successorsOf (dag : DependencyGraph) (i : Nat) : List Nat :=
  (dag.nodes[i]?.map (·.successors)).getD []

def addQuery (dag : DependencyGraph) (name : String) (body : Body) :
    Except EvalError DependencyGraph :=
  if dag.contains name then .error (.duplicateQuery name)
  else .ok ⟨dag.nodes.push { name, body := some body }⟩

/-- The successor may start only after the predecessor has finished. -/
def addDependency (dag : DependencyGraph) (successor predecessor : String) :
    Except EvalError DependencyGraph := do
  let s ← dag.position successor
  let p ← dag.position predecessor
  if (dag.successorsOf p).contains s then pure dag
  else
    let nodes := dag.nodes.modify p fun node => { node with successors := node.successors ++ [s] }
    pure ⟨nodes.modify s fun node => { node with predecessors := node.predecessors ++ [p] }⟩

/-- What is left when the bodies are taken out. -/
def emptied (dag : DependencyGraph) : DependencyGraph :=
  ⟨dag.nodes.map fun node => { node with body := none }⟩

def dependenciesOf (dag : DependencyGraph) (name : String) : Except EvalError (List String) := do
  let i ← dag.position name
  pure (((dag.nodes[i]?.map (·.predecessors)).getD []).map dag.nameOf)

/-! ## Order -/

/-- For every query the number of queries that it waits for. -/
def indegrees (dag : DependencyGraph) : Array Int :=
  dag.nodes.map fun node => (node.predecessors.length : Int)

/-- The queries that wait for nothing. -/
def roots (indegree : Array Int) : List Nat :=
  (List.range indegree.size).filter fun i => indegree[i]? == some 0

/-- Counts down one waiting query and notes it if it now waits for nothing. -/
def release (state : Array Int × List Nat) (s : Nat) : Array Int × List Nat :=
  let indegree := state.1.modify s (· - 1)
  (indegree, if indegree[s]? == some 0 then state.2 ++ [s] else state.2)

/-- Takes queries that wait for nothing until there are none; the order in which they were taken,
and how many others each query still waits for. -/
def eliminate (dag : DependencyGraph) :
    Nat → List Nat → Array Int → List Nat → List Nat × Array Int
  | 0, _, indegree, order => (order, indegree)
  | _, [], indegree, order => (order, indegree)
  | bound + 1, i :: queue, indegree, order =>
    let (indegree, freed) := (dag.successorsOf i).foldl release (indegree, [])
    eliminate dag bound (queue ++ freed) indegree (order ++ [i])

def topologicalOrder (dag : DependencyGraph) : Except EvalError (List String) :=
  let (order, indegree) := dag.eliminate dag.size (roots dag.indegrees) dag.indegrees []
  if order.length < dag.size then
    let left := (List.range dag.size).filter fun i => indegree[i]?.any (0 < ·)
    .error (.cyclicDependency (left.map dag.nameOf))
  else .ok (order.map dag.nameOf)

end DependencyGraph

end PathQuery

import PathQuery.Evaluation.Evaluator

/-!
# Queries

A query is a node of a syntax graph with a cache, variables and limits of its own.

* `Query.evaluate`: the value of the node, with what is known already;
* `Query.reset`: forgets what is known;
* `Query.run`: the value from scratch;
* `Query.isStale`: whether the graph has changed since the last value.
-/

namespace PathQuery

structure Query where
  nodes : SyntaxGraph
  root : NodeId
  cache : Cache := {}
  bindings : Bindings := {}
  functions : FunctionLibrary := .builtin
  limits : Limits := {}
  /-- The version of the graph at the last evaluation that answered a value. -/
  evaluatedAt : Option Nat := none

namespace Query

/-- Known results are kept. -/
def bind (q : Query) (name : String) (value : Value) : Query :=
  { q with bindings := q.bindings.set name value }

def scope (q : Query) (g : Graph) (shared : Option SharedEnvironment) : Scope where
  graph := g
  nodes := q.nodes
  shared := shared
  functions := q.functions
  limits := q.limits

def evaluate (q : Query) (g : Graph) (shared : Option SharedEnvironment) (supply : Supply) :
    Except Failure Value × Query × Supply :=
  let (outcome, w) :=
    Evaluation.result (q.scope g shared) q.root ⟨q.cache, q.bindings, supply⟩
  let q := { q with cache := w.cache, bindings := w.bindings }
  match outcome with
  | .ok value => (.ok value, { q with evaluatedAt := some g.version }, w.supply)
  | .error failure => (.error failure, q, w.supply)

/-- Forgets all results below the root, also those that an abandoned evaluation left unfinished. -/
def reset (q : Query) : Query :=
  { q with cache := q.cache.resetAllFrom q.nodes q.root }

def run (q : Query) (g : Graph) (shared : SharedEnvironment) (supply : Supply) :
    Except Failure Value × Query × Supply :=
  q.reset.evaluate g (some shared) supply

def isStale (q : Query) (g : Graph) : Bool :=
  q.evaluatedAt != some g.version

end Query

end PathQuery

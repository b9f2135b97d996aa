import PathQuery.Value

/-!
# Syntax nodes

A query is a graph of nodes that refer to each other by number.

* `Node`: expressions, path descriptions, which evaluate to automata, and path queries;
* `Node.children`: the nodes whose values a node can ask for, its guard's condition included.
-/

namespace PathQuery

inductive CompareOp where
  | eq
  | ne
  | lt
  | le
  | gt
  | ge
  deriving DecidableEq, Repr

inductive Iteration where
  | star
  | plus
  deriving DecidableEq, Repr

inductive Node where
  | literal (value : Value)
  | var (name : String)
  | attr (target : NodeId) (name : String)
  | compare (op : CompareOp) (lhs rhs : NodeId)
  | and (items : List NodeId)
  | or (items : List NodeId)
  | not (inner : NodeId)
  | call (function : String) (args : List NodeId)
  /-- All vertices whose type the terms accept. -/
  | vertices (types : List TypeTerm)
  | simplePath (direction : Direction) (types : List TypeTerm) (roles : List String)
      (guard : Option Guard)
  /-- A step along the edge that a node evaluates to. -/
  | edgePath (direction : Direction) (edge : NodeId) (types : List TypeTerm)
      (roles : List String) (guard : Option Guard)
  | sequence (parts : List NodeId)
  | alternative (parts : List NodeId)
  | iterated (inner : NodeId) (iteration : Iteration)
  | optional (inner : NodeId)
  | exponentiated (inner : NodeId) (exponent : Nat)
  | transposed (inner : NodeId)
  | forwardVertexSet (start path : NodeId)
  | backwardVertexSet (target path : NodeId)
  | pathExistence (start path target : NodeId)
  | pathSystem (start path : NodeId)
  deriving Repr

namespace Node

def guardChildren (guard : Option Guard) : List NodeId :=
  (guard.map (·.predicate)).toList

def children : Node → List NodeId
  | literal _ => []
  | var _ => []
  | attr target _ => [target]
  | compare _ lhs rhs => [lhs, rhs]
  | and items => items
  | or items => items
  | not inner => [inner]
  | call _ args => args
  | vertices _ => []
  | simplePath _ _ _ guard => guardChildren guard
  | edgePath _ edge _ _ guard => edge :: guardChildren guard
  | sequence parts => parts
  | alternative parts => parts
  | iterated inner _ => [inner]
  | optional inner => [inner]
  | exponentiated inner _ => [inner]
  | transposed inner => [inner]
  | forwardVertexSet start path => [start, path]
  | backwardVertexSet target path => [target, path]
  | pathExistence start path target => [start, path, target]
  | pathSystem start path => [start, path]

def isPathDescription : Node → Bool
  | simplePath _ _ _ _ => true
  | edgePath _ _ _ _ _ => true
  | sequence _ => true
  | alternative _ => true
  | iterated _ _ => true
  | optional _ => true
  | exponentiated _ _ => true
  | transposed _ => true
  | _ => false

end Node

end PathQuery

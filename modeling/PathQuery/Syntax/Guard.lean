/-!
# Guards

A guard restricts a step to edges for which a condition holds.  The condition is a node of the
syntax graph; while it is evaluated for an edge, the edge can be bound to a variable.
-/

namespace PathQuery

/-- The number of a syntax node. -/
abbrev NodeId := Nat

/-- How messages and labels name a node. -/
def NodeId.toText (id : NodeId) : String :=
  s!"#{id}"

structure Guard where
  predicate : NodeId
  /-- The variable that stands for the edge while the condition is evaluated. -/
  thisEdge : Option String
  deriving DecidableEq, Repr

end PathQuery

import PathQuery.Automaton.Constraint

/-!
# Transition symbols

A transition either consumes nothing or consumes one edge that satisfies a constraint.

* `Symbol`: the empty symbol, a constrained step, and a step along the one edge that a node of the
  syntax graph evaluates to;
* `Symbol.reversed`: the symbol of the transition read backwards;
* `Symbol.same`: equal matching behaviour, guards and edge nodes compared by their numbers.
-/

namespace PathQuery

inductive Symbol where
  | epsilon
  | step (constraint : EdgeConstraint)
  | stepAlong (constraint : EdgeConstraint) (edge : NodeId)
  deriving Repr

namespace Symbol

def isEpsilon : Symbol → Bool
  | epsilon => true
  | _ => false

def constraint : Symbol → Option EdgeConstraint
  | epsilon => none
  | step c => some c
  | stepAlong c _ => some c

def reversed : Symbol → Symbol
  | epsilon => epsilon
  | step c => step c.reversed
  | stepAlong c edge => stepAlong c.reversed edge

@[simp] theorem isEpsilon_reversed (symbol : Symbol) :
    symbol.reversed.isEpsilon = symbol.isEpsilon := by
  cases symbol <;> rfl

def same : Symbol → Symbol → Bool
  | epsilon, epsilon => true
  | step c, step d => c.sameSymbol d
  | stepAlong c e, stepAlong d f => e == f && c.sameSymbol d
  | _, _ => false

def toText : Symbol → String
  | epsilon => "ε"
  | step c => String.ofList c.label
  | stepAlong c edge => String.ofList c.label ++ " =" ++ edge.toText

end Symbol

end PathQuery

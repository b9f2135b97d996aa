import PathQuery.Evaluation.Rules

/-!
# Evaluation

* `resultWithin`: the value of a node, with a bound on how deep evaluations may nest;
* `result`: the same with a bound that is always large enough.  An evaluation that starts a rule
  marks one more node as being computed, so rules never nest deeper than there are nodes;
* `guard`, `candidateAccepts`, `reachable`, `backward`, `connects`, `pathSystem`: the other uses of
  an evaluation;
* `compilePathDescription`: an automaton by itself, checked for faults.
-/

namespace PathQuery
namespace Evaluation

def resultWithin (scope : Scope) : Nat → NodeId → Eval Value
  | 0, _ => throwThe Failure .exhausted
  | depth + 1, id => step scope (resultWithin scope depth) id

def result (scope : Scope) (id : NodeId) : Eval Value :=
  resultWithin scope (scope.nodes.size + 1) id

def guard (scope : Scope) (g : Guard) (e : Incidence) : Eval Bool :=
  evaluateGuard scope (result scope) g e

def candidateAccepts (scope : Scope) (symbol : Symbol) (v : Nat) (e : Option Incidence) :
    Eval Bool :=
  acceptsCandidate scope (result scope) symbol v e

/-! ## Running automata -/

def reachable (scope : Scope) (a : Automaton) (start : IdSet) : Eval IdSet :=
  Traversal.reachable (takes scope (result scope)) scope.limits a scope.graph start

def backward (scope : Scope) (a : Automaton) (target : IdSet) : Eval IdSet :=
  reachableBackward scope (result scope) a target

def connects (scope : Scope) (a : Automaton) (start target : IdSet) : Eval Bool :=
  Traversal.connects (takes scope (result scope)) scope.limits a scope.graph start target

def pathSystem (scope : Scope) (a : Automaton) (start : IdSet) : Eval Value :=
  pathSystemValue scope (result scope) a start

/-! ## Automata by themselves -/

/-- Evaluates a path description with nothing known and no results of other queries. -/
def compilePathDescription (g : Graph) (nodes : SyntaxGraph) (id : NodeId) (supply : Supply) :
    Except Failure Automaton × Supply :=
  let scope : Scope := { graph := g, nodes }
  let (outcome, w) := (automatonOf (result scope) id) { supply }
  match outcome with
  | .error failure => (.error failure, w.supply)
  | .ok a =>
    match a.validate with
    | some fault => (.error (.error (.invalidAutomaton fault)), w.supply)
    | none => (.ok a, w.supply)

end Evaluation
end PathQuery

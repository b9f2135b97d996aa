import PathQuery.Automaton.Validate

/-!
# Evaluation errors

* `EvalError`: why an evaluation or a batch of queries fails;
* `EvalError.message`: the text that is shown;
* `EvalError.kind`: the name under which programs tell errors apart;
* `EvalError.isStructural`: whether the fault lies in a cyclic input, so that trying again is
  pointless;
* `Failure`: how a computation can end without a value.
-/

namespace PathQuery

inductive EvalError where
  /-- The value of a node was asked for while it was being computed. -/
  | cyclicEvaluation (node : NodeId)
  | cyclicDependency (queries : List String)
  | typeMismatch (context expected found : String)
  | queryFailed (query : String) (source : EvalError)
  | queryPanicked (query message : String)
  | unresolvedVariable (name : String)
  | unknownFunction (name : String)
  /-- The node was declared but not defined. -/
  | undefinedNode (node : NodeId)
  | unknownNode (node : NodeId)
  | duplicateResult (name : String)
  | duplicateQuery (name : String)
  | unknownQuery (name : String)
  | traversalLimit (limit : Nat)
  | invalidAutomaton (fault : AutomatonFault)
  /-- There are no workers to run a batch. -/
  | workerPool (reason : String)
  /-- A procedure outside this library failed. -/
  | external (reason : String)
  deriving DecidableEq, Repr

namespace EvalError

def message : EvalError → String
  | cyclicEvaluation node => s!"cyclic evaluation: node {node.toText} depends on its own result"
  | cyclicDependency queries => "cyclic query dependency among " ++ Text.quoteList queries
  | typeMismatch context expected found =>
    s!"type mismatch in {context}: expected {expected}, found {found}"
  | queryFailed query source => "query " ++ Text.quote query ++ " failed: " ++ source.message
  | queryPanicked query message => "query " ++ Text.quote query ++ " panicked: " ++ message
  | unresolvedVariable name => "unresolved variable " ++ Text.quote name
  | unknownFunction name => "unknown function " ++ Text.quote name
  | undefinedNode node => s!"node {node.toText} was declared but never defined"
  | unknownNode node => s!"node {node.toText} does not belong to this syntax graph"
  | duplicateResult name =>
    "a result named " ++ Text.quote name ++ " is already in the shared environment"
  | duplicateQuery name => "a query named " ++ Text.quote name ++ " is already scheduled"
  | unknownQuery name => "unknown query " ++ Text.quote name
  | traversalLimit limit => s!"traversal visited more than {limit} (vertex, state) pairs"
  | invalidAutomaton fault => "invalid automaton: " ++ fault.message
  | workerPool reason => "worker pool: " ++ reason
  | external reason => reason

/-- The name of the kind of error. -/
def kind : EvalError → String
  | cyclicEvaluation _ => "CyclicEvaluation"
  | cyclicDependency _ => "CyclicDependency"
  | typeMismatch _ _ _ => "TypeMismatch"
  | queryFailed _ _ => "QueryFailed"
  | queryPanicked _ _ => "QueryPanicked"
  | unresolvedVariable _ => "UnresolvedVariable"
  | unknownFunction _ => "UnknownFunction"
  | undefinedNode _ => "UndefinedNode"
  | unknownNode _ => "UnknownNode"
  | duplicateResult _ => "DuplicateResult"
  | duplicateQuery _ => "DuplicateQuery"
  | unknownQuery _ => "UnknownQuery"
  | traversalLimit _ => "TraversalLimit"
  | invalidAutomaton _ => "InvalidAutomaton"
  | workerPool _ => "WorkerPool"
  | external _ => "Graph"

def isStructural : EvalError → Bool
  | cyclicEvaluation _ => true
  | cyclicDependency _ => true
  | queryFailed _ source => source.isStructural
  | _ => false

/-- The query that a failure of a batch belongs to. -/
def failedQuery : EvalError → Option String
  | queryFailed query _ => some query
  | queryPanicked query _ => some query
  | _ => none

end EvalError

/-- How a computation ends without a value. -/
inductive Failure where
  /-- It answered an error and cleaned up behind itself. -/
  | error (e : EvalError)
  /-- It was abandoned on the spot, with or without a word. -/
  | panic (message : Option String)
  /-- The bound on the nesting of evaluations was too small. -/
  | exhausted
  deriving DecidableEq, Repr

/-! ## Outcomes

Errors can be compared also where results cannot, and some results where others cannot. -/

instance decidableEqError {ε α : Type} [DecidableEq ε] (outcome : Except ε α) (e : ε) :
    Decidable (outcome = .error e) :=
  match outcome with
  | .ok _ => isFalse nofun
  | .error e' => decidable_of_iff (e' = e) (by simp)

instance decidableEqOk {ε α : Type} (outcome : Except ε α) (a : α)
    [∀ b : α, Decidable (b = a)] : Decidable (outcome = .ok a) :=
  match outcome with
  | .ok b => decidable_of_iff (b = a) (by simp)
  | .error _ => isFalse nofun

end PathQuery

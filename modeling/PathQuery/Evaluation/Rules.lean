import PathQuery.Evaluation.Basic

/-!
# Evaluation rules

The value of a node from the values of its children.  How children are evaluated is left open: the
rules take it as an argument, `result`.

* `evaluateGuard`, `accepts`: whether a transition may take an edge;
* `compile`: the automaton of a path description;
* `rule`: the value of any node;
* `step`: the rule behind the cache, which notices nodes that depend on themselves.
-/

namespace PathQuery
namespace Evaluation

/-! ## Comparisons -/

def comparisonHolds (op : CompareOp) (o : Ordering) : Bool :=
  match op with
  | .eq => o == .eq
  | .ne => o != .eq
  | .lt => o == .lt
  | .le => o != .gt
  | .gt => o == .gt
  | .ge => o != .lt

/-- Equality is defined on all values; the order only on comparable ones, and unknown on others. -/
def compareValues (op : CompareOp) (x y : Value) : Value :=
  match op with
  | .eq => .bool (Value.same x y)
  | .ne => .bool !(Value.same x y)
  | _ =>
    match Value.order x y with
    | none => .null
    | some o => .bool (comparisonHolds op o)

def negate : Value → Value
  | .bool b => .bool !b
  | _ => .null

/-- A variable of the query, or else the result of another query. -/
def lookup (scope : Scope) (bindings : Bindings) (name : String) : Except EvalError Value :=
  match bindings.get name with
  | some value => .ok value
  | none =>
    match scope.shared.bind (·.get name) with
    | some value => .ok value
    | none => .error (.unresolvedVariable name)

/-- An attribute that is not there reads as null, and so do the attributes of null. -/
def attributeOf (g : Graph) (name : String) : Value → Except EvalError Value
  | .vertex v => .ok ((g.vertexAttr v name).elim .null Value.ofAttribute)
  | .edge e => .ok ((g.edgeAttr e.edge name).elim .null Value.ofAttribute)
  | .null => .ok .null
  | other => .error (.typeMismatch ("attribute " ++ Text.quote name) "vertex or edge" other.kind)

/-- The vertices whose type a collection accepts. -/
def verticesOfTypes (g : Graph) (terms : List TypeTerm) : IdSet :=
  let types := TypeCollection.resolve g terms
  g.vertices.filter fun v => (g.vertexType v).any (types.accepts g)

section Rules

variable (scope : Scope) (result : NodeId → Eval Value)

/-! ## Guards and transitions -/

/-- Only a true condition accepts.  With a variable for the edge, what is known about the condition
is forgotten first, and the variable is bound while it is evaluated. -/
def evaluateGuard (guard : Guard) (e : Incidence) : Eval Bool :=
  match guard.thisEdge with
  | none => do
    let value ← result guard.predicate
    pure value.isTrue
  | some name => do
    Eval.modifyCache (·.resetFrom scope.nodes guard.predicate)
    Eval.modifyBindings (·.push name (.edge e))
    match ← Eval.outcome (result guard.predicate) with
    | .ok value =>
      Eval.modifyBindings (·.pop.2)
      pure value.isTrue
    | .error (.error e) =>
      Eval.modifyBindings (·.pop.2)
      Eval.fail e
    | .error failure => throwThe Failure failure

def guardAccepts (guard : Option Guard) (e : Incidence) : Eval Bool :=
  match guard with
  | none => pure true
  | some guard => evaluateGuard scope result guard e

/-- The edge that a node evaluates to, in either orientation. -/
def isRestrictedTo (node : NodeId) (e : Incidence) : Eval Bool := do
  match ← result node with
  | .edge expected => pure (expected.canonical == e.canonical)
  | other => Eval.fail (.typeMismatch s!"edge restriction {node.toText}" "edge" other.kind)

/-- Whether a transition with this symbol may take the edge when it leaves the vertex.  Structure
comes first, then the guard, then the one edge that is allowed. -/
def accepts (symbol : Symbol) (v : Nat) (e : Incidence) : Eval Bool := do
  match symbol with
  | .epsilon => pure true
  | .step c =>
    if scope.graph.this e == some v && c.matchesStructure scope.graph e then
      guardAccepts scope result c.guard e
    else pure false
  | .stepAlong c node =>
    if scope.graph.this e == some v && c.matchesStructure scope.graph e then
      if ← guardAccepts scope result c.guard e then isRestrictedTo result node e
      else pure false
    else pure false

/-- The same for a transition, with nothing but its symbol to decide. -/
def takes (t : Transition) (v : Nat) (e : Incidence) : Eval Bool :=
  accepts scope result t.symbol v e

/-- Without a candidate no transition accepts. -/
def acceptsCandidate (symbol : Symbol) (v : Nat) (e : Option Incidence) : Eval Bool :=
  match e with
  | none => pure false
  | some e => accepts scope result symbol v e

/-! ## Automata -/

def automatonOf (path : NodeId) : Eval Automaton := do
  let value ← result path
  Eval.ofExcept (value.toAutomaton s!"path description {path.toText}")

/-- A private copy of a child's automaton. -/
def fragment (path : NodeId) : Eval Automaton := do
  let a ← automatonOf result path
  Eval.fresh (a.copy true)

/-- The parts one after the other; without parts the empty path. -/
def compileSequence (parts : List NodeId) : Eval Automaton := do
  let empty ← Eval.fresh Automaton.epsilon
  match parts with
  | [] => pure empty
  | first :: rest =>
    let a ← fragment result first
    rest.foldlM (fun a part => do pure (a.concat (← fragment result part))) a

def compileAlternative (node : NodeId) (parts : List NodeId) : Eval Automaton := do
  match parts with
  | [] => Eval.fail (.invalidAutomaton (.noBranches node))
  | first :: rest =>
    let a ← fragment result first
    rest.foldlM
      (fun a part => do
        let b ← fragment result part
        Eval.fresh (a.union b))
      a

def compilePower (node inner : NodeId) (n : Nat) : Eval Automaton := do
  if Pattern.maxExponent < n then Eval.fail (.invalidAutomaton (.exponentTooLarge n node))
  else
    let a ← automatonOf result inner
    Eval.fresh (a.power n)

def publishAutomaton (x : Eval Automaton) : Eval Value := do
  let a ← x
  pure (.automaton (← Eval.freshHandle) a)

/-! ## Logic and calls -/

/-- Items in turn until one decides; otherwise unknown if some item was unknown. -/
def logical (decides : Bool) : Bool → List NodeId → Eval Value
  | unknown, [] => pure (if unknown then .null else .bool !decides)
  | unknown, item :: items => do
    match ← result item with
    | .bool b => if b == decides then pure (.bool decides) else logical decides unknown items
    | _ => logical decides true items

def call (function : String) (args : List NodeId) : Eval Value := do
  let values ← args.mapM result
  let n ← Eval.callNumber
  match scope.functions.call n function values with
  | .ok value => pure value
  | .error failure => throwThe Failure failure

/-! ## Path queries -/

def vertexSetOf (node : NodeId) (context : String) : Eval IdSet := do
  let value ← result node
  Eval.ofExcept (value.toVertexSet context)

/-- The vertices from which an accepted path leads to a target. -/
def reachableBackward (a : Automaton) (target : IdSet) : Eval IdSet := do
  let reversed ← Eval.fresh a.reverse
  Traversal.reachable (takes scope result) scope.limits reversed scope.graph target

def pathSystemValue (a : Automaton) (start : IdSet) : Eval Value := do
  let ps ← Traversal.pathSystem (takes scope result) scope.limits a scope.graph start
  pure (.pathSystem (← Eval.freshHandle) ps)

/-! ## All nodes -/

def rule (id : NodeId) : Node → Eval Value
  | .literal value => pure value
  | .var name => do Eval.ofExcept (lookup scope (← Eval.getBindings) name)
  | .attr target name => do
    let value ← result target
    Eval.ofExcept (attributeOf scope.graph name value)
  | .compare op lhs rhs => do
    let x ← result lhs
    let y ← result rhs
    pure (compareValues op x y)
  | .and items => logical result false false items
  | .or items => logical result true false items
  | .not inner => do
    let value ← result inner
    pure (negate value)
  | .call function args => call scope result function args
  | .vertices types => pure (.vertexSet (verticesOfTypes scope.graph types))
  | .simplePath direction types roles guard =>
    publishAutomaton do
      let c := EdgeConstraint.resolve scope.graph direction types roles guard
      Eval.fresh (Automaton.single (.step c))
  | .edgePath direction edge types roles guard =>
    publishAutomaton do
      let c := EdgeConstraint.resolve scope.graph direction types roles guard
      Eval.fresh (Automaton.single (.stepAlong c edge))
  | .sequence parts => publishAutomaton (compileSequence result parts)
  | .alternative parts => publishAutomaton (compileAlternative result id parts)
  | .iterated inner .star => publishAutomaton do Eval.fresh (← fragment result inner).star
  | .iterated inner .plus => publishAutomaton do Eval.fresh (← fragment result inner).plus
  | .optional inner => publishAutomaton do Eval.fresh (← fragment result inner).optional
  | .exponentiated inner n => publishAutomaton (compilePower result id inner n)
  | .transposed inner => publishAutomaton do Eval.fresh (← automatonOf result inner).reverse
  | .forwardVertexSet start path => do
    let start ← vertexSetOf result start "forward vertex set"
    let a ← automatonOf result path
    pure (.vertexSet
      (← Traversal.reachable (takes scope result) scope.limits a scope.graph start))
  | .backwardVertexSet target path => do
    let target ← vertexSetOf result target "backward vertex set"
    let a ← automatonOf result path
    pure (.vertexSet (← reachableBackward scope result a target))
  | .pathExistence start path target => do
    let start ← vertexSetOf result start "path existence"
    let target ← vertexSetOf result target "path existence"
    let a ← automatonOf result path
    pure (.bool
      (← Traversal.connects (takes scope result) scope.limits a scope.graph start target))
  | .pathSystem start path => do
    let start ← vertexSetOf result start "path system"
    let a ← automatonOf result path
    pathSystemValue scope result a start

/-! ## Behind the cache -/

def compute (id : NodeId) (node : Node) : Eval Value := do
  match ← Eval.outcome (rule scope result id node) with
  | .ok value =>
    Eval.modifyCache (·.finish id value)
    pure value
  | .error (.error e) =>
    Eval.modifyCache (·.abort id)
    Eval.fail e
  | .error failure => throwThe Failure failure

/-- A node that the graph does not have is refused before the cache is asked. -/
def step (id : NodeId) : Eval Value := do
  let node ← Eval.ofExcept (scope.nodes.get id)
  let known ← modifyGet fun w =>
    let (known, cache) := w.cache.begin id
    (known, { w with cache })
  match ← Eval.ofExcept known with
  | some value => pure value
  | none => compute scope result id node

end Rules

end Evaluation
end PathQuery

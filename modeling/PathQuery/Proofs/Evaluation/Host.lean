import PathQuery.Evaluation.Evaluator
import PathQuery.Proofs.Evaluation.Ensures

/-!
# Rules over any monad

The rules ask little of the computations that they are made of: these can fail, and there are a few
operations of which alone the rules are put together.  Whoever provides the operations, over a monad
of their own, gets the rules; the evaluations of the language are one such host.

* `Host`: the operations;
* `Host.rule`: the value of any node;
* `Evaluation.host`: the operations as evaluations have them;
* `host_takes`, `host_rule`: with these the rules are those of the language.
-/

namespace PathQuery

structure Host (m : Type → Type) where
  /-- The value of another node. -/
  result : NodeId → m Value
  /-- Whether the guard accepts the edge. -/
  guard : Guard → Incidence → m Bool
  lookup : String → m Value
  call : String → List Value → m Value
  /-- Builds with serials of its own. -/
  fresh : Fresh Automaton → m Automaton
  handle : m Nat

namespace Host

variable {m : Type → Type} [Monad m] [MonadExceptOf Failure m]

def fail {α : Type} (e : EvalError) : m α :=
  throwThe Failure (.error e)

def ofExcept {α : Type} : Except EvalError α → m α
  | .ok a => pure a
  | .error e => fail e

variable (host : Host m)

/-! ## Transitions -/

def guardAccepts (guard : Option Guard) (e : Incidence) : m Bool :=
  match guard with
  | none => pure true
  | some guard => host.guard guard e

/-- Whether a value is the edge, in either orientation. -/
def isEdge (node : NodeId) (e : Incidence) : Value → Except EvalError Bool
  | .edge expected => .ok (expected.canonical == e.canonical)
  | other => .error (.typeMismatch s!"edge restriction {node.toText}" "edge" other.kind)

def isRestrictedTo (node : NodeId) (e : Incidence) : m Bool := do
  let value ← host.result node
  ofExcept (isEdge node e value)

def takes (g : Graph) (t : Transition) (v : Nat) (e : Incidence) : m Bool := do
  match t.symbol with
  | .epsilon => pure true
  | .step c =>
    if g.this e == some v && c.matchesStructure g e then host.guardAccepts c.guard e
    else pure false
  | .stepAlong c node =>
    if g.this e == some v && c.matchesStructure g e then
      if ← host.guardAccepts c.guard e then host.isRestrictedTo node e
      else pure false
    else pure false

/-! ## Automata -/

def automatonOf (path : NodeId) : m Automaton := do
  let value ← host.result path
  ofExcept (value.toAutomaton s!"path description {path.toText}")

def fragment (path : NodeId) : m Automaton := do
  let a ← host.automatonOf path
  host.fresh (a.copy true)

def compileSequence (parts : List NodeId) : m Automaton := do
  let empty ← host.fresh Automaton.epsilon
  match parts with
  | [] => pure empty
  | first :: rest =>
    let a ← host.fragment first
    rest.foldlM (fun a part => do pure (a.concat (← host.fragment part))) a

def compileAlternative (node : NodeId) (parts : List NodeId) : m Automaton := do
  match parts with
  | [] => fail (.invalidAutomaton (.noBranches node))
  | first :: rest =>
    let a ← host.fragment first
    rest.foldlM
      (fun a part => do
        let b ← host.fragment part
        host.fresh (a.union b))
      a

def compilePower (node inner : NodeId) (n : Nat) : m Automaton := do
  if Pattern.maxExponent < n then fail (.invalidAutomaton (.exponentTooLarge n node))
  else
    let a ← host.automatonOf inner
    host.fresh (a.power n)

def publishAutomaton (x : m Automaton) : m Value := do
  let a ← x
  pure (.automaton (← host.handle) a)

/-! ## Logic and path queries -/

def logical (decides : Bool) : Bool → List NodeId → m Value
  | unknown, [] => pure (if unknown then .null else .bool !decides)
  | unknown, item :: items => do
    let value ← host.result item
    match value.asBool with
    | some b => if b == decides then pure (.bool decides) else logical decides unknown items
    | none => logical decides true items

def vertexSetOf (node : NodeId) (context : String) : m IdSet := do
  let value ← host.result node
  ofExcept (value.toVertexSet context)

variable (scope : Scope)

def reachableBackward (a : Automaton) (target : IdSet) : m IdSet := do
  let reversed ← host.fresh a.reverse
  Traversal.reachable (host.takes scope.graph) scope.limits reversed scope.graph target

def pathSystemValue (a : Automaton) (start : IdSet) : m Value := do
  let ps ← Traversal.pathSystem (host.takes scope.graph) scope.limits a scope.graph start
  pure (.pathSystem (← host.handle) ps)

/-! ## All nodes -/

def rule (id : NodeId) : Node → m Value
  | .literal value => pure value
  | .var name => host.lookup name
  | .attr target name => do
    let value ← host.result target
    ofExcept (Evaluation.attributeOf scope.graph name value)
  | .compare op lhs rhs => do
    let x ← host.result lhs
    let y ← host.result rhs
    pure (Evaluation.compareValues op x y)
  | .and items => host.logical false false items
  | .or items => host.logical true false items
  | .not inner => do
    let value ← host.result inner
    pure (Evaluation.negate value)
  | .call function args => do
    let values ← args.mapM host.result
    host.call function values
  | .vertices types => pure (.vertexSet (Evaluation.verticesOfTypes scope.graph types))
  | .simplePath direction types roles guard =>
    host.publishAutomaton do
      let c := EdgeConstraint.resolve scope.graph direction types roles guard
      host.fresh (Automaton.single (.step c))
  | .edgePath direction edge types roles guard =>
    host.publishAutomaton do
      let c := EdgeConstraint.resolve scope.graph direction types roles guard
      host.fresh (Automaton.single (.stepAlong c edge))
  | .sequence parts => host.publishAutomaton (host.compileSequence parts)
  | .alternative parts => host.publishAutomaton (host.compileAlternative id parts)
  | .iterated inner .star => host.publishAutomaton do host.fresh (← host.fragment inner).star
  | .iterated inner .plus => host.publishAutomaton do host.fresh (← host.fragment inner).plus
  | .optional inner => host.publishAutomaton do host.fresh (← host.fragment inner).optional
  | .exponentiated inner n => host.publishAutomaton (host.compilePower id inner n)
  | .transposed inner => host.publishAutomaton do host.fresh (← host.automatonOf inner).reverse
  | .forwardVertexSet start path => do
    let start ← host.vertexSetOf start "forward vertex set"
    let a ← host.automatonOf path
    pure (.vertexSet
      (← Traversal.reachable (host.takes scope.graph) scope.limits a scope.graph start))
  | .backwardVertexSet target path => do
    let target ← host.vertexSetOf target "backward vertex set"
    let a ← host.automatonOf path
    pure (.vertexSet (← host.reachableBackward scope a target))
  | .pathExistence start path target => do
    let start ← host.vertexSetOf start "path existence"
    let target ← host.vertexSetOf target "path existence"
    let a ← host.automatonOf path
    pure (.bool
      (← Traversal.connects (host.takes scope.graph) scope.limits a scope.graph start target))
  | .pathSystem start path => do
    let start ← host.vertexSetOf start "path system"
    let a ← host.automatonOf path
    host.pathSystemValue scope a start

end Host

/-! ## The host of evaluations -/

namespace Evaluation

variable (scope : Scope)

def readVariable (name : String) : Eval Value := do
  Eval.ofExcept (lookup scope (← Eval.getBindings) name)

def callFunction (function : String) (values : List Value) : Eval Value := do
  let n ← Eval.callNumber
  match scope.functions.call n function values with
  | .ok value => pure value
  | .error failure => throwThe Failure failure

theorem callFunction_apply (function : String) (values : List Value) (w : Workspace) :
    callFunction scope function values w =
      (scope.functions.call w.supply.calls function values,
        { w with supply := { w.supply with calls := w.supply.calls + 1 } }) := by
  unfold callFunction
  refine (Eval.modifyGet_bind_apply _ _ w).trans ?_
  cases scope.functions.call w.supply.calls function values <;> rfl

variable (result : NodeId → Eval Value)

def host : Host Eval where
  result
  guard := evaluateGuard scope result
  lookup := readVariable scope
  call := callFunction scope
  fresh := Eval.fresh
  handle := Eval.freshHandle

theorem host_isRestrictedTo (node : NodeId) (e : Incidence) :
    (host scope result).isRestrictedTo node e = isRestrictedTo result node e := by
  refine congrArg (result node >>= ·) (funext fun v => ?_)
  cases v <;> rfl

theorem host_takes : (host scope result).takes scope.graph = takes scope result := by
  funext t v e
  rcases t with ⟨source, target, symbol⟩
  cases symbol with
  | stepAlong c node =>
    simp only [Host.takes, host_isRestrictedTo]
    rfl
  | _ => rfl

theorem host_logical (decides unknown : Bool) (items : List NodeId) :
    (host scope result).logical decides unknown items = logical result decides unknown items := by
  induction items generalizing unknown with
  | nil => rfl
  | cons item items ih =>
    simp only [Host.logical, logical, ih]
    refine congrArg (result item >>= ·) (funext fun v => ?_)
    cases v <;> rfl

theorem host_rule (id : NodeId) (node : Node) :
    (host scope result).rule scope id node = rule scope result id node := by
  cases node with
  | and items => exact host_logical scope result false false items
  | or items => exact host_logical scope result true false items
  | iterated inner iteration => cases iteration <;> rfl
  | forwardVertexSet _ _ | backwardVertexSet _ _ | pathExistence _ _ _ | pathSystem _ _ =>
    simp only [Host.rule, Host.reachableBackward, Host.pathSystemValue, host_takes]
    rfl
  | _ => rfl

end Evaluation
end PathQuery

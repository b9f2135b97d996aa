import PathQuery.Evaluation.Cache
import PathQuery.Environment.Bindings
import PathQuery.Environment.Functions
import PathQuery.Path.Traversal

/-!
# Evaluations

* `Scope`: what an evaluation reads and never changes;
* `Workspace`: what it changes, the cache and the variables of one query and the supply of fresh
  numbers;
* `Eval`: the computations over both, which can fail.
-/

namespace PathQuery

structure Scope where
  graph : Graph
  nodes : SyntaxGraph
  shared : Option SharedEnvironment := none
  functions : FunctionLibrary := .builtin
  limits : Limits := {}

/-- Numbers that are given out once. -/
structure Supply where
  /-- For states of automata. -/
  serials : Nat := 0
  /-- For automata and path systems. -/
  handles : Nat := 0
  /-- For calls of functions. -/
  calls : Nat := 0
  deriving DecidableEq, Repr

structure Workspace where
  cache : Cache := {}
  bindings : Bindings := {}
  supply : Supply := {}
  deriving Repr

abbrev Eval (α : Type) := ExceptT Failure (StateM Workspace) α

namespace Eval

def fail {α : Type} (e : EvalError) : Eval α :=
  throwThe Failure (.error e)

def ofExcept {α : Type} : Except EvalError α → Eval α
  | .ok a => pure a
  | .error e => fail e

/-- The outcome of a computation, whatever it is. -/
def outcome {α : Type} (x : Eval α) : Eval (Except Failure α) :=
  fun w =>
    let (r, w) := x w
    (.ok r, w)

def getBindings : Eval Bindings := do
  pure (← get).bindings

def modifyCache (f : Cache → Cache) : Eval Unit :=
  modify fun w => { w with cache := f w.cache }

def modifyBindings (f : Bindings → Bindings) : Eval Unit :=
  modify fun w => { w with bindings := f w.bindings }

/-- Draws serials from the supply. -/
def fresh {α : Type} (x : Fresh α) : Eval α :=
  modifyGet fun w =>
    let (a, serials) := x w.supply.serials
    (a, { w with supply := { w.supply with serials } })

def freshHandle : Eval Nat :=
  modifyGet fun w =>
    (w.supply.handles, { w with supply := { w.supply with handles := w.supply.handles + 1 } })

def callNumber : Eval Nat :=
  modifyGet fun w =>
    (w.supply.calls, { w with supply := { w.supply with calls := w.supply.calls + 1 } })

end Eval

end PathQuery

import PathQuery.Value

/-!
# Functions

* `Builtin`: the set functions that every query can call;
* `FunctionLibrary`: what a call node calls.
-/

namespace PathQuery

namespace Builtin

def arityError (name : String) (expected found : Nat) : EvalError :=
  .typeMismatch name s!"{expected} argument(s)" s!"{found} argument(s)"

def unary (name : String) (f : Value → Except EvalError Value) (args : List Value) :
    Except EvalError Value :=
  match args with
  | [x] => f x
  | _ => .error (arityError name 1 args.length)

def binary (name : String) (f : Value → Value → Except EvalError Value) (args : List Value) :
    Except EvalError Value :=
  match args with
  | [x, y] => f x y
  | _ => .error (arityError name 2 args.length)

/-- The number of members; an absent collection has none. -/
def count : Value → Except EvalError Value
  | .vertexSet s => .ok (.int s.size)
  | .list items => .ok (.int items.length)
  | .null => .ok (.int 0)
  | other => .error (.typeMismatch "count" "collection" other.kind)

def isEmpty : Value → Except EvalError Value
  | .vertexSet s => .ok (.bool s.isEmpty)
  | .list items => .ok (.bool items.isEmpty)
  | .null => .ok (.bool true)
  | other => .error (.typeMismatch "isEmpty" "collection" other.kind)

def combine (name : String) (f : IdSet → IdSet → IdSet) (x y : Value) : Except EvalError Value := do
  let s ← x.toVertexSet name
  let t ← y.toVertexSet name
  pure (.vertexSet (f s t))

def contains : Value → Value → Except EvalError Value
  | .vertexSet s, .vertex v => .ok (.bool (s.contains v))
  | .list items, x => .ok (.bool (items.any (Value.same · x)))
  | .vertexSet _, other => .error (.typeMismatch "contains" "vertex" other.kind)
  | other, _ => .error (.typeMismatch "contains" "collection" other.kind)

def find (name : String) : Option (List Value → Except EvalError Value) :=
  match name with
  | "count" => some (unary name count)
  | "isEmpty" => some (unary name isEmpty)
  | "union" => some (binary name (combine name IdSet.union))
  | "intersection" => some (binary name (combine name IdSet.inter))
  | "contains" => some (binary name contains)
  | _ => none

def call (name : String) (args : List Value) : Except EvalError Value :=
  match find name with
  | some f => f args
  | none => .error (.unknownFunction name)

end Builtin

/-- What a call answers.  The number of calls made before is an argument, since a library may answer
differently from call to call. -/
structure FunctionLibrary where
  call : Nat → String → List Value → Except Failure Value

namespace FunctionLibrary

def builtin : FunctionLibrary where
  call _ name args :=
    match Builtin.call name args with
    | .ok value => .ok value
    | .error e => .error (.error e)

/-- No function is known. -/
def empty : FunctionLibrary where
  call _ name _ := .error (.error (.unknownFunction name))

end FunctionLibrary

end PathQuery

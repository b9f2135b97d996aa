import PathQuery.Value

/-!
# Names and their values

* `Bindings`: the variables of one query, later ones before earlier ones of the same name;
* `SharedEnvironment`: the results of finished queries, each under the name of its query, never
  replaced.
-/

namespace PathQuery

/-! ## Variables of a query -/

/-- The bindings, innermost first. -/
structure Bindings where
  frames : List (String × Value) := []
  deriving Repr

namespace Bindings

def size (b : Bindings) : Nat :=
  b.frames.length

def isEmpty (b : Bindings) : Bool :=
  b.frames.isEmpty

def get (b : Bindings) (name : String) : Option Value :=
  b.frames.lookup name

def push (b : Bindings) (name : String) (value : Value) : Bindings :=
  ⟨(name, value) :: b.frames⟩

def pop (b : Bindings) : Option (String × Value) × Bindings :=
  (b.frames.head?, ⟨b.frames.tail⟩)

def replaceFirst (name : String) (value : Value) : List (String × Value) → List (String × Value)
  | [] => []
  | frame :: frames =>
    if frame.1 = name then (name, value) :: frames
    else frame :: replaceFirst name value frames

/-- Replaces the innermost binding of the name, or adds one. -/
def set (b : Bindings) (name : String) (value : Value) : Bindings :=
  match b.get name with
  | some _ => ⟨replaceFirst name value b.frames⟩
  | none => b.push name value

end Bindings

/-! ## Results of queries -/

structure SharedEnvironment where
  entries : List (String × Value) := []
  deriving Repr

namespace SharedEnvironment

def size (env : SharedEnvironment) : Nat :=
  env.entries.length

def isEmpty (env : SharedEnvironment) : Bool :=
  env.entries.isEmpty

def get (env : SharedEnvironment) (name : String) : Option Value :=
  env.entries.lookup name

def contains (env : SharedEnvironment) (name : String) : Bool :=
  (env.get name).isSome

/-- Adds a result; a name that has one keeps it. -/
def insertNew (env : SharedEnvironment) (name : String) (value : Value) :
    Except EvalError SharedEnvironment :=
  if env.contains name then .error (.duplicateResult name)
  else .ok ⟨env.entries ++ [(name, value)]⟩

/-- The results in the order of their names. -/
def snapshot (env : SharedEnvironment) : List (String × Value) :=
  env.entries.mergeSort fun x y => x.1 ≤ y.1

end SharedEnvironment

end PathQuery

import PathQuery.Error
import PathQuery.Path.System

/-!
# Values

* `Value`: what a syntax node evaluates to;
* `Value.order`: the order of comparable values;
* `Value.same`: equality as queries see it;
* `Value.toVertexSet`, `Value.toAutomaton`: the conversions, with the error of a wrong kind.

Compiled automata and path systems carry a handle that tells one evaluation's result from
another's; they are equal when their handles are.
-/

namespace PathQuery

inductive Value where
  | null
  | bool (b : Bool)
  | int (i : Int)
  | float (x : Binary64)
  | text (s : String)
  | vertex (v : Nat)
  | edge (e : Incidence)
  | vertexSet (s : IdSet)
  | list (items : List Value)
  | automaton (handle : Nat) (a : Automaton)
  | pathSystem (handle : Nat) (ps : PathSystem)
  deriving Repr

namespace Value

def ofAttribute : AttrValue → Value
  | .bool b => bool b
  | .int i => int i
  | .float x => float x
  | .text s => text s

/-- How messages name the kind of a value. -/
def kind : Value → String
  | null => "null"
  | bool _ => "bool"
  | int _ => "int"
  | float _ => "float"
  | text _ => "string"
  | vertex _ => "vertex"
  | edge _ => "edge"
  | vertexSet _ => "vertex set"
  | list _ => "list"
  | automaton _ _ => "automaton"
  | pathSystem _ _ => "path system"

def asBool : Value → Option Bool
  | bool b => some b
  | _ => none

def isNull : Value → Bool
  | null => true
  | _ => false

def isTrue : Value → Bool
  | bool true => true
  | _ => false

/-! ## Conversions -/

/-- A vertex counts as the set that holds only it. -/
def toVertexSet (v : Value) (context : String) : Except EvalError IdSet :=
  match v with
  | vertex v => .ok (.singleton v)
  | vertexSet s => .ok s
  | other => .error (.typeMismatch context "vertex or vertex set" other.kind)

def toAutomaton (v : Value) (context : String) : Except EvalError Automaton :=
  match v with
  | automaton _ a => .ok a
  | other => .error (.typeMismatch context "automaton" other.kind)

/-! ## Comparison -/

/-- Numbers of both kinds are comparable, an integer as the nearest floating-point number. -/
def order : Value → Value → Option Ordering
  | int i, int j => some (compare i j)
  | int i, float y => (Binary64.ofInt i).compare y
  | float x, int j => x.compare (Binary64.ofInt j)
  | float x, float y => x.compare y
  | text s, text t => some (compare s t)
  | bool b, bool c => some (compare b c)
  | vertex v, vertex w => some (compare v w)
  | _, _ => none

mutual

/-- Edges are equal in either orientation; comparable values are equal when neither comes first. -/
def same : Value → Value → Bool
  | null, null => true
  | edge e, edge f => e.canonical == f.canonical
  | vertexSet s, vertexSet t => s == t
  | list xs, list ys => sameAll xs ys
  | automaton h _, automaton k _ => h == k
  | pathSystem h _, pathSystem k _ => h == k
  | x, y => order x y == some .eq

def sameAll : List Value → List Value → Bool
  | [], [] => true
  | x :: xs, y :: ys => same x y && sameAll xs ys
  | _, _ => false

end

instance decidableEqBool (v : Value) (b : Bool) : Decidable (v = bool b) :=
  decidable_of_iff (v.asBool = some b) (by cases v <;> simp [asBool])

instance decidableEqEdge (v : Value) (e : Incidence) : Decidable (v = edge e) :=
  match v with
  | edge f => decidable_of_iff (f = e) (by simp)
  | null | bool _ | int _ | float _ | text _ | vertex _ | vertexSet _ | list _ | automaton _ _
  | pathSystem _ _ => isFalse nofun

instance decidableEqVertexSet (v : Value) (s : IdSet) : Decidable (v = vertexSet s) :=
  decidable_of_iff (v.same (vertexSet s)) (by cases v <;> simp [same, order])

end Value

end PathQuery

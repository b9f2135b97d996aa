/-!
# Incidences — edges seen from one of their ends

Every edge runs from its *alpha* vertex to its *omega* vertex.  A traversal meets it from either
side, so the unit of traversal is an edge together with an orientation.

* `Direction`: which orientations a step may take;
* `EdgeEnd`: the two ends of an edge;
* `Incidence`: an oriented edge, with the operation `reversed` that changes sides.
-/

namespace PathQuery

/-- The orientations that a step admits, relative to the run of an edge from alpha to omega. -/
inductive Direction where
  | outgoing
  | incoming
  | any
  deriving DecidableEq, Repr

namespace Direction

def reversed : Direction → Direction
  | outgoing => incoming
  | incoming => outgoing
  | any => any

/-- Whether an incidence may be traversed that is seen from alpha (`normal`) or from omega. -/
def admits : Direction → Bool → Bool
  | outgoing, normal => normal
  | incoming, normal => !normal
  | any, _ => true

def arrow : Direction → String
  | outgoing => "-->"
  | incoming => "<--"
  | any => "<->"

@[simp] theorem reversed_reversed (d : Direction) : d.reversed.reversed = d := by
  cases d <;> rfl

@[simp] theorem admits_reversed (d : Direction) (normal : Bool) :
    d.reversed.admits (!normal) = d.admits normal := by
  cases d <;> cases normal <;> rfl

end Direction

inductive EdgeEnd where
  | alpha
  | omega
  deriving DecidableEq, Repr

namespace EdgeEnd

def opposite : EdgeEnd → EdgeEnd
  | alpha => omega
  | omega => alpha

@[simp] theorem opposite_opposite (e : EdgeEnd) : e.opposite.opposite = e := by
  cases e <;> rfl

def name : EdgeEnd → String
  | alpha => "alpha"
  | omega => "omega"

end EdgeEnd

/-- An edge as it is met from one of its ends; `normal` when met from alpha. -/
structure Incidence where
  edge : Nat
  normal : Bool
  deriving DecidableEq, Repr

namespace Incidence

/-- The same edge met from its alpha end. -/
def canonical (e : Incidence) : Incidence :=
  ⟨e.edge, true⟩

def reversed (e : Incidence) : Incidence :=
  ⟨e.edge, !e.normal⟩

/-- The end that a traversal of the incidence leaves. -/
def thisEnd (e : Incidence) : EdgeEnd :=
  if e.normal then .alpha else .omega

/-- The end that a traversal of the incidence arrives at. -/
def thatEnd (e : Incidence) : EdgeEnd :=
  e.thisEnd.opposite

def toText (e : Incidence) : String :=
  if e.normal then s!"e{e.edge}" else s!"e{e.edge}'"

@[simp] theorem reversed_reversed (e : Incidence) : e.reversed.reversed = e := by
  cases e; simp [reversed]

@[simp] theorem canonical_reversed (e : Incidence) : e.reversed.canonical = e.canonical := rfl

@[simp] theorem thatEnd_reversed (e : Incidence) : e.reversed.thatEnd = e.thisEnd := by
  cases e with
  | mk edge normal => cases normal <;> rfl

end Incidence

end PathQuery

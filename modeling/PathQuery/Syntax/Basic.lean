import PathQuery.Syntax.Node

/-!
# Syntax graphs

Nodes are numbered as they are added.  A number can be reserved before its node is known, so nodes
can be shared and can even refer to themselves.

* `SyntaxGraph.add`, `SyntaxGraph.declare`, `SyntaxGraph.define`: the changes;
* `SyntaxGraph.get`: a node, or why there is none;
* `SyntaxGraph.lower`: the nodes of a path pattern, parts before the whole.
-/

namespace PathQuery

structure SyntaxGraph where
  nodes : Array (Option Node) := #[]
  deriving Repr

namespace SyntaxGraph

def size (g : SyntaxGraph) : Nat :=
  g.nodes.size

def contains (g : SyntaxGraph) (id : NodeId) : Bool :=
  id < g.size

def get (g : SyntaxGraph) (id : NodeId) : Except EvalError Node :=
  match g.nodes[id]? with
  | some (some node) => .ok node
  | some none => .error (.undefinedNode id)
  | none => .error (.unknownNode id)

section Get

variable {g : SyntaxGraph} {id : NodeId} {node : Node}

theorem getElem?_of_get (h : g.get id = .ok node) : g.nodes[id]? = some (some node) := by
  unfold get at h
  split at h
  · rename_i hnode
    cases h
    exact hnode
  · cases h
  · cases h

theorem lt_size_of_get (h : g.get id = .ok node) : id < g.size :=
  (Array.getElem?_eq_some_iff.1 (getElem?_of_get h)).1

theorem mem_of_get (h : g.get id = .ok node) : some node ∈ g.nodes :=
  Array.mem_of_getElem? (getElem?_of_get h)

end Get

/-- The children of a node; none for a number without a node. -/
def childrenOf (g : SyntaxGraph) (id : NodeId) : List NodeId :=
  match g.get id with
  | .ok node => node.children
  | .error _ => []

def add (g : SyntaxGraph) (node : Node) : NodeId × SyntaxGraph :=
  (g.size, ⟨g.nodes.push (some node)⟩)

/-- Reserves a number. -/
def declare (g : SyntaxGraph) : NodeId × SyntaxGraph :=
  (g.size, ⟨g.nodes.push none⟩)

/-- Fills a reserved number or replaces its node. -/
def define (g : SyntaxGraph) (id : NodeId) (node : Node) : Except EvalError SyntaxGraph :=
  if g.contains id then .ok ⟨g.nodes.modify id fun _ => some node⟩
  else .error (.unknownNode id)

/-- A step along any edge with one of the types. -/
def addStep (g : SyntaxGraph) (direction : Direction) (types : List String) :
    NodeId × SyntaxGraph :=
  g.add (.simplePath direction (types.map (⟨·, false⟩)) [] none)

/-! ## Patterns -/

mutual

def lower (g : SyntaxGraph) : Pattern → NodeId × SyntaxGraph
  | .edge direction types roles => g.add (.simplePath direction types roles none)
  | .seq parts =>
    let (ids, g) := g.lowerAll parts
    g.add (.sequence ids)
  | .alt parts =>
    let (ids, g) := g.lowerAll parts
    g.add (.alternative ids)
  | .star inner =>
    let (id, g) := g.lower inner
    g.add (.iterated id .star)
  | .plus inner =>
    let (id, g) := g.lower inner
    g.add (.iterated id .plus)
  | .optional inner =>
    let (id, g) := g.lower inner
    g.add (.optional id)
  | .power inner n =>
    let (id, g) := g.lower inner
    g.add (.exponentiated id n)
  | .transpose inner =>
    let (id, g) := g.lower inner
    g.add (.transposed id)

def lowerAll (g : SyntaxGraph) : List Pattern → List NodeId × SyntaxGraph
  | [] => ([], g)
  | p :: ps =>
    let (id, g) := g.lower p
    let (ids, g) := g.lowerAll ps
    (id :: ids, g)

end

end SyntaxGraph

end PathQuery

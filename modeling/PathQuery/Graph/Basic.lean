import PathQuery.Graph.Attribute
import PathQuery.Graph.Schema
import PathQuery.Text.Quoted

/-!
# Attributed, typed graphs

Vertices and edges are numbered in the order in which they are added and are never removed.  Each
vertex lists the edges that leave and enter it, and two indexes list the elements of every type.

* `Graph.declareVertexType`, `Graph.declareEdgeType`, `Graph.addVertex`, `Graph.addEdge`,
  `Graph.setVertexAttr`, `Graph.setEdgeAttr`: the changes.  A change that fails leaves at most
  some newly interned names behind;
* `Graph.incidences`: the edges at a vertex, seen from it;
* `Graph.findByType`, `Graph.findEdgesByType`: the elements of a type and of its subtypes;
* `Graph.version`: how many times an element was added or an attribute written.
-/

namespace PathQuery

inductive GraphError where
  | unknownType (name : String)
  | schema (reason : SchemaError)
  | isEdgeType (name : String)
  | isVertexType (name : String)
  | unknownVertex (v : Nat)
  | unknownEdge (e : Nat)
  deriving DecidableEq, Repr

namespace GraphError

def message : GraphError → String
  | unknownType name => "unknown type " ++ Text.quote name
  | schema reason => reason.message
  | isEdgeType name => Text.quote name ++ " is an edge type"
  | isVertexType name => Text.quote name ++ " is a vertex type"
  | unknownVertex v => s!"unknown vertex id {v}"
  | unknownEdge e => s!"unknown edge id {e}"

end GraphError

structure VertexData where
  type : NameId
  attributes : Attributes
  /-- Edges that have this vertex as alpha, ascending. -/
  leaving : List Nat
  /-- Edges that have this vertex as omega, ascending. -/
  entering : List Nat
  deriving Repr

structure EdgeData where
  type : NameId
  alpha : Nat
  omega : Nat
  attributes : Attributes
  deriving Repr

/-- For every type that has elements of its own, their set. -/
structure TypeIndex where
  entries : List (NameId × IdSet) := []
  deriving Repr

namespace TypeIndex

def get (index : TypeIndex) (type : NameId) : IdSet :=
  (index.entries.lookup type).getD .empty

def insert (index : TypeIndex) (type : NameId) (id : Nat) : TypeIndex :=
  ⟨(type, (index.get type).insert id) :: index.entries.filter (·.1 != type)⟩

/-- The union over the types that pass a test. -/
def collect (index : TypeIndex) (p : NameId → Bool) : IdSet :=
  index.entries.foldl (fun found entry => if p entry.1 then found.union entry.2 else found) .empty

end TypeIndex

structure Graph where
  names : Names := {}
  schema : Schema := {}
  vertexData : Array VertexData := #[]
  edgeData : Array EdgeData := #[]
  vertexIndex : TypeIndex := {}
  edgeIndex : TypeIndex := {}
  version : Nat := 0
  deriving Repr

namespace Graph

def empty : Graph := {}

/-! ## Elements -/

def vertexCount (g : Graph) : Nat :=
  g.vertexData.size

def edgeCount (g : Graph) : Nat :=
  g.edgeData.size

def vertices (g : Graph) : IdSet :=
  .range g.vertexCount

def edges (g : Graph) : IdSet :=
  .range g.edgeCount

def containsVertex (g : Graph) (v : Nat) : Bool :=
  v < g.vertexCount

def vertexType (g : Graph) (v : Nat) : Option NameId :=
  g.vertexData[v]?.map (·.type)

def edgeType (g : Graph) (e : Nat) : Option NameId :=
  g.edgeData[e]?.map (·.type)

def alpha (g : Graph) (e : Nat) : Option Nat :=
  g.edgeData[e]?.map (·.alpha)

def omega (g : Graph) (e : Nat) : Option Nat :=
  g.edgeData[e]?.map (·.omega)

/-- The vertex that a traversal of the incidence leaves. -/
def this (g : Graph) (e : Incidence) : Option Nat :=
  if e.normal then g.alpha e.edge else g.omega e.edge

/-- The vertex that a traversal of the incidence arrives at. -/
def that (g : Graph) (e : Incidence) : Option Nat :=
  if e.normal then g.omega e.edge else g.alpha e.edge

/-- Leaving edges first, then entering ones.  A loop is met twice when both orientations are
admitted. -/
def incidences (g : Graph) (v : Nat) (d : Direction) : List Incidence :=
  match g.vertexData[v]? with
  | none => []
  | some data =>
    (if d.admits true then data.leaving.map (⟨·, true⟩) else []) ++
      (if d.admits false then data.entering.map (⟨·, false⟩) else [])

/-! ## Names and types -/

def typeId (g : Graph) (name : String) : Option NameId :=
  (g.names.idOf name).filter g.schema.contains

def roleId (g : Graph) (name : String) : Option NameId :=
  (g.names.idOf name).filter g.schema.isRole

def isSubtypeOf (g : Graph) (sub sup : NameId) : Bool :=
  g.schema.isSubtypeOf sub sup

def rolesAt (g : Graph) (type : NameId) (e : EdgeEnd) : List NameId :=
  g.schema.rolesAt type e

/-- The incidences at a vertex whose edge has the type or a subtype of it. -/
def incidencesOfType (g : Graph) (v : Nat) (d : Direction) (type : NameId) : List Incidence :=
  (g.incidences v d).filter fun e => (g.edgeType e.edge).any (g.isSubtypeOf · type)

def findByType (g : Graph) (name : String) : IdSet :=
  match g.names.idOf name with
  | none => .empty
  | some sup => g.vertexIndex.collect (g.isSubtypeOf · sup)

def findEdgesByType (g : Graph) (name : String) : IdSet :=
  match g.names.idOf name with
  | none => .empty
  | some sup => g.edgeIndex.collect (g.isSubtypeOf · sup)

/-! ## Attributes -/

def vertexAttr (g : Graph) (v : Nat) (name : String) : Option AttrValue := do
  let key ← g.names.idOf name
  let data ← g.vertexData[v]?
  data.attributes.get key

def edgeAttr (g : Graph) (e : Nat) (name : String) : Option AttrValue := do
  let key ← g.names.idOf name
  let data ← g.edgeData[e]?
  data.attributes.get key

/-! ## Changes -/

/-- The declared types with the given names. -/
def resolveTypes (g : Graph) : List String → Except GraphError (List NameId)
  | [] => .ok []
  | name :: rest =>
    match g.typeId name with
    | none => .error (.unknownType name)
    | some id => (id :: ·) <$> g.resolveTypes rest

def intern (g : Graph) (name : String) : NameId × Graph :=
  let (id, names) := g.names.intern name
  (id, { g with names })

def internOption (g : Graph) : Option String → Option NameId × Graph
  | none => (none, g)
  | some name =>
    let (id, g) := g.intern name
    (some id, g)

/-- The attributes with their names interned from left to right. -/
def internAttributes (g : Graph) (attrs : List (String × AttrValue)) :
    List (NameId × AttrValue) × Graph :=
  let (ids, names) := g.names.internAll (attrs.map (·.1))
  (ids.zip (attrs.map (·.2)), { g with names })

def declareVertexType (g : Graph) (name : String) (supertypes : List String) :
    Except GraphError NameId × Graph :=
  let (id, g) := g.intern name
  match g.resolveTypes supertypes with
  | .error reason => (.error reason, g)
  | .ok sups =>
    match g.schema.declareVertexType id sups with
    | .error reason => (.error (.schema reason), g)
    | .ok schema => (.ok id, { g with schema })

/-- The roles are interned once the supertypes are known, even if the declaration then fails. -/
def declareEdgeType (g : Graph) (name : String) (supertypes : List String)
    (alphaRole omegaRole : Option String) : Except GraphError NameId × Graph :=
  let (id, g) := g.intern name
  match g.resolveTypes supertypes with
  | .error reason => (.error reason, g)
  | .ok sups =>
    let (alphaRole, g) := g.internOption alphaRole
    let (omegaRole, g) := g.internOption omegaRole
    match g.schema.declareEdgeType id sups alphaRole omegaRole with
    | .error reason => (.error (.schema reason), g)
    | .ok schema => (.ok id, { g with schema })

/-- Declares the type without supertypes and roles unless it is declared. -/
def ensureType (g : Graph) (id : NameId) (isEdgeType : Bool) : Graph :=
  match g.schema.declare id [] isEdgeType none none with
  | .ok schema => { g with schema }
  | .error _ => g

def addVertex (g : Graph) (typeName : String) (attrs : List (String × AttrValue)) :
    Except GraphError Nat × Graph :=
  let (type, g) := g.intern typeName
  if g.schema.isEdgeType type then (.error (.isEdgeType typeName), g)
  else
    let (attrs, g) := (g.ensureType type false).internAttributes attrs
    let v := g.vertexCount
    (.ok v,
      { g with
        vertexData := g.vertexData.push
          { type, attributes := ({} : Attributes).setAll attrs, leaving := [], entering := [] }
        vertexIndex := g.vertexIndex.insert type v
        version := g.version + 1 })

/-- Lists a new edge at its two ends. -/
def attach (vertexData : Array VertexData) (e alpha omega : Nat) : Array VertexData :=
  (vertexData.modify alpha fun data => { data with leaving := data.leaving ++ [e] }).modify omega
    fun data => { data with entering := data.entering ++ [e] }

def addEdge (g : Graph) (typeName : String) (alpha omega : Nat)
    (attrs : List (String × AttrValue)) : Except GraphError Nat × Graph :=
  if !g.containsVertex alpha then (.error (.unknownVertex alpha), g)
  else if !g.containsVertex omega then (.error (.unknownVertex omega), g)
  else
    let (type, g) := g.intern typeName
    if g.schema.contains type && !g.schema.isEdgeType type then
      (.error (.isVertexType typeName), g)
    else
      let (attrs, g) := (g.ensureType type true).internAttributes attrs
      let e := g.edgeCount
      (.ok e,
        { g with
          edgeData := g.edgeData.push
            { type, alpha, omega, attributes := ({} : Attributes).setAll attrs }
          vertexData := attach g.vertexData e alpha omega
          edgeIndex := g.edgeIndex.insert type e
          version := g.version + 1 })

def setVertexAttr (g : Graph) (v : Nat) (name : String) (value : AttrValue) :
    Except GraphError Unit × Graph :=
  if !g.containsVertex v then (.error (.unknownVertex v), g)
  else
    let (key, g) := g.intern name
    (.ok (),
      { g with
        vertexData := g.vertexData.modify v fun data =>
          { data with attributes := data.attributes.set key value }
        version := g.version + 1 })

def setEdgeAttr (g : Graph) (e : Nat) (name : String) (value : AttrValue) :
    Except GraphError Unit × Graph :=
  if g.edgeCount ≤ e then (.error (.unknownEdge e), g)
  else
    let (key, g) := g.intern name
    (.ok (),
      { g with
        edgeData := g.edgeData.modify e fun data =>
          { data with attributes := data.attributes.set key value }
        version := g.version + 1 })

end Graph

end PathQuery

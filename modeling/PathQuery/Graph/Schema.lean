import PathQuery.IdSet
import PathQuery.Graph.Incidence
import PathQuery.Graph.Names

/-!
# Type hierarchy and roles

A type is declared after its supertypes, so everything above it is known when it is declared and
its ancestors are computed once.

* `Schema.declareVertexType`, `Schema.declareEdgeType`: the two declarations, with the reasons why
  they fail in `SchemaError`;
* `Schema.isSubtypeOf`: the reflexive test by the stored ancestors;
* `Schema.rolesAt`: the roles at one end of an edge type, own before inherited.
-/

namespace PathQuery

inductive SchemaError where
  | declaredTwice (id : NameId)
  | undeclaredSupertype (id : NameId)
  /-- A vertex type below an edge type or an edge type below a vertex type. -/
  | mixedSupertypes (id : NameId)
  deriving DecidableEq, Repr

namespace SchemaError

def message : SchemaError → String
  | declaredTwice id => s!"type {id} declared twice"
  | undeclaredSupertype id => s!"supertype {id} must be declared before its subtypes"
  | mixedSupertypes id => s!"type {id} mixes vertex and edge supertypes"

end SchemaError

structure TypeDecl where
  id : NameId
  supertypes : List NameId
  isEdgeType : Bool
  /-- The type itself and every type above it. -/
  ancestors : IdSet
  alphaRole : Option NameId
  omegaRole : Option NameId
  deriving Repr

namespace TypeDecl

def roleAt (decl : TypeDecl) : EdgeEnd → Option NameId
  | .alpha => decl.alphaRole
  | .omega => decl.omegaRole

end TypeDecl

/-- The declared types, the latest first. -/
structure Schema where
  types : List TypeDecl := []
  deriving Repr

namespace Schema

def get (schema : Schema) (id : NameId) : Option TypeDecl :=
  schema.types.find? (·.id == id)

def contains (schema : Schema) (id : NameId) : Bool :=
  (schema.get id).isSome

def isEdgeType (schema : Schema) (id : NameId) : Bool :=
  (schema.get id).any (·.isEdgeType)

/-- Whether some edge type has the name as a role. -/
def isRole (schema : Schema) (id : NameId) : Bool :=
  schema.types.any fun decl => decl.alphaRole == some id || decl.omegaRole == some id

/-! ## Declarations -/

/-- The ancestors of a new type: what is gathered so far and all that lies above the supertypes. -/
def gatherAncestors (schema : Schema) (id : NameId) (isEdgeType : Bool) (gathered : IdSet) :
    List NameId → Except SchemaError IdSet
  | [] => .ok gathered
  | sup :: sups =>
    match schema.get sup with
    | none => .error (.undeclaredSupertype sup)
    | some decl =>
      if decl.isEdgeType = isEdgeType then
        gatherAncestors schema id isEdgeType (gathered.union decl.ancestors) sups
      else .error (.mixedSupertypes id)

def declare (schema : Schema) (id : NameId) (supertypes : List NameId) (isEdgeType : Bool)
    (alphaRole omegaRole : Option NameId) : Except SchemaError Schema :=
  if schema.contains id then .error (.declaredTwice id)
  else do
    let ancestors ← schema.gatherAncestors id isEdgeType (.singleton id) supertypes
    pure ⟨{ id, supertypes, isEdgeType, ancestors, alphaRole, omegaRole } :: schema.types⟩

def declareVertexType (schema : Schema) (id : NameId) (supertypes : List NameId) :
    Except SchemaError Schema :=
  schema.declare id supertypes false none none

def declareEdgeType (schema : Schema) (id : NameId) (supertypes : List NameId)
    (alphaRole omegaRole : Option NameId) : Except SchemaError Schema :=
  schema.declare id supertypes true alphaRole omegaRole

/-! ## Questions -/

/-- A type that is not declared is a subtype of itself only. -/
def isSubtypeOf (schema : Schema) (sub sup : NameId) : Bool :=
  sub == sup || (schema.get sub).any (·.ancestors.contains sup)

/-- The own role comes first, then the roles of the other ancestors in ascending order of their
types; a role that is already listed is not repeated. -/
def rolesAt (schema : Schema) (id : NameId) (e : EdgeEnd) : List NameId :=
  match schema.get id with
  | none => []
  | some decl =>
    let inherited := (decl.ancestors.toList.filter (· != id)).filterMap fun sup =>
      (schema.get sup).bind (·.roleAt e)
    inherited.foldl (fun roles role => if role ∈ roles then roles else roles ++ [role])
      (decl.roleAt e).toList

end Schema

end PathQuery

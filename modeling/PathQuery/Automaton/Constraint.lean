import PathQuery.Graph.Basic
import PathQuery.Pattern.Printer
import PathQuery.Syntax.Guard

/-!
# What a step asks of an edge

A constraint is resolved against the names of a graph once, when its step is compiled.

* `TypeCollection`: allowed and forbidden types; forbidden types win;
* `RoleSet`: roles that the edge must give to the vertex at one end of the step;
* `EdgeConstraint`: direction, types, roles, guard and the label that shows them;
* `EdgeConstraint.matchesStructure`: all clauses but the guard;
* `EdgeConstraint.reversed`: the constraint of the same step taken backwards.
-/

namespace PathQuery

/-! ## Types -/

structure TypeCollection where
  allowed : IdSet
  forbidden : IdSet
  /-- No allowed type was named, so whatever is not forbidden passes. -/
  allowAll : Bool
  deriving DecidableEq, Repr

namespace TypeCollection

def any : TypeCollection :=
  ⟨.empty, .empty, true⟩

/-- An allowed name that the graph does not know accepts nothing; an unknown forbidden name
excludes nothing. -/
def resolve (g : Graph) (terms : List TypeTerm) : TypeCollection where
  allowed := .ofList <| terms.filterMap fun t => if t.forbidden then none else g.typeId t.name
  forbidden := .ofList <| terms.filterMap fun t => if t.forbidden then g.typeId t.name else none
  allowAll := terms.all (·.forbidden)

def isUnrestricted (types : TypeCollection) : Bool :=
  types.allowAll && types.forbidden.isEmpty

def accepts (types : TypeCollection) (g : Graph) (type : NameId) : Bool :=
  !(types.forbidden.toList.any (g.isSubtypeOf type)) &&
    (types.allowAll || types.allowed.toList.any (g.isSubtypeOf type))

end TypeCollection

/-! ## Roles -/

/-- The end of a step at which roles are looked up. -/
inductive RoleEnd where
  | arrival
  | departure
  deriving DecidableEq, Repr

namespace RoleEnd

def toText : RoleEnd → String
  | arrival => "to"
  | departure => "from"

def opposite : RoleEnd → RoleEnd
  | arrival => departure
  | departure => arrival

/-- The end of the edge at which a step along the incidence arrives or from which it departs. -/
def edgeEnd : RoleEnd → Incidence → EdgeEnd
  | arrival, e => e.thatEnd
  | departure, e => e.thisEnd

end RoleEnd

structure RoleSet where
  roles : IdSet
  place : RoleEnd
  deriving DecidableEq, Repr

namespace RoleSet

/-- A name that is no role of the graph matches nothing. -/
def resolve (g : Graph) (names : List String) (place : RoleEnd) : RoleSet :=
  ⟨.ofList (names.filterMap g.roleId), place⟩

def reversed (roles : RoleSet) : RoleSet :=
  { roles with place := roles.place.opposite }

def accepts (roles : RoleSet) (g : Graph) (type : NameId) (e : Incidence) : Bool :=
  (g.rolesAt type (roles.place.edgeEnd e)).any roles.roles.contains

end RoleSet

/-! ## Constraints -/

structure EdgeConstraint where
  direction : Direction
  types : TypeCollection
  roles : Option RoleSet
  guard : Option Guard
  label : List Char
  deriving Repr

namespace EdgeConstraint

/-- The arrow, the restriction as it was written, and the node of the guard. -/
def renderLabel (direction : Direction) (types : List TypeTerm) (roles : List String)
    (guard : Option Guard) : List Char :=
  direction.arrow.toList ++ Pattern.renderRestriction types roles ++
    match guard with
    | none => []
    | some guard => [' ', '['] ++ guard.predicate.toText.toList ++ [']']

/-- Any edge in the direction. -/
def wildcard (direction : Direction) : EdgeConstraint where
  direction
  types := .any
  roles := none
  guard := none
  label := direction.arrow.toList

def resolve (g : Graph) (direction : Direction) (types : List TypeTerm) (roles : List String)
    (guard : Option Guard) : EdgeConstraint where
  direction
  types := .resolve g types
  roles := if roles.isEmpty then none else some (.resolve g roles .arrival)
  guard
  label := renderLabel direction types roles guard

/-- The label follows the direction as long as it starts with the arrow. -/
def reversed (c : EdgeConstraint) : EdgeConstraint :=
  let arrow := c.direction.arrow.toList
  { c with
    direction := c.direction.reversed
    roles := c.roles.map RoleSet.reversed
    label :=
      if arrow.isPrefixOf c.label then
        c.direction.reversed.arrow.toList ++ c.label.drop arrow.length
      else c.label }

/-- Direction, types and roles.  With roles and types given either may match; with roles only the
types have no say. -/
def matchesStructure (c : EdgeConstraint) (g : Graph) (e : Incidence) : Bool :=
  c.direction.admits e.normal &&
    if c.types.isUnrestricted && c.roles.isNone then true
    else
      match g.edgeType e.edge with
      | none => false
      | some type =>
        match c.roles with
        | some roles =>
          roles.accepts g type e || (!c.types.isUnrestricted && c.types.accepts g type)
        | none => c.types.accepts g type

/-- Equal but for the label. -/
def sameSymbol (c d : EdgeConstraint) : Bool :=
  c.direction = d.direction && c.types = d.types && c.roles = d.roles && c.guard = d.guard

end EdgeConstraint

end PathQuery

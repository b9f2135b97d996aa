import PathQuery.Proofs.Automaton.Constraint

/-!
# What a restriction says

A restriction is written with the names of types and roles and is resolved to numbers.  Here it is
read as it was written, and compared with the constraint that is made of it.

* `Graph.Covers`, `Graph.TypesAdmit`, `Graph.RolesAdmit`: what the two lists of names say of a type;
* `Graph.Admits`: the table of both;
* `HasSay`: types that are written are taken into account;
* `matchesStructure_resolve`: the constraint follows the table if they are, and its roles alone if
  they are not.
-/

namespace PathQuery

namespace Graph

/-- The name is that of the type or of one above it.  A name that is no type covers nothing. -/
def Covers (g : Graph) (name : String) (type : NameId) : Prop :=
  ∃ sup, g.typeId name = some sup ∧ g.isSubtypeOf type sup = true

/-- No forbidden term covers the type, and an allowed one does if there are any. -/
def TypesAdmit (g : Graph) (terms : List TypeTerm) (type : NameId) : Prop :=
  (∀ term ∈ terms, term.forbidden = true → ¬ g.Covers term.name type) ∧
    ((∃ term ∈ terms, term.forbidden = false) →
      ∃ term ∈ terms, term.forbidden = false ∧ g.Covers term.name type)

/-- One of the names is a role that the type has at that end. -/
def RolesAdmit (g : Graph) (names : List String) (type : NameId) (e : EdgeEnd) : Prop :=
  ∃ name ∈ names, ∃ role, g.names.idOf name = some role ∧ g.schema.Exposes type e role

/-- The direction, and then the roles at the end where the step arrives or the types; where nothing
is written of either, anything. -/
def Admits (g : Graph) (direction : Direction) (types : List TypeTerm) (roles : List String)
    (type : NameId) (e : Incidence) : Prop :=
  direction.admits e.normal = true ∧
    ((types = [] ∧ roles = []) ∨ (roles ≠ [] ∧ g.RolesAdmit roles type e.thatEnd) ∨
      (types ≠ [] ∧ g.TypesAdmit types type))

/-- Some term allows a type or forbids one that the graph has. -/
def HasSay (g : Graph) (terms : List TypeTerm) : Prop :=
  ∃ term ∈ terms, term.forbidden = false ∨ g.typeId term.name ≠ none

end Graph

variable {g : Graph} {type : NameId}

theorem Graph.typesAdmit_nil : g.TypesAdmit [] type := by
  refine ⟨fun term hterm => absurd hterm List.not_mem_nil, ?_⟩
  rintro ⟨term, hterm, _⟩
  exact absurd hterm List.not_mem_nil

theorem Graph.not_hasSay_nil : ¬ g.HasSay [] := by
  rintro ⟨term, hterm, _⟩
  exact absurd hterm List.not_mem_nil

/-! ## Resolved types and roles -/

namespace TypeCollection

variable {terms : List TypeTerm}

theorem mem_forbidden_resolve {id : NameId} : id ∈ (resolve g terms).forbidden ↔
    ∃ term ∈ terms, term.forbidden = true ∧ g.typeId term.name = some id := by
  rw [resolve, IdSet.mem_ofList, List.mem_filterMap]
  refine exists_congr fun term => and_congr_right fun _ => ?_
  cases term.forbidden with
  | true => simp
  | false => simp

theorem mem_allowed_resolve {id : NameId} : id ∈ (resolve g terms).allowed ↔
    ∃ term ∈ terms, term.forbidden = false ∧ g.typeId term.name = some id := by
  rw [resolve, IdSet.mem_ofList, List.mem_filterMap]
  refine exists_congr fun term => and_congr_right fun _ => ?_
  cases term.forbidden with
  | true => simp
  | false => simp

theorem any_isSubtypeOf {ids : IdSet} {forbidden : Bool} (hids : ∀ id, id ∈ ids ↔
      ∃ term ∈ terms, term.forbidden = forbidden ∧ g.typeId term.name = some id) :
    ids.toList.any (g.isSubtypeOf type) = true ↔
      ∃ term ∈ terms, term.forbidden = forbidden ∧ g.Covers term.name type := by
  rw [List.any_eq_true]
  constructor
  · rintro ⟨id, hid, hsub⟩
    rcases (hids id).1 hid with ⟨term, hterm, hkind, hname⟩
    exact ⟨term, hterm, hkind, id, hname, hsub⟩
  · rintro ⟨term, hterm, hkind, id, hname, hsub⟩
    exact ⟨id, (hids id).2 ⟨term, hterm, hkind, hname⟩, hsub⟩

theorem accepts_resolve : (resolve g terms).accepts g type = true ↔ g.TypesAdmit terms type := by
  have hall : (resolve g terms).allowAll = true ↔ ¬ ∃ term ∈ terms, term.forbidden = false := by
    simp [resolve]
  rw [accepts, Bool.and_eq_true, Bool.not_eq_true', ← Bool.not_eq_true,
    any_isSubtypeOf fun _ => mem_forbidden_resolve, Bool.or_eq_true, hall,
    any_isSubtypeOf fun _ => mem_allowed_resolve, Graph.TypesAdmit, ← imp_iff_not_or]
  simp only [not_exists, not_and]

theorem isUnrestricted_resolve : (resolve g terms).isUnrestricted = false ↔ g.HasSay terms := by
  constructor
  · intro h
    rw [isUnrestricted, Bool.and_eq_false_iff] at h
    rcases h with hall | hforbidden
    · have hterm : ∃ term ∈ terms, term.forbidden = false := by simpa [resolve] using hall
      rcases hterm with ⟨term, hterm, hallowed⟩
      exact ⟨term, hterm, .inl hallowed⟩
    · rcases IdSet.not_isEmpty_iff.1 (Bool.not_eq_true' _ ▸ hforbidden) with ⟨id, hid⟩
      rcases mem_forbidden_resolve.1 hid with ⟨term, hterm, _, hname⟩
      exact ⟨term, hterm, .inr (by simp [hname])⟩
  · rintro ⟨term, hterm, hsay⟩
    exact not_isUnrestricted hterm hsay

end TypeCollection

theorem RoleSet.accepts_resolve {names : List String} {e : Incidence} :
    (resolve g names .arrival).accepts g type e = true ↔ g.RolesAdmit names type e.thatEnd := by
  have hmem (role : NameId) : role ∈ g.rolesAt type e.thatEnd ↔
      g.schema.Exposes type e.thatEnd role :=
    Schema.mem_rolesAt
  rw [accepts, List.any_eq_true]
  constructor
  · rintro ⟨role, hrole, hlisted⟩
    rcases List.mem_filterMap.1 (IdSet.mem_ofList.1 (IdSet.contains_eq_true.1 hlisted)) with
      ⟨name, hname, hid⟩
    exact ⟨name, hname, role, (Option.filter_eq_some_iff.1 hid).1, (hmem role).1 hrole⟩
  · rintro ⟨name, hname, role, hid, hrole⟩
    have hexposed := (hmem role).2 hrole
    refine ⟨role, hexposed, IdSet.contains_eq_true.2 (IdSet.mem_ofList.2 ?_)⟩
    -- What a type has as a role is a role of the graph.
    refine List.mem_filterMap.2 ⟨name, hname, Option.filter_eq_some_iff.2 ⟨hid, ?_⟩⟩
    exact Schema.isRole_of_mem_rolesAt hexposed

/-! ## The table -/

namespace EdgeConstraint

variable {direction : Direction} {types : List TypeTerm} {roles : List String}
  {guard : Option Guard} {e : Incidence}

theorem matchesStructure_resolve_nil (htype : g.edgeType e.edge = some type) :
    (resolve g direction types [] guard).matchesStructure g e = true ↔
      direction.admits e.normal = true ∧ g.TypesAdmit types type := by
  rw [matchesStructure_of_type htype, Bool.and_eq_true, ← TypeCollection.accepts_resolve]
  rfl

theorem matchesStructure_resolve_cons (htype : g.edgeType e.edge = some type)
    (hroles : roles ≠ []) :
    (resolve g direction types roles guard).matchesStructure g e = true ↔
      direction.admits e.normal = true ∧
        (g.RolesAdmit roles type e.thatEnd ∨ (g.HasSay types ∧ g.TypesAdmit types type)) := by
  have hresolve : (resolve g direction types roles guard).roles =
      some (.resolve g roles .arrival) := by
    rw [resolve, if_neg (by simpa using hroles)]
  rw [matchesStructure_of_type htype, hresolve]
  change (direction.admits e.normal && ((RoleSet.resolve g roles .arrival).accepts g type e ||
    (!(TypeCollection.resolve g types).isUnrestricted &&
      (TypeCollection.resolve g types).accepts g type))) = true ↔ _
  rw [Bool.and_eq_true, Bool.or_eq_true, Bool.and_eq_true, Bool.not_eq_true',
    RoleSet.accepts_resolve, TypeCollection.isUnrestricted_resolve,
    TypeCollection.accepts_resolve]

/-- Roles are asked first, and types that are written are asked, too, if there are no roles or the
types have a say.  Forbidden types that the graph does not have are as good as not written. -/
theorem matchesStructure_resolve (htype : g.edgeType e.edge = some type) (direction : Direction)
    (types : List TypeTerm) (roles : List String) (guard : Option Guard) :
    (roles = [] ∨ types = [] ∨ g.HasSay types →
      ((resolve g direction types roles guard).matchesStructure g e = true ↔
        g.Admits direction types roles type e)) ∧
    (roles ≠ [] → ¬ g.HasSay types →
      ((resolve g direction types roles guard).matchesStructure g e = true ↔
        direction.admits e.normal = true ∧ g.RolesAdmit roles type e.thatEnd)) := by
  constructor
  · intro hsay
    by_cases hroles : roles = []
    · -- Types that are not written admit everything, so the first case of the table is covered.
      subst hroles
      rw [matchesStructure_resolve_nil htype, Graph.Admits]
      refine and_congr_right fun _ => ?_
      by_cases htypes : types = []
      · simp [htypes, Graph.typesAdmit_nil]
      · simp [htypes]
    · rw [matchesStructure_resolve_cons htype hroles, Graph.Admits]
      refine and_congr_right fun _ => ?_
      -- Types that are not written have no say next to roles.
      by_cases htypes : types = []
      · simp [htypes, hroles, Graph.not_hasSay_nil]
      · have hheard : g.HasSay types := (hsay.resolve_left hroles).resolve_left htypes
        simp [htypes, hroles, hheard]
  · intro hroles hsilent
    rw [matchesStructure_resolve_cons htype hroles]
    simp [hsilent]

/-- Roads are ways, and a way has a stop where it ends; a path has no roles. -/
def harbour : Graph :=
  let g := (Graph.empty.declareEdgeType "way" [] none (some "stop")).2
  let g := (g.declareEdgeType "road" ["way"] none none).2
  let g := ((g.addVertex "Town" []).2.addVertex "Town" []).2
  ((g.addEdge "road" 0 1 []).2.addEdge "path" 1 0 []).2

/-- The forbidden road is taken for the stop that it inherits. -/
theorem matchesStructure_resolve_harbour :
    harbour.edgeType 0 = some 2 ∧ harbour.HasSay [⟨"road", true⟩] ∧
      harbour.Admits .outgoing [⟨"road", true⟩] ["stop"] 2 ⟨0, true⟩ := by
  have htype : harbour.edgeType 0 = some 2 := by decide +kernel
  have hsay : harbour.HasSay [⟨"road", true⟩] :=
    ⟨_, List.mem_cons_self, .inr (by decide +kernel)⟩
  have htable :=
    matchesStructure_resolve (e := ⟨0, true⟩) htype .outgoing [⟨"road", true⟩] ["stop"] none
  exact ⟨htype, hsay, (htable.1 (.inr (.inr hsay))).1 (by decide +kernel)⟩

/-- A path is not forbidden where ferries are and no ferry is known, and still it is not taken. -/
theorem not_matchesStructure_of_unknown :
    harbour.edgeType 1 = some 4 ∧
      harbour.Admits .outgoing [⟨"ferry", true⟩] ["stop"] 4 ⟨1, true⟩ ∧
      (resolve harbour .outgoing [⟨"ferry", true⟩] ["stop"] none).matchesStructure harbour
        ⟨1, true⟩ = false := by
  have hunknown : harbour.typeId "ferry" = none := by decide +kernel
  have htypes : harbour.TypesAdmit [⟨"ferry", true⟩] 4 := by
    constructor
    · rintro term hterm _ ⟨sup, hsup, _⟩
      rw [List.mem_singleton.1 hterm, hunknown] at hsup
      cases hsup
    · rintro ⟨term, hterm, hallowed⟩
      rw [List.mem_singleton.1 hterm] at hallowed
      cases hallowed
  exact ⟨by decide +kernel, ⟨rfl, .inr (.inr ⟨List.cons_ne_nil _ _, htypes⟩)⟩, by decide +kernel⟩

end EdgeConstraint

end PathQuery

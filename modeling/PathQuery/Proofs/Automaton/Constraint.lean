import PathQuery.Proofs.Automaton.Relabel
import PathQuery.Proofs.Graph.Grown

/-!
# Constraints in a grown graph

A constraint refers to types and roles by number.  Numbers that a graph has no types and roles for
say nothing about its edges, with one exception: with roles given, it matters whether anything is
said about types at all.

* `TypeCollection.known`, `RoleSet.known`: without the numbers that a graph has nothing for;
* `EdgeConstraint.known`: the same for a constraint, unless the exception is met;
* `matchesStructure_grows`: a constraint matches the same edges when the graph has grown;
* `matchesStructure_known`: and so does what is known of it;
* `resolve_known`: a step that is compiled later, as far as it is known earlier, is the step that is
  compiled earlier.
-/

namespace PathQuery

theorem IdSet.filter_ofList (xs : List Nat) (p : Nat → Bool) :
    (ofList xs).filter p = ofList (xs.filter p) := by
  refine ext fun x => ?_
  rw [mem_filter, mem_ofList, mem_ofList, List.mem_filter]

variable {g h : Graph}

/-! ## Types -/

namespace TypeCollection

/-- Types that the graph does not have accept and exclude nothing. -/
def known (g : Graph) (types : TypeCollection) : TypeCollection where
  allowed := types.allowed.filter g.schema.contains
  forbidden := types.forbidden.filter g.schema.contains
  allowAll := types.allowAll

theorem accepts_of_isUnrestricted {types : TypeCollection} (hfree : types.isUnrestricted = true)
    (g : Graph) (type : NameId) : types.accepts g type = true := by
  rw [isUnrestricted, Bool.and_eq_true, IdSet.isEmpty, List.isEmpty_iff] at hfree
  rw [accepts, hfree.1, hfree.2]
  rfl

theorem not_isUnrestricted {terms : List TypeTerm} {term : TypeTerm} (hterm : term ∈ terms)
    (hsay : term.forbidden = false ∨ g.typeId term.name ≠ none) :
    (resolve g terms).isUnrestricted = false := by
  rw [isUnrestricted, Bool.and_eq_false_imp]
  intro hall
  have hforbidden : term.forbidden = true := List.all_eq_true.1 hall term hterm
  rcases hsay with hallowed | hdeclared
  · rw [hforbidden] at hallowed
    cases hallowed
  · rcases Option.ne_none_iff_exists'.1 hdeclared with ⟨id, hid⟩
    have hmem : id ∈ (resolve g terms).forbidden := by
      refine IdSet.mem_ofList.2 (List.mem_filterMap.2 ⟨term, hterm, ?_⟩)
      rw [if_pos hforbidden, hid]
    rw [← Bool.not_eq_true']
    exact IdSet.not_isEmpty_iff.2 ⟨id, hmem⟩

theorem accepts_grows (hgh : g.Grows h) {type : NameId} (htype : g.schema.contains type = true)
    (types : TypeCollection) : types.accepts h type = types.accepts g type := by
  have hsub : h.isSubtypeOf type = g.isSubtypeOf type :=
    funext fun sup => hgh.schema.isSubtypeOf_eq htype sup
  rw [accepts, accepts, hsub]

theorem accepts_known (hg : g.Grounded) {type : NameId} (htype : g.schema.contains type = true)
    (types : TypeCollection) : (types.known g).accepts g type = types.accepts g type := by
  have hany : ∀ s : IdSet, (s.filter g.schema.contains).toList.any (g.isSubtypeOf type) =
      s.toList.any (g.isSubtypeOf type) := by
    intro s
    rw [IdSet.filter, List.any_filter]
    congr 1
    funext sup
    -- Nothing but a declared type is above a declared type.
    cases hsub : g.isSubtypeOf type sup with
    | false => exact Bool.and_false _
    | true => rw [hg.closed.contains_of_isSubtypeOf htype hsub]; rfl
  rw [accepts, accepts, known, hany, hany]

theorem known_resolve (hgh : g.Grows h) (hg : g.Grounded) (terms : List TypeTerm) :
    (resolve h terms).known g = resolve g terms := by
  simp only [known, resolve, IdSet.filter_ofList, List.filter_filterMap,
    apply_ite (Option.filter g.schema.contains), Option.filter_none, hgh.typeId_filter hg]

end TypeCollection

/-! ## Roles -/

namespace RoleSet

def known (g : Graph) (roles : RoleSet) : RoleSet :=
  { roles with roles := roles.roles.filter g.schema.isRole }

theorem accepts_grows (hgh : g.Grows h) (hg : g.Grounded) {type : NameId}
    (htype : g.schema.contains type = true) (roles : RoleSet) (e : Incidence) :
    roles.accepts h type e = roles.accepts g type e := by
  rw [accepts, accepts, Graph.rolesAt, hgh.schema.rolesAt_eq hg.closed htype]
  rfl

theorem accepts_known (roles : RoleSet) (g : Graph) (type : NameId) (e : Incidence) :
    (roles.known g).accepts g type e = roles.accepts g type e := by
  rw [Bool.eq_iff_iff, accepts, accepts, List.any_eq_true, List.any_eq_true]
  refine exists_congr fun role => and_congr_right fun hrole => ?_
  rw [known, IdSet.contains_eq_true, IdSet.contains_eq_true, IdSet.mem_filter]
  exact and_iff_left (Schema.isRole_of_mem_rolesAt hrole)

theorem known_resolve (hgh : g.Grows h) (hg : g.Grounded) (names : List String) (place : RoleEnd) :
    (resolve h names place).known g = resolve g names place := by
  rw [known, resolve, IdSet.filter_ofList, List.filter_filterMap]
  simp only [hgh.roleId_filter hg]
  rfl

end RoleSet

/-! ## Constraints -/

namespace EdgeConstraint

/-- With roles only, types have no say; so a restriction that is not known must not be dropped where
it is the only one. -/
def known (g : Graph) (c : EdgeConstraint) : EdgeConstraint :=
  if c.roles.isNone || (c.types.known g).isUnrestricted == c.types.isUnrestricted then
    { c with types := c.types.known g, roles := c.roles.map (RoleSet.known g) }
  else c

theorem matchesStructure_of_type {c : EdgeConstraint} {e : Incidence} {type : NameId}
    (htype : g.edgeType e.edge = some type) :
    c.matchesStructure g e = (c.direction.admits e.normal &&
      match c.roles with
      | none => c.types.accepts g type
      | some roles =>
        roles.accepts g type e || (!c.types.isUnrestricted && c.types.accepts g type)) := by
  unfold matchesStructure
  rw [htype]
  cases hroles : c.roles with
  | some roles => simp
  | none =>
    cases hfree : c.types.isUnrestricted with
    | false => rfl
    | true => rw [TypeCollection.accepts_of_isUnrestricted hfree]; rfl

theorem matchesStructure_grows (hgh : g.Grows h) (hg : g.Grounded) (c : EdgeConstraint)
    {e : Incidence} {type : NameId} (htype : g.edgeType e.edge = some type) :
    c.matchesStructure h e = c.matchesStructure g e := by
  have hcontains := hg.contains_of_edgeType htype
  rw [matchesStructure_of_type htype, matchesStructure_of_type (hgh.edgeType_eq ▸ htype)]
  simp only [TypeCollection.accepts_grows hgh hcontains, RoleSet.accepts_grows hgh hg hcontains]

theorem matchesStructure_known (hg : g.Grounded) (c : EdgeConstraint) {e : Incidence}
    {type : NameId} (htype : g.edgeType e.edge = some type) :
    (c.known g).matchesStructure g e = c.matchesStructure g e := by
  have htypes := TypeCollection.accepts_known hg (hg.contains_of_edgeType htype) c.types
  unfold known
  split
  · rename_i hmode
    rw [matchesStructure_of_type htype, matchesStructure_of_type htype]
    -- Without roles types always have a say; with roles they have it on both sides or on neither.
    cases hroles : c.roles with
    | none => simp only [Option.map_none, htypes]
    | some roles =>
      rw [hroles, Option.isNone_some, Bool.false_or, beq_iff_eq] at hmode
      simp only [Option.map_some, htypes, hmode, RoleSet.accepts_known]
  · rfl

/-- Whether types have a say in a step with roles is the same in both graphs. -/
def SameMode (g h : Graph) (types : List TypeTerm) (roles : List String) : Prop :=
  roles ≠ [] →
    (TypeCollection.resolve h types).isUnrestricted =
      (TypeCollection.resolve g types).isUnrestricted

/-- An allowed type has a say whether or not it is declared, a forbidden one if it is. -/
theorem SameMode.of_mem (hgh : g.Grows h) (hg : g.Grounded) {types : List TypeTerm}
    {term : TypeTerm} (hterm : term ∈ types)
    (hsay : term.forbidden = false ∨ g.typeId term.name ≠ none) (roles : List String) :
    SameMode g h types roles := by
  have hlater : term.forbidden = false ∨ h.typeId term.name ≠ none := by
    refine hsay.imp_right fun hdeclared hnone => hdeclared ?_
    rw [← hgh.typeId_filter hg, hnone, Option.filter_none]
  intro _
  rw [TypeCollection.not_isUnrestricted hterm hsay, TypeCollection.not_isUnrestricted hterm hlater]

theorem known_resolve (hgh : g.Grows h) (hg : g.Grounded) (direction : Direction)
    {types : List TypeTerm} {roles : List String} (guard : Option Guard)
    (hmode : SameMode g h types roles) :
    (resolve h direction types roles guard).known g = resolve g direction types roles guard := by
  have htypes := TypeCollection.known_resolve hgh hg types
  have hroles := RoleSet.known_resolve hgh hg roles .arrival
  unfold known resolve
  simp only [htypes]
  cases roles with
  | nil => rfl
  | cons role rest =>
    simp only [List.isEmpty_cons, Bool.false_eq_true, if_false, Option.isNone_some, Bool.false_or,
      hmode (List.cons_ne_nil role rest), beq_self_eq_true, if_true, Option.map_some, hroles]

theorem known_reversed (g : Graph) (c : EdgeConstraint) :
    c.reversed.known g = (c.known g).reversed := by
  unfold known reversed
  rw [Option.isNone_map]
  split
  · simp only [Option.map_map]
    rfl
  · rfl

/-- What a graph knows of constraints. -/
def reading (g : Graph) : Relabeling where
  apply := known g
  direction_apply c := by
    unfold known
    split <;> rfl
  guard_apply c := by
    unfold known
    split <;> rfl
  reversed_apply c := (known_reversed g c).symm

end EdgeConstraint

end PathQuery

import Mathlib.Data.List.Basic
import PathQuery.Graph.Schema

/-!
# What later declarations leave alone

A type is declared after everything above it, so what a schema says of a declared type never
changes, whatever is declared later.

* `Schema.Closed`: all that lies above a declared type is declared;
* `Schema.Extends`: the declarations of a schema are kept by a later one;
* `Extends.isSubtypeOf_eq`, `Extends.rolesAt_eq`: the later one answers the same for a type of the
  earlier one;
* `Schema.Exposes`, `mem_rolesAt`: a type has the roles that it or a type above it declares;
* `Closed.declare`, `extends_of_declare`: what a declaration keeps.
-/

namespace PathQuery
namespace Schema

variable {s s' s'' : Schema} {id sup : NameId} {decl : TypeDecl}

theorem id_of_get (h : s.get id = some decl) : decl.id = id := by
  simpa using List.find?_some h

theorem mem_of_get (h : s.get id = some decl) : decl ∈ s.types :=
  List.mem_of_find?_eq_some h

/-- What lies above a declared type is declared, too. -/
def Closed (s : Schema) : Prop :=
  ∀ decl ∈ s.types, ∀ sup ∈ decl.ancestors, s.contains sup = true

/-- The declarations and the roles of the first schema are kept. -/
structure Extends (s s' : Schema) : Prop where
  get {id : NameId} {decl : TypeDecl} : s.get id = some decl → s'.get id = some decl
  isRole {id : NameId} : s.isRole id = true → s'.isRole id = true

namespace Extends

theorem refl (s : Schema) : s.Extends s :=
  ⟨id, id⟩

theorem trans (h : s.Extends s') (h' : s'.Extends s'') : s.Extends s'' :=
  ⟨fun hget => h'.get (h.get hget), fun hrole => h'.isRole (h.isRole hrole)⟩

theorem contains (h : s.Extends s') (hid : s.contains id = true) : s'.contains id = true := by
  rcases Option.isSome_iff_exists.1 hid with ⟨decl, hdecl⟩
  exact Option.isSome_iff_exists.2 ⟨decl, h.get hdecl⟩

theorem get_eq (h : s.Extends s') (hid : s.contains id = true) : s'.get id = s.get id := by
  rcases Option.isSome_iff_exists.1 hid with ⟨decl, hdecl⟩
  rw [hdecl, h.get hdecl]

/-- The ancestors of a type are those that it was declared with. -/
theorem isSubtypeOf_eq (h : s.Extends s') (hid : s.contains id = true) (sup : NameId) :
    s'.isSubtypeOf id sup = s.isSubtypeOf id sup := by
  unfold isSubtypeOf
  rw [h.get_eq hid]

theorem rolesAt_eq (h : s.Extends s') (hclosed : s.Closed) (hid : s.contains id = true)
    (e : EdgeEnd) : s'.rolesAt id e = s.rolesAt id e := by
  rcases Option.isSome_iff_exists.1 hid with ⟨decl, hdecl⟩
  have hinherited :
      (decl.ancestors.toList.filter (· != id)).filterMap
          (fun sup => (s'.get sup).bind (·.roleAt e)) =
        (decl.ancestors.toList.filter (· != id)).filterMap
          (fun sup => (s.get sup).bind (·.roleAt e)) := by
    refine List.filterMap_congr fun sup hsup => ?_
    rw [h.get_eq (hclosed decl (mem_of_get hdecl) sup (List.mem_of_mem_filter hsup))]
  simp only [rolesAt, hdecl, h.get hdecl, hinherited]

end Extends

theorem Closed.contains_of_isSubtypeOf (h : s.Closed) (hid : s.contains id = true)
    (hsub : s.isSubtypeOf id sup = true) : s.contains sup = true := by
  rcases Option.isSome_iff_exists.1 hid with ⟨decl, hdecl⟩
  rw [isSubtypeOf, hdecl, Bool.or_eq_true, beq_iff_eq] at hsub
  rcases hsub with rfl | hancestor
  · exact hid
  · exact h decl (mem_of_get hdecl) sup (IdSet.contains_eq_true.1 hancestor)

/-! ## Roles -/

section Roles

variable {type role : NameId} {e : EdgeEnd}

/-- The type or one above it declares the role at that end. -/
def Exposes (s : Schema) (type : NameId) (e : EdgeEnd) (role : NameId) : Prop :=
  ∃ sup decl, s.isSubtypeOf type sup = true ∧ s.get sup = some decl ∧ decl.roleAt e = some role

/-- A role that is listed again is left out; nothing else is. -/
theorem mem_foldl_distinct {roles known : List NameId} :
    role ∈ roles.foldl (fun known r => if r ∈ known then known else known ++ [r]) known ↔
      role ∈ known ∨ role ∈ roles := by
  induction roles generalizing known with
  | nil => simp
  | cons r roles ih =>
    rw [List.foldl_cons, ih]
    split
    · rename_i hr
      rw [List.mem_cons, or_left_comm]
      exact (or_iff_right_of_imp fun hrole => .inl (hrole ▸ hr)).symm
    · rw [List.mem_append, List.mem_singleton, List.mem_cons, or_assoc]

theorem mem_rolesAt : role ∈ s.rolesAt type e ↔ s.Exposes type e role := by
  unfold rolesAt Exposes
  split
  · rename_i hnone
    refine iff_of_false List.not_mem_nil ?_
    rintro ⟨sup, decl, hsub, hdecl, _⟩
    -- A type that is not declared is below itself only.
    rw [isSubtypeOf, hnone, Option.any_none, Bool.or_false, beq_iff_eq] at hsub
    rw [hsub, hdecl] at hnone
    cases hnone
  · rename_i decl hdecl
    rw [mem_foldl_distinct, Option.mem_toList, List.mem_filterMap]
    constructor
    · rintro (hown | ⟨sup, hsup, hrole⟩)
      · exact ⟨type, decl, by simp [isSubtypeOf], hdecl, hown⟩
      · rcases Option.bind_eq_some_iff.1 hrole with ⟨decl', hdecl', hrole⟩
        refine ⟨sup, decl', ?_, hdecl', hrole⟩
        rw [isSubtypeOf, hdecl, Option.any_some, Bool.or_eq_true]
        exact .inr (IdSet.contains_eq_true.2 (List.mem_of_mem_filter hsup))
    · rintro ⟨sup, decl', hsub, hdecl', hrole⟩
      by_cases hsup : sup = type
      · subst hsup
        rw [hdecl] at hdecl'
        cases hdecl'
        exact .inl hrole
      · rw [isSubtypeOf, hdecl, Option.any_some, Bool.or_eq_true, beq_iff_eq] at hsub
        have hancestor := IdSet.contains_eq_true.1 (hsub.resolve_left (Ne.symm hsup))
        refine .inr ⟨sup, List.mem_filter.2 ⟨hancestor, bne_iff_ne.2 hsup⟩, ?_⟩
        rw [hdecl', Option.bind_some, hrole]

theorem isRole_of_roleAt (hmem : decl ∈ s.types)
    (hrole : decl.roleAt e = some role) : s.isRole role = true := by
  refine List.any_eq_true.2 ⟨decl, hmem, ?_⟩
  cases e with
  | alpha => exact Bool.or_eq_true_iff.2 (.inl (beq_iff_eq.2 hrole))
  | omega => exact Bool.or_eq_true_iff.2 (.inr (beq_iff_eq.2 hrole))

theorem isRole_of_mem_rolesAt (h : role ∈ s.rolesAt type e) : s.isRole role = true := by
  rcases mem_rolesAt.1 h with ⟨sup, decl, _, hdecl, hrole⟩
  exact isRole_of_roleAt (mem_of_get hdecl) hrole

end Roles

/-! ## Declarations -/

section Declare

variable {supertypes : List NameId} {isEdgeType : Bool} {alphaRole omegaRole : Option NameId}

/-- A new type is put before the others. -/
theorem declare_eq_ok
    (h : s.declare id supertypes isEdgeType alphaRole omegaRole = .ok s') :
    s.contains id = false ∧ ∃ ancestors,
      s.gatherAncestors id isEdgeType (.singleton id) supertypes = .ok ancestors ∧
      s' = ⟨⟨id, supertypes, isEdgeType, ancestors, alphaRole, omegaRole⟩ :: s.types⟩ := by
  unfold declare at h
  split at h
  · cases h
  · rename_i hnew
    rcases hancestors : s.gatherAncestors id isEdgeType (.singleton id) supertypes with
      reason | ancestors
    · rw [hancestors] at h
      cases h
    · rw [hancestors] at h
      cases h
      exact ⟨Bool.eq_false_iff.2 hnew, ancestors, rfl, rfl⟩

theorem contains_of_declare
    (h : s.declare id supertypes isEdgeType alphaRole omegaRole = .ok s') :
    s'.contains id = true := by
  rcases declare_eq_ok h with ⟨_, ancestors, _, rfl⟩
  simp [contains, get]

theorem extends_of_declare
    (h : s.declare id supertypes isEdgeType alphaRole omegaRole = .ok s') : s.Extends s' := by
  rcases declare_eq_ok h with ⟨hnew, ancestors, _, rfl⟩
  constructor
  · intro id' decl hdecl
    -- The new type was not declared before, so it hides none.
    have hne : id ≠ id' := by
      rintro rfl
      rw [contains, hdecl] at hnew
      cases hnew
    rw [get, List.find?_cons_of_neg (by simpa using hne)]
    exact hdecl
  · intro role hrole
    exact Bool.or_eq_true_iff.2 (.inr hrole)

theorem mem_of_declare
    (h : s.declare id supertypes isEdgeType alphaRole omegaRole = .ok s')
    (hdecl : decl ∈ s'.types) : decl.id = id ∨ decl ∈ s.types := by
  rcases declare_eq_ok h with ⟨_, ancestors, _, rfl⟩
  rcases List.mem_cons.1 hdecl with rfl | hdecl
  · exact .inl rfl
  · exact .inr hdecl

theorem isRole_of_declare
    (h : s.declare id supertypes isEdgeType alphaRole omegaRole = .ok s') {role : NameId}
    (hrole : s'.isRole role = true) :
    alphaRole = some role ∨ omegaRole = some role ∨ s.isRole role = true := by
  rcases declare_eq_ok h with ⟨_, ancestors, _, rfl⟩
  simpa [isRole, or_assoc] using hrole

theorem Closed.contains_of_gatherAncestors (h : s.Closed) {gathered ancestors : IdSet}
    (hgather : s.gatherAncestors id isEdgeType gathered supertypes = .ok ancestors)
    (hsup : sup ∈ ancestors) : sup ∈ gathered ∨ s.contains sup = true := by
  induction supertypes generalizing gathered with
  | nil =>
    cases hgather
    exact .inl hsup
  | cons first rest ih =>
    unfold gatherAncestors at hgather
    split at hgather
    · cases hgather
    · rename_i decl hdecl
      split at hgather
      · rcases ih hgather with hmem | hcontains
        · rcases IdSet.mem_union.1 hmem with hmem | hmem
          · exact .inl hmem
          · exact .inr (h decl (mem_of_get hdecl) sup hmem)
        · exact .inr hcontains
      · cases hgather

theorem Closed.declare (hs : s.Closed)
    (h : s.declare id supertypes isEdgeType alphaRole omegaRole = .ok s') : s'.Closed := by
  have hextends := extends_of_declare h
  have hnew := contains_of_declare h
  rcases declare_eq_ok h with ⟨_, ancestors, hgather, rfl⟩
  intro decl hdecl sup hsup
  rcases List.mem_cons.1 hdecl with rfl | hdecl
  · -- Above the new type there are itself and what is above its supertypes.
    rcases hs.contains_of_gatherAncestors hgather hsup with hmem | hcontains
    · exact IdSet.mem_singleton.1 hmem ▸ hnew
    · exact hextends.contains hcontains
  · exact hextends.contains (hs decl hdecl sup hsup)

end Declare

end Schema

end PathQuery

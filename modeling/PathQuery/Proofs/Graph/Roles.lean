import Mathlib.Data.List.Nodup
import PathQuery.Proofs.Graph.Hierarchy

/-!
# Inherited roles are what the declarations make them

A type lists its own role at an end of its edges, and then what the types above it declare there.

* `prefix_foldl_distinct`, `nodup_foldl_distinct`: leaving out what is listed already;
* `Declared.mem_rolesAt_iff`, `Declared.isRole_iff`: the roles at an end and all roles, in terms of
  the declarations;
* `History.RolesInherited`, `run_rolesInherited`: all that this says about roles.
-/

namespace PathQuery
namespace Schema

/-! ## Lists without repetitions -/

section Distinct

variable {known roles : List NameId}

theorem prefix_foldl_distinct :
    known <+: roles.foldl (fun known r => if r ∈ known then known else known ++ [r]) known := by
  induction roles generalizing known with
  | nil => exact List.prefix_refl known
  | cons r roles ih =>
    rw [List.foldl_cons]
    split
    · exact ih
    · exact (List.prefix_append known [r]).trans ih

theorem nodup_foldl_distinct (h : known.Nodup) :
    (roles.foldl (fun known r => if r ∈ known then known else known ++ [r]) known).Nodup := by
  induction roles generalizing known with
  | nil => exact h
  | cons r roles ih =>
    rw [List.foldl_cons]
    split
    · exact ih h
    · rename_i hr
      exact ih (h.append (List.nodup_singleton r) (List.disjoint_singleton.2 hr))

end Distinct

/-! ## Roles of one type -/

variable {s : Schema} {ds : List Declaration} {d : Declaration} {t role : NameId} {e : EdgeEnd}

theorem nodup_rolesAt (s : Schema) (t : NameId) (e : EdgeEnd) : (s.rolesAt t e).Nodup := by
  unfold rolesAt
  split
  · exact List.nodup_nil
  · rename_i decl _
    refine nodup_foldl_distinct ?_
    -- There is one role of the type's own at most.
    cases decl.roleAt e with
    | none => exact List.nodup_nil
    | some role => exact List.nodup_singleton role

theorem Declaration.isEdgeType_of_roleAt (h : d.roleAt e = some role) : d.isEdgeType = true := by
  cases d with
  | vertexType _ _ => cases h
  | edgeType _ _ _ _ => rfl

namespace Declared

theorem head?_rolesAt (h : Declared s ds) (hd : d ∈ ds) (hrole : d.roleAt e = some role) :
    (s.rolesAt d.id e).head? = some role := by
  rcases h.exists_get hd with ⟨ancestors, hget⟩
  have hprefix : [role] <+: s.rolesAt d.id e := by
    simp only [rolesAt, hget, Declaration.roleAt_entry, hrole]
    exact prefix_foldl_distinct
  rcases hprefix with ⟨inherited, hroles⟩
  rw [← hroles]
  rfl

/-- A type has the roles that it or a type above it was declared with. -/
theorem mem_rolesAt_iff (h : Declared s ds) : role ∈ s.rolesAt t e ↔
    ∃ d ∈ ds, s.isSubtypeOf t d.id = true ∧ d.roleAt e = some role := by
  rw [mem_rolesAt]
  constructor
  · rintro ⟨sup, decl, hsub, hget, hrole⟩
    rcases h.eq_entry_of_get hget with ⟨d, hd, rfl, hentry⟩
    rw [hentry, Declaration.roleAt_entry] at hrole
    exact ⟨d, hd, hsub, hrole⟩
  · rintro ⟨d, hd, hsub, hrole⟩
    rcases h.exists_get hd with ⟨ancestors, hget⟩
    exact ⟨d.id, d.entry ancestors, hsub, hget, (d.roleAt_entry ancestors e).trans hrole⟩

theorem isRole_iff (h : Declared s ds) :
    s.isRole role = true ↔ ∃ d ∈ ds, ∃ e, d.roleAt e = some role := by
  induction h with
  | empty => simp [isRole]
  | @perform s s' ds new _ hperform ih =>
    rcases perform_eq_ok hperform with ⟨_, ancestors, _, rfl⟩
    have hnew : ((new.entry ancestors).alphaRole == some role ||
        (new.entry ancestors).omegaRole == some role) = true ↔ ∃ e, new.roleAt e = some role := by
      rw [Bool.or_eq_true, beq_iff_eq, beq_iff_eq]
      constructor
      · rintro (hα | hω)
        · exact ⟨.alpha, hα⟩
        · exact ⟨.omega, hω⟩
      · rintro ⟨_ | _, hrole⟩
        · exact .inl hrole
        · exact .inr hrole
    calc
      _ ↔ _ ∨ s.isRole role = true := Bool.or_eq_true_iff
      _ ↔ (∃ e, new.roleAt e = some role) ∨ ∃ d ∈ ds, ∃ e, d.roleAt e = some role :=
        or_congr hnew ih
      _ ↔ ∃ d ∈ new :: ds, ∃ e, d.roleAt e = some role := by rw [List.exists_mem_cons_iff]

theorem rolesAt_eq_nil (h : Declared s ds) (ht : s.isEdgeType t = false) (e : EdgeEnd) :
    s.rolesAt t e = [] := by
  refine List.eq_nil_iff_forall_not_mem.2 fun role hrole => ?_
  -- Only an edge type declares a role, and only edge types are below it.
  rcases h.mem_rolesAt_iff.1 hrole with ⟨d, hd, hsub, hrole⟩
  rw [h.isEdgeType_eq_of_reflTransGen (h.isSubtypeOf_iff.1 hsub), h.isEdgeType_eq hd,
    Declaration.isEdgeType_of_roleAt hrole] at ht
  cases ht

theorem rolesAt_subset (h : Declared s ds) {a b : NameId} (hab : s.isSubtypeOf a b = true)
    (e : EdgeEnd) : s.rolesAt b e ⊆ s.rolesAt a e := by
  intro role hrole
  rcases h.mem_rolesAt_iff.1 hrole with ⟨d, hd, hsub, hrole⟩
  have htrans := (h.isSubtypeOf_iff.1 hab).trans (h.isSubtypeOf_iff.1 hsub)
  exact h.mem_rolesAt_iff.2 ⟨d, hd, h.isSubtypeOf_iff.2 htrans, hrole⟩

end Declared

/-! ## Sequences of declarations -/

namespace History

/-- What roles are, in terms of the declarations that were accepted. -/
structure RolesInherited (h : History) : Prop where
  nodup (t : NameId) (e : EdgeEnd) : (h.schema.rolesAt t e).Nodup
  mem_iff (t : NameId) (e : EdgeEnd) (role : NameId) : role ∈ h.schema.rolesAt t e ↔
    ∃ d ∈ h.accepted, h.schema.isSubtypeOf t d.id = true ∧ d.roleAt e = some role
  /-- The own role comes first. -/
  head?_eq {d : Declaration} {e : EdgeEnd} {role : NameId} : d ∈ h.accepted →
    d.roleAt e = some role → (h.schema.rolesAt d.id e).head? = some role
  isRole_iff (role : NameId) :
    h.schema.isRole role = true ↔ ∃ d ∈ h.accepted, ∃ e, d.roleAt e = some role
  isRole_of_mem {t : NameId} {e : EdgeEnd} {role : NameId} :
    role ∈ h.schema.rolesAt t e → h.schema.isRole role = true
  /-- Vertex types have no roles, nor has what is not declared. -/
  eq_nil {t : NameId} (e : EdgeEnd) : h.schema.isEdgeType t = false → h.schema.rolesAt t e = []
  subset {a b : NameId} (e : EdgeEnd) :
    h.schema.isSubtypeOf a b = true → h.schema.rolesAt b e ⊆ h.schema.rolesAt a e

theorem run_rolesInherited (ds : List Declaration) : (run ds).RolesInherited := by
  have hdeclared := run_declared ds
  exact {
    nodup := (run ds).schema.nodup_rolesAt
    mem_iff := fun _ _ _ => hdeclared.mem_rolesAt_iff
    head?_eq := hdeclared.head?_rolesAt
    isRole_iff := fun _ => hdeclared.isRole_iff
    isRole_of_mem := isRole_of_mem_rolesAt
    eq_nil := fun e ht => hdeclared.rolesAt_eq_nil ht e
    subset := fun e hab => hdeclared.rolesAt_subset hab e }

/-- The role `9` is declared twice on the way up, and listed once. -/
example :
    let h := run [.edgeType 0 [] (some 9) none, .edgeType 1 [0] (some 8) none,
      .edgeType 2 [0] (some 9) none, .edgeType 3 [1, 2] (some 7) none]
    h.schema.rolesAt 3 .alpha = [7, 9, 8] ∧ h.schema.rolesAt 3 .omega = [] := by
  decide

end History

end Schema
end PathQuery

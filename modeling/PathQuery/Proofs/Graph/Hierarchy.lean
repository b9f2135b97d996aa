import Mathlib.Logic.Relation
import Mathlib.Order.Defs.Unbundled
import PathQuery.Proofs.Graph.Schema

/-!
# Subtypes are what the declarations make them

What lies above a type is gathered once, when the type is declared.  Here it is compared with a
plain record of the declarations that were accepted.

* `Schema.Declaration`: one call that declares a type, and `Schema.History`: what a sequence of
  calls comes to, with a record of those that did not fail;
* `Below`, `Admits`: direct supertypes, and what a record has to hold for a further declaration;
* `Declared`: the schema was made by the recorded declarations;
* `Declared.mem_ancestors_iff`: the stored ancestors are the closure of the direct links;
* `Declared.not_transGen_self`: no chain of links leads back;
* `History.Hierarchical`, `run_hierarchical`: all that this says about subtypes.
-/

namespace PathQuery
namespace Schema

open Relation (ReflTransGen TransGen)

/-! ## Declarations -/

inductive Declaration where
  | vertexType (id : NameId) (supertypes : List NameId)
  | edgeType (id : NameId) (supertypes : List NameId) (alphaRole omegaRole : Option NameId)
  deriving DecidableEq, Repr

namespace Declaration

def id : Declaration → NameId
  | vertexType id _ => id
  | edgeType id _ _ _ => id

def supertypes : Declaration → List NameId
  | vertexType _ supertypes => supertypes
  | edgeType _ supertypes _ _ => supertypes

def isEdgeType : Declaration → Bool
  | vertexType _ _ => false
  | edgeType _ _ _ _ => true

/-- Vertex types have no roles. -/
def roleAt : Declaration → EdgeEnd → Option NameId
  | vertexType _ _, _ => none
  | edgeType _ _ alphaRole _, .alpha => alphaRole
  | edgeType _ _ _ omegaRole, .omega => omegaRole

def perform (s : Schema) : Declaration → Except SchemaError Schema
  | vertexType id supertypes => s.declareVertexType id supertypes
  | edgeType id supertypes alphaRole omegaRole =>
    s.declareEdgeType id supertypes alphaRole omegaRole

/-- What a schema keeps of a declaration. -/
def entry (d : Declaration) (ancestors : IdSet) : TypeDecl :=
  ⟨d.id, d.supertypes, d.isEdgeType, ancestors, d.roleAt .alpha, d.roleAt .omega⟩

@[simp] theorem roleAt_entry (d : Declaration) (ancestors : IdSet) (e : EdgeEnd) :
    (d.entry ancestors).roleAt e = d.roleAt e := by
  cases e <;> rfl

theorem perform_eq_declare (s : Schema) (d : Declaration) :
    d.perform s = s.declare d.id d.supertypes d.isEdgeType (d.roleAt .alpha) (d.roleAt .omega) := by
  cases d <;> rfl

end Declaration

/-- A schema with the declarations that it accepted, the latest first. -/
structure History where
  schema : Schema := {}
  accepted : List Declaration := []

namespace History

/-- A declaration that fails leaves everything as it was. -/
def perform (h : History) (d : Declaration) : History :=
  match d.perform h.schema with
  | .ok schema => ⟨schema, d :: h.accepted⟩
  | .error _ => h

/-- Declarations that fail are part of the sequence. -/
def run (ds : List Declaration) : History :=
  ds.foldl perform {}

end History

section Records

variable (ds : List Declaration)

/-- The first type was declared with the second one among its supertypes. -/
def Below (a b : NameId) : Prop :=
  ∃ d ∈ ds, d.id = a ∧ b ∈ d.supertypes

/-- The type is new, and its supertypes were declared as types of its own kind. -/
def Admits (d : Declaration) : Prop :=
  (∀ d' ∈ ds, d'.id ≠ d.id) ∧
    ∀ sup ∈ d.supertypes, ∃ d' ∈ ds, d'.id = sup ∧ d'.isEdgeType = d.isEdgeType

end Records

/-! ## One declaration -/

section Gather

variable {s : Schema} {id : NameId} {isEdgeType : Bool} {gathered ancestors : IdSet}
  {supertypes : List NameId}

theorem mem_of_gatherAncestors
    (h : s.gatherAncestors id isEdgeType gathered supertypes = .ok ancestors) (x : NameId) :
    x ∈ ancestors ↔
      x ∈ gathered ∨ ∃ sup ∈ supertypes, ∃ decl, s.get sup = some decl ∧ x ∈ decl.ancestors := by
  induction supertypes generalizing gathered with
  | nil =>
    cases h
    simp
  | cons first rest ih =>
    unfold gatherAncestors at h
    -- A supertype that is unknown or of the other kind ends the gathering.
    split at h
    · cases h
    · rename_i decl hdecl
      split at h
      · rw [ih h, IdSet.mem_union, List.exists_mem_cons_iff, or_assoc]
        simp [hdecl]
      · cases h

/-- Exactly the declared supertypes of the right kind are let through. -/
theorem exists_gatherAncestors_iff :
    (∃ ancestors, s.gatherAncestors id isEdgeType gathered supertypes = .ok ancestors) ↔
      ∀ sup ∈ supertypes, ∃ decl, s.get sup = some decl ∧ decl.isEdgeType = isEdgeType := by
  induction supertypes generalizing gathered with
  | nil => simp [gatherAncestors]
  | cons first rest ih =>
    rw [List.forall_mem_cons]
    unfold gatherAncestors
    split
    · rename_i hnone
      simp [hnone]
    · rename_i decl hdecl
      split
      · rename_i hkind
        rw [ih]
        simp [hdecl, hkind]
      · rename_i hkind
        simp [hdecl, hkind]

end Gather

section Perform

variable {s s' : Schema} {d : Declaration} {a : NameId} {decl : TypeDecl}

theorem get_cons (decl : TypeDecl) (types : List TypeDecl) (a : NameId) :
    (Schema.mk (decl :: types)).get a =
      if decl.id = a then some decl else (Schema.mk types).get a := by
  by_cases h : decl.id = a
  · rw [if_pos h, get, List.find?_cons_of_pos (by simpa using h)]
  · rw [if_neg h, get, List.find?_cons_of_neg (by simpa using h)]
    rfl

theorem perform_eq_ok (h : d.perform s = .ok s') :
    s.contains d.id = false ∧ ∃ ancestors,
      s.gatherAncestors d.id d.isEdgeType (.singleton d.id) d.supertypes = .ok ancestors ∧
      s' = ⟨d.entry ancestors :: s.types⟩ := by
  rw [d.perform_eq_declare] at h
  exact declare_eq_ok h

theorem exists_perform_iff : (∃ s', d.perform s = .ok s') ↔ s.contains d.id = false ∧
    ∀ sup ∈ d.supertypes, ∃ decl, s.get sup = some decl ∧ decl.isEdgeType = d.isEdgeType := by
  rw [d.perform_eq_declare, ← exists_gatherAncestors_iff]
  constructor
  · rintro ⟨s', h⟩
    rcases declare_eq_ok h with ⟨hnew, ancestors, hgather, _⟩
    exact ⟨hnew, ancestors, hgather⟩
  · rintro ⟨hnew, ancestors, hgather⟩
    refine ⟨⟨d.entry ancestors :: s.types⟩, ?_⟩
    rw [declare, hnew, hgather]
    rfl

end Perform

/-! ## Schemas made by declarations -/

/-- The schema was made by these declarations, the latest of which is the first. -/
inductive Declared : Schema → List Declaration → Prop where
  | empty : Declared {} []
  | perform {s s' : Schema} {ds : List Declaration} {d : Declaration} :
      Declared s ds → d.perform s = .ok s' → Declared s' (d :: ds)

variable {s s' : Schema} {ds : List Declaration} {d : Declaration} {a b x : NameId}
  {decl : TypeDecl}

namespace Declared

theorem closed (h : Declared s ds) : s.Closed := by
  induction h with
  | empty => exact fun _ hdecl => absurd hdecl List.not_mem_nil
  | perform _ hperform ih =>
    rw [Declaration.perform_eq_declare] at hperform
    exact ih.declare hperform

theorem exists_get (h : Declared s ds) (hd : d ∈ ds) :
    ∃ ancestors, s.get d.id = some (d.entry ancestors) := by
  induction h with
  | empty => exact absurd hd List.not_mem_nil
  | @perform s s' ds new hs hperform ih =>
    rcases perform_eq_ok hperform with ⟨hnew, ancestors, _, rfl⟩
    rcases List.mem_cons.1 hd with rfl | hd
    · exact ⟨ancestors, (get_cons _ _ _).trans (if_pos rfl)⟩
    · rcases ih hd with ⟨old, hold⟩
      have hne : new.id ≠ d.id := by
        -- A type that is declared already is not declared again.
        intro heq
        rw [contains, heq, hold] at hnew
        cases hnew
      exact ⟨old, (get_cons _ _ _).trans ((if_neg hne).trans hold)⟩

theorem eq_entry_of_get (h : Declared s ds) (hget : s.get a = some decl) :
    ∃ d ∈ ds, d.id = a ∧ decl = d.entry decl.ancestors := by
  induction h with
  | empty => cases hget
  | @perform s s' ds new _ hperform ih =>
    rcases perform_eq_ok hperform with ⟨_, ancestors, _, rfl⟩
    rw [get_cons] at hget
    split at hget
    · rename_i hid
      cases hget
      exact ⟨new, List.mem_cons_self, hid, rfl⟩
    · rcases ih hget with ⟨d, hd, hmatches⟩
      exact ⟨d, List.mem_cons_of_mem new hd, hmatches⟩

theorem contains_iff (h : Declared s ds) : s.contains a = true ↔ ∃ d ∈ ds, d.id = a := by
  rw [contains, Option.isSome_iff_exists]
  constructor
  · rintro ⟨decl, hget⟩
    rcases h.eq_entry_of_get hget with ⟨d, hd, hid, _⟩
    exact ⟨d, hd, hid⟩
  · rintro ⟨d, hd, rfl⟩
    rcases h.exists_get hd with ⟨ancestors, hget⟩
    exact ⟨_, hget⟩

/-- Whether a declaration goes through can be read off the record. -/
theorem exists_perform_iff_admits (h : Declared s ds) :
    (∃ s', d.perform s = .ok s') ↔ Admits ds d := by
  have hsups : ∀ sup, (∃ decl, s.get sup = some decl ∧ decl.isEdgeType = d.isEdgeType) ↔
      ∃ d' ∈ ds, d'.id = sup ∧ d'.isEdgeType = d.isEdgeType := by
    intro sup
    constructor
    · rintro ⟨decl, hget, hkind⟩
      rcases h.eq_entry_of_get hget with ⟨d', hd', hid, hentry⟩
      rw [hentry] at hkind
      exact ⟨d', hd', hid, hkind⟩
    · rintro ⟨d', hd', rfl, hkind⟩
      rcases h.exists_get hd' with ⟨ancestors, hget⟩
      exact ⟨_, hget, hkind⟩
  have hnew : s.contains d.id = false ↔ ∀ d' ∈ ds, d'.id ≠ d.id := by
    rw [← Bool.not_eq_true, h.contains_iff]
    push Not
    rfl
  rw [exists_perform_iff, hnew]
  simp only [hsups]
  rfl

theorem admits (h : Declared s ds) (hperform : d.perform s = .ok s') : Admits ds d :=
  h.exists_perform_iff_admits.1 ⟨s', hperform⟩

/-! ## Links -/

theorem exists_supertype (h : Declared s ds) (hd : d ∈ ds) (hb : b ∈ d.supertypes) :
    ∃ d' ∈ ds, d'.id = b ∧ d'.isEdgeType = d.isEdgeType := by
  induction h with
  | empty => exact absurd hd List.not_mem_nil
  | @perform s s' ds new hs hperform ih =>
    have hsup : ∃ d' ∈ ds, d'.id = b ∧ d'.isEdgeType = d.isEdgeType := by
      rcases List.mem_cons.1 hd with rfl | hd
      · exact (hs.admits hperform).2 b hb
      · exact ih hd
    rcases hsup with ⟨d', hd', hmatches⟩
    exact ⟨d', List.mem_cons_of_mem new hd', hmatches⟩

/-- A chain that starts at a declared type leads to declared types only. -/
theorem contains_of_reflTransGen (h : Declared s ds) (ha : s.contains a = true)
    (hab : ReflTransGen (Below ds) a b) : s.contains b = true := by
  induction hab with
  | refl => exact ha
  | tail _ hstep _ =>
    rcases hstep with ⟨d, hd, _, hb⟩
    rcases h.exists_supertype hd hb with ⟨d', hd', hid, _⟩
    exact h.contains_iff.2 ⟨d', hd', hid⟩

/-- A new type is not above any type that was declared before. -/
theorem reflTransGen_cons_iff (h : Declared s ds) (hnew : s.contains d.id = false)
    (ha : s.contains a = true) :
    ReflTransGen (Below (d :: ds)) a b ↔ ReflTransGen (Below ds) a b := by
  constructor
  · intro hab
    induction hab with
    | refl => exact .refl
    | tail _ hstep ih =>
      rcases hstep with ⟨d', hd', rfl, hb⟩
      rcases List.mem_cons.1 hd' with rfl | hd'
      · -- The chain would have met the new type.
        rw [h.contains_of_reflTransGen ha ih] at hnew
        cases hnew
      · exact ih.tail ⟨d', hd', rfl, hb⟩
  · refine ReflTransGen.mono ?_ a b
    rintro _ _ ⟨d', hd', hmatches⟩
    exact ⟨d', List.mem_cons_of_mem d hd', hmatches⟩

/-- The stored ancestors of a type are what chains of direct supertypes lead to. -/
theorem mem_ancestors_iff (h : Declared s ds) (hget : s.get a = some decl) :
    x ∈ decl.ancestors ↔ ReflTransGen (Below ds) a x := by
  induction h generalizing a decl with
  | empty => cases hget
  | @perform s s' ds d hs hperform ih =>
    rcases perform_eq_ok hperform with ⟨hnew, ancestors, hgather, rfl⟩
    rw [get_cons] at hget
    split at hget
    · -- The new type: itself, and what lies above its supertypes.
      rename_i hid
      obtain rfl : d.id = a := hid
      cases hget
      have hsup : ∀ sup ∈ d.supertypes, (∃ decl, s.get sup = some decl ∧ x ∈ decl.ancestors) ↔
          ReflTransGen (Below (d :: ds)) sup x := by
        intro sup hmem
        rcases (hs.admits hperform).2 sup hmem with ⟨d', hd', rfl, _⟩
        rcases hs.exists_get hd' with ⟨old, hold⟩
        have hcontains := hs.contains_iff.2 ⟨d', hd', rfl⟩
        rw [hs.reflTransGen_cons_iff hnew hcontains, ← ih hold]
        simp [hold]
      change x ∈ ancestors ↔ _
      rw [mem_of_gatherAncestors hgather, IdSet.mem_singleton, Relation.ReflTransGen.cases_head_iff,
        eq_comm]
      refine or_congr_right ⟨?_, ?_⟩
      · rintro ⟨sup, hmem, hx⟩
        exact ⟨sup, ⟨d, List.mem_cons_self, rfl, hmem⟩, (hsup sup hmem).1 hx⟩
      · rintro ⟨sup, ⟨d', hd', hid, hmem⟩, hx⟩
        rcases List.mem_cons.1 hd' with rfl | hd'
        · exact ⟨sup, hmem, (hsup sup hmem).2 hx⟩
        · exact absurd hid ((hs.admits hperform).1 d' hd')
    · rw [ih hget, hs.reflTransGen_cons_iff hnew (Option.isSome_iff_exists.2 ⟨_, hget⟩)]

theorem isSubtypeOf_iff (h : Declared s ds) :
    s.isSubtypeOf a b = true ↔ ReflTransGen (Below ds) a b := by
  unfold isSubtypeOf
  rw [Bool.or_eq_true, beq_iff_eq]
  cases hget : s.get a with
  | none =>
    rw [Option.any_none, or_iff_left Bool.false_ne_true]
    -- No link leaves what is not declared.
    constructor
    · rintro rfl
      exact .refl
    · intro hab
      rcases hab.cases_head with rfl | ⟨_, ⟨d, hd, rfl, _⟩, _⟩
      · rfl
      · rcases h.exists_get hd with ⟨_, hsome⟩
        rw [hget] at hsome
        cases hsome
  | some decl =>
    rw [Option.any_some, IdSet.contains_eq_true, h.mem_ancestors_iff hget]
    refine or_iff_right_of_imp ?_
    rintro rfl
    exact .refl

/-- Every link leads to a type that was declared earlier, so no chain of them leads back. -/
theorem not_transGen_self (h : Declared s ds) (a : NameId) : ¬ TransGen (Below ds) a a := by
  induction h generalizing a with
  | empty =>
    intro haa
    rcases TransGen.head'_iff.1 haa with ⟨_, ⟨_, hd, _⟩, _⟩
    exact List.not_mem_nil hd
  | @perform s s' ds d hs hperform ih =>
    intro haa
    rcases perform_eq_ok hperform with ⟨hnew, _⟩
    rcases TransGen.head'_iff.1 haa with ⟨b, ⟨d', hd', rfl, hb⟩, hback⟩
    have hsup : ∃ e ∈ ds, e.id = b ∧ e.isEdgeType = d'.isEdgeType := by
      rcases List.mem_cons.1 hd' with rfl | hd'
      · exact (hs.admits hperform).2 b hb
      · exact hs.exists_supertype hd' hb
    rcases hsup with ⟨e, he, rfl, _⟩
    -- After its first link the chain uses nothing that the declaration has added.
    have hold := (hs.reflTransGen_cons_iff hnew (hs.contains_iff.2 ⟨e, he, rfl⟩)).1 hback
    rcases List.mem_cons.1 hd' with rfl | hd'
    · -- It cannot lead back to the new type then.
      rw [hs.contains_of_reflTransGen (hs.contains_iff.2 ⟨e, he, rfl⟩) hold] at hnew
      cases hnew
    · exact ih _ (TransGen.head' ⟨d', hd', rfl, hb⟩ hold)

theorem isEdgeType_eq (h : Declared s ds) (hd : d ∈ ds) : s.isEdgeType d.id = d.isEdgeType := by
  rcases h.exists_get hd with ⟨ancestors, hget⟩
  rw [isEdgeType, hget]
  rfl

/-- Links stay among the vertex types or among the edge types. -/
theorem isEdgeType_eq_of_reflTransGen (h : Declared s ds) (hab : ReflTransGen (Below ds) a b) :
    s.isEdgeType a = s.isEdgeType b := by
  induction hab with
  | refl => rfl
  | tail _ hstep ih =>
    rcases hstep with ⟨d, hd, rfl, hb⟩
    rcases h.exists_supertype hd hb with ⟨d', hd', rfl, hkind⟩
    rw [ih, h.isEdgeType_eq hd, h.isEdgeType_eq hd', hkind]

end Declared

/-! ## Sequences of declarations -/

namespace History

variable {h : History}

theorem perform_declared (hh : Declared h.schema h.accepted) (d : Declaration) :
    Declared (h.perform d).schema (h.perform d).accepted := by
  unfold perform
  split
  · rename_i schema hperform
    exact hh.perform hperform
  · exact hh

theorem foldl_declared (hh : Declared h.schema h.accepted) (ds : List Declaration) :
    Declared (ds.foldl perform h).schema (ds.foldl perform h).accepted := by
  induction ds generalizing h with
  | nil => exact hh
  | cons d ds ih => exact ih (perform_declared hh d)

theorem run_declared (ds : List Declaration) : Declared (run ds).schema (run ds).accepted :=
  foldl_declared .empty ds

theorem extends_perform (h : History) (d : Declaration) :
    h.schema.Extends (h.perform d).schema := by
  unfold perform
  split
  · rename_i schema hperform
    rw [d.perform_eq_declare] at hperform
    exact extends_of_declare hperform
  · exact .refl h.schema

theorem extends_foldl (h : History) (ds : List Declaration) :
    h.schema.Extends (ds.foldl perform h).schema := by
  induction ds generalizing h with
  | nil => exact .refl h.schema
  | cons d ds ih => exact (h.extends_perform d).trans (ih (h.perform d))

/-- What subtypes are, in terms of the declarations that were accepted. -/
structure Hierarchical (h : History) : Prop where
  /-- A declaration that is not admitted fails, and nothing is changed by it. -/
  unchanged {d : Declaration} : ¬ Admits h.accepted d →
    (∃ reason, d.perform h.schema = .error reason) ∧ h.perform d = h
  recorded {d : Declaration} : Admits h.accepted d →
    ∃ schema, d.perform h.schema = .ok schema ∧ h.perform d = ⟨schema, d :: h.accepted⟩
  contains_iff (a : NameId) : h.schema.contains a = true ↔ ∃ d ∈ h.accepted, d.id = a
  isSubtypeOf_iff (a b : NameId) :
    h.schema.isSubtypeOf a b = true ↔ a = b ∨ TransGen (Below h.accepted) a b
  partialOrder : IsPartialOrder {a // h.schema.contains a = true} fun a b =>
    h.schema.isSubtypeOf a b = true
  /-- No vertex type is a subtype of an edge type, nor the other way round. -/
  isEdgeType_eq {a b : NameId} : h.schema.contains a = true → h.schema.contains b = true →
    h.schema.isSubtypeOf a b = true → h.schema.isEdgeType a = h.schema.isEdgeType b
  /-- Whatever is declared later, successfully or not. -/
  isSubtypeOf_foldl (later : List Declaration) {a : NameId} (b : NameId) :
    h.schema.contains a = true →
      (later.foldl perform h).schema.isSubtypeOf a b = h.schema.isSubtypeOf a b

theorem hierarchical (hh : Declared h.schema h.accepted) : h.Hierarchical := by
  have hsubtype : ∀ a b, h.schema.isSubtypeOf a b = true ↔ ReflTransGen (Below h.accepted) a b :=
    fun _ _ => hh.isSubtypeOf_iff
  constructor
  case unchanged =>
    intro d hd
    unfold perform
    rcases hperform : d.perform h.schema with reason | schema
    · exact ⟨⟨reason, rfl⟩, rfl⟩
    · exact absurd (hh.admits hperform) hd
  case recorded =>
    intro d hd
    rcases hh.exists_perform_iff_admits.2 hd with ⟨schema, hperform⟩
    exact ⟨schema, hperform, by rw [perform, hperform]⟩
  case contains_iff => exact fun _ => hh.contains_iff
  case isSubtypeOf_iff =>
    intro a b
    rw [hsubtype, Relation.reflTransGen_iff_eq_or_transGen, eq_comm]
  case partialOrder =>
    simp only [hsubtype]
    refine { refl := fun _ => .refl, trans := fun _ _ _ => .trans, antisymm := ?_ }
    rintro a b hab hba
    -- Two different types above each other would be on a circle.
    rcases Relation.reflTransGen_iff_eq_or_transGen.1 hab with heq | hlt
    · exact Subtype.ext heq.symm
    · exact absurd (hlt.trans_left hba) (hh.not_transGen_self a)
  case isEdgeType_eq =>
    intro a b _ _ hab
    exact hh.isEdgeType_eq_of_reflTransGen ((hsubtype a b).1 hab)
  case isSubtypeOf_foldl =>
    intro later a b ha
    exact (h.extends_foldl later).isSubtypeOf_eq ha b

/-- The subtype test is the closure of the declarations, after every sequence of them. -/
theorem run_hierarchical (ds : List Declaration) : (run ds).Hierarchical :=
  hierarchical (run_declared ds)

/-- A type with two supertypes, a type among its own supertypes, and a type of the other kind. -/
example :
    let h := run [.edgeType 0 [] none none, .edgeType 1 [0] none none, .edgeType 2 [0] none none,
      .edgeType 3 [1, 2] none none, .edgeType 4 [4] none none, .vertexType 5 [0]]
    h.schema.isSubtypeOf 3 0 = true ∧ h.schema.isSubtypeOf 1 2 = false ∧
      h.schema.contains 4 = false ∧ h.schema.contains 5 = false := by
  decide

end History

end Schema
end PathQuery

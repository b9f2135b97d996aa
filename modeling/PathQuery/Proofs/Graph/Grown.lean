import PathQuery.Proofs.Graph.Schema
import PathQuery.Proofs.Graph.WellFormed

/-!
# What a graph learns without a change

Interning a name and declaring a type leave elements and attributes alone, and with them the
version.

* `Graph.Grows`: some names were interned and some types were declared;
* `Graph.Grounded`: the types of elements are declared, and the names of types, roles and attributes
  are interned;
* `Constructed.grounded`: this holds of every graph that is made;
* `Grows.typeId_filter`, `Grows.vertexAttr_eq` and so on: what the grown graph answers.
-/

namespace PathQuery

namespace Names

variable {names names' : Names} {name : String} {id : NameId}

theorem intern_of_mem (h : names.idOf name = some id) : names.intern name = (id, names) := by
  rw [intern, h]

theorem intern_of_new (h : names.idOf name = none) :
    names.intern name = (names.size, ⟨names.toList ++ [name]⟩) := by
  rw [intern, h]

theorem idOf_lt (h : names.idOf name = some id) :
    id < names.size := by
  rw [idOf, List.idxOf?_eq_some_iff] at h
  exact h.1

theorem intern_lt (names : Names) (name : String) :
    (names.intern name).1 < (names.intern name).2.size := by
  cases h : names.idOf name with
  | some id =>
    rw [intern_of_mem h]
    exact idOf_lt h
  | none => simp [intern_of_new h, size]

theorem prefix_intern (names : Names) (name : String) :
    names.toList <+: (names.intern name).2.toList := by
  cases h : names.idOf name with
  | some id => simp only [intern_of_mem h, List.prefix_refl]
  | none =>
    rw [intern_of_new h]
    exact List.prefix_append _ _

/-- A name keeps its number, and a later name has a later number. -/
theorem idOf_eq_some_iff (h : names.toList <+: names'.toList) (hid : id < names.size) :
    names'.idOf name = some id ↔ names.idOf name = some id := by
  rcases h with ⟨later, hlater⟩
  unfold size at hid
  simp only [idOf, ← hlater, List.idxOf?_eq_some_iff, List.length_append]
  -- Below the old size both lists have the same names, so the first place is the same.
  constructor
  · rintro ⟨hlt, hname, hfirst⟩
    refine ⟨hid, ?_, fun j hj => ?_⟩
    · rwa [List.getElem_append_left hid] at hname
    · have hother := hfirst j hj
      rwa [List.getElem_append_left (Nat.lt_trans hj hid)] at hother
  · rintro ⟨hlt, hname, hfirst⟩
    refine ⟨Nat.lt_add_right _ hlt, ?_, fun j hj => ?_⟩
    · rwa [List.getElem_append_left hid]
    · rw [List.getElem_append_left (Nat.lt_trans hj hid)]
      exact hfirst j hj

theorem prefix_internAll (names : Names) (ss : List String) :
    names.toList <+: (names.internAll ss).2.toList := by
  induction ss generalizing names with
  | nil => exact List.prefix_refl _
  | cons s ss ih => exact (names.prefix_intern s).trans (ih _)

theorem internAll_lt {ss : List String} (hid : id ∈ (names.internAll ss).1) :
    id < (names.internAll ss).2.size := by
  induction ss generalizing names with
  | nil => exact absurd hid List.not_mem_nil
  | cons s ss ih =>
    rcases List.mem_cons.1 hid with rfl | hid
    · exact Nat.lt_of_lt_of_le (names.intern_lt s) (prefix_internAll _ ss).length_le
    · exact ih hid

end Names

theorem Attributes.mem_of_get {attributes : Attributes} {name : NameId} {value : AttrValue}
    (h : attributes.get name = some value) : (name, value) ∈ attributes.entries := by
  rcases List.lookup_eq_some_iff.1 h with ⟨before, after, hentries, _⟩
  rw [hentries]
  exact List.mem_append_right before List.mem_cons_self

namespace Graph

theorem contains_ensureType (g : Graph) (id : NameId) (isEdgeType : Bool) :
    (g.ensureType id isEdgeType).schema.contains id = true := by
  unfold ensureType
  split
  · rename_i hdeclare
    exact Schema.contains_of_declare hdeclare
  · rename_i reason hdeclare
    -- Without supertypes only a type that is declared already can be refused.
    by_contra hnew
    simp only [Schema.declare, hnew, Schema.gatherAncestors] at hdeclare
    cases hdeclare

/-! ## Growth -/

/-- Names are interned and types are declared, under numbers of interned names. -/
inductive Grows (g : Graph) : Graph → Prop where
  | refl : Grows g g
  | intern {h : Graph} (name : String) : Grows g h → Grows g (h.intern name).2
  | declare {h : Graph} {id : NameId} {supertypes : List NameId} {isEdgeType : Bool}
      {alphaRole omegaRole : Option NameId} {schema : Schema} :
      Grows g h → id < h.names.size →
      (∀ role, alphaRole = some role → role < h.names.size) →
      (∀ role, omegaRole = some role → role < h.names.size) →
      h.schema.declare id supertypes isEdgeType alphaRole omegaRole = .ok schema →
      Grows g { h with schema }

namespace Grows

variable {g h k : Graph}

theorem trans (hg : g.Grows h) (hh : h.Grows k) : g.Grows k := by
  induction hh with
  | refl => exact hg
  | intern name _ ih => exact ih.intern name
  | declare _ hid hα hω hdeclare ih => exact ih.declare hid hα hω hdeclare

theorem sameData (hg : g.Grows h) : SameData g h := by
  induction hg with
  | refl => exact ⟨rfl, rfl⟩
  | intern name _ ih => exact ih.trans (sameData_intern _ name)
  | declare _ _ _ _ _ ih => exact ⟨ih.vertexData, ih.edgeData⟩

theorem names_prefix (hg : g.Grows h) : g.names.toList <+: h.names.toList := by
  induction hg with
  | refl => exact List.prefix_refl _
  | intern name _ ih => exact ih.trans (Names.prefix_intern _ name)
  | declare _ _ _ _ _ ih => exact ih

theorem names_le (hg : g.Grows h) : g.names.size ≤ h.names.size :=
  hg.names_prefix.length_le

theorem version_eq (hg : g.Grows h) : h.version = g.version := by
  induction hg with
  | refl => rfl
  | intern _ _ ih => exact ih
  | declare _ _ _ _ _ ih => exact ih

theorem schema (hg : g.Grows h) : g.schema.Extends h.schema := by
  induction hg with
  | refl => exact .refl _
  | intern _ _ ih => exact ih
  | declare _ _ _ _ hdeclare ih => exact ih.trans (Schema.extends_of_declare hdeclare)

/-! ### What the operations let grow -/

theorem internOption (hg : g.Grows h) : ∀ name, g.Grows (h.internOption name).2
  | none => hg
  | some name => hg.intern name

theorem internAll (hg : g.Grows h) (names : List String) :
    g.Grows { h with names := (h.names.internAll names).2 } := by
  induction names generalizing h with
  | nil => exact hg
  | cons name names ih => exact ih (hg.intern name)

theorem declare_roleless (hg : g.Grows h) {id : NameId} (hid : id < h.names.size)
    {supertypes : List NameId} {isEdgeType : Bool} {schema : Schema}
    (hdeclare : h.schema.declare id supertypes isEdgeType none none = .ok schema) :
    g.Grows { h with schema } :=
  have hnone : ∀ role, none = some role → role < h.names.size := fun _ hrole => by cases hrole
  hg.declare hid hnone hnone hdeclare

theorem ensureType (hg : g.Grows h) {id : NameId} (hid : id < h.names.size) (isEdgeType : Bool) :
    g.Grows (h.ensureType id isEdgeType) := by
  unfold Graph.ensureType
  split
  · rename_i hdeclare
    exact hg.declare_roleless hid hdeclare
  · exact hg

theorem prepare (hg : g.Grows h) (typeName : String) (isEdgeType : Bool)
    (attrs : List (String × AttrValue)) : g.Grows (h.prepare typeName isEdgeType attrs).2 :=
  ((hg.intern typeName).ensureType (h.names.intern_lt typeName) isEdgeType).internAll _

theorem declareVertexType (hg : g.Grows h) (name : String) (supertypes : List String) :
    g.Grows (h.declareVertexType name supertypes).2 := by
  unfold Graph.declareVertexType
  dsimp only
  split
  · exact hg.intern name
  · split
    · exact hg.intern name
    · rename_i hdeclare
      exact (hg.intern name).declare_roleless (h.names.intern_lt name) hdeclare

theorem lt_of_internOption {name : Option String} {role : NameId}
    (hrole : (g.internOption name).1 = some role) : role < (g.internOption name).2.names.size := by
  cases name with
  | none => cases hrole
  | some name =>
    cases hrole
    exact g.names.intern_lt name

theorem declareEdgeType (hg : g.Grows h) (name : String) (supertypes : List String)
    (alphaRole omegaRole : Option String) :
    g.Grows (h.declareEdgeType name supertypes alphaRole omegaRole).2 := by
  have hroles := ((hg.intern name).internOption alphaRole).internOption omegaRole
  unfold Graph.declareEdgeType
  dsimp only
  split
  · exact hg.intern name
  · split
    · exact hroles
    · rename_i hdeclare
      -- The type was interned before the roles were, and the first role before the second.
      have hlater : ∀ (k : Graph) (role : Option String),
          k.names.size ≤ (k.internOption role).2.names.size :=
        fun k role => (internOption (.refl (g := k)) role).names_le
      have hid := Nat.lt_of_lt_of_le (h.names.intern_lt name) (hlater (h.intern name).2 alphaRole)
      exact hroles.declare (Nat.lt_of_lt_of_le hid (hlater _ omegaRole))
        (fun _ hrole => Nat.lt_of_lt_of_le (lt_of_internOption hrole) (hlater _ omegaRole))
        (fun _ => lt_of_internOption) hdeclare

end Grows

/-! ## What elements refer to -/

/-- The type is declared, and the names of the attributes are interned. -/
structure Describes (names : Names) (schema : Schema) (type : NameId) (attributes : Attributes) :
    Prop where
  contains : schema.contains type = true
  keys {key : NameId} {value : AttrValue} : (key, value) ∈ attributes.entries → key < names.size

def Named (g : Graph) : Prop :=
  ∀ decl ∈ g.schema.types, decl.id < g.names.size

structure Grounded (g : Graph) : Prop where
  named : g.Named
  closed : g.schema.Closed
  roles {role : NameId} : g.schema.isRole role = true → role < g.names.size
  vertices {v : Nat} {data : VertexData} : g.vertexData[v]? = some data →
    Describes g.names g.schema data.type data.attributes
  edges {e : Nat} {data : EdgeData} : g.edgeData[e]? = some data →
    Describes g.names g.schema data.type data.attributes

namespace Describes

variable {names : Names} {schema : Schema} {type : NameId} {attributes : Attributes}

theorem set (h : Describes names schema type attributes) {key : NameId} (hkey : key < names.size)
    (value : AttrValue) : Describes names schema type (attributes.set key value) := by
  refine ⟨h.contains, ?_⟩
  intro key' value' hmem
  rcases List.mem_cons.1 hmem with heq | hmem
  · cases heq
    exact hkey
  · exact h.keys (List.mem_of_mem_filter hmem)

theorem setAll (h : Describes names schema type attributes) {values : List (NameId × AttrValue)}
    (hkeys : ∀ entry ∈ values, entry.1 < names.size) :
    Describes names schema type (attributes.setAll values) := by
  induction values generalizing attributes with
  | nil => exact h
  | cons entry values ih =>
    rw [List.forall_mem_cons] at hkeys
    exact ih (h.set hkeys.1 entry.2) hkeys.2

theorem grows {g g' : Graph} (h : Describes g.names g.schema type attributes) (hg : g.Grows g') :
    Describes g'.names g'.schema type attributes :=
  ⟨hg.schema.contains h.contains, fun hkey => Nat.lt_of_lt_of_le (h.keys hkey) hg.names_le⟩

/-- A new element is described by the graph that was prepared for it. -/
theorem prepare (g : Graph) (typeName : String) (isEdgeType : Bool)
    (attrs : List (String × AttrValue)) :
    Describes (g.prepare typeName isEdgeType attrs).2.names
      (g.prepare typeName isEdgeType attrs).2.schema (g.intern typeName).1
      (({} : Attributes).setAll (g.prepare typeName isEdgeType attrs).1) := by
  refine setAll ⟨?_, fun hkey => absurd hkey List.not_mem_nil⟩ ?_
  · exact contains_ensureType _ _ isEdgeType
  · intro entry hentry
    exact Names.internAll_lt (List.of_mem_zip hentry).1

end Describes

variable {g h : Graph}

namespace Grounded

theorem of_empty : Grounded empty := by
  refine ⟨fun _ hdecl => absurd hdecl List.not_mem_nil,
    fun _ hdecl => absurd hdecl List.not_mem_nil, ?_, ?_, ?_⟩
  · intro role hrole
    cases hrole
  · intro v data hdata
    cases hdata
  · intro e data hdata
    cases hdata

theorem grows (hg : g.Grounded) (hgh : g.Grows h) : h.Grounded := by
  induction hgh with
  | refl => exact hg
  | @intern h name _ ih =>
    have hgrown : h.Grows (h.intern name).2 := .intern name .refl
    exact ⟨fun decl hdecl => Nat.lt_of_lt_of_le (ih.named decl hdecl) hgrown.names_le, ih.closed,
      fun hrole => Nat.lt_of_lt_of_le (ih.roles hrole) hgrown.names_le,
      fun hv => (ih.vertices hv).grows hgrown, fun he => (ih.edges he).grows hgrown⟩
  | @declare h _ _ _ _ _ schema _ hid hα hω hdeclare ih =>
    have hgrown : h.Grows { h with schema } := .declare .refl hid hα hω hdeclare
    refine ⟨?_, ih.closed.declare hdeclare, ?_, fun hv => (ih.vertices hv).grows hgrown,
      fun he => (ih.edges he).grows hgrown⟩
    · intro decl hdecl
      rcases Schema.mem_of_declare hdeclare hdecl with heq | hdecl
      · exact heq ▸ hid
      · exact ih.named decl hdecl
    · intro role hrole
      rcases Schema.isRole_of_declare hdeclare hrole with hrole | hrole | hrole
      · exact hα role hrole
      · exact hω role hrole
      · exact ih.roles hrole

/-- The lists of edges do not matter. -/
theorem attach (hg : g.Grounded) {e alpha omega v : Nat} {data : VertexData}
    (hdata : (attach g.vertexData e alpha omega)[v]? = some data) :
    Describes g.names g.schema data.type data.attributes := by
  simp only [Graph.attach, Array.getElem?_modify] at hdata
  cases hold : g.vertexData[v]? with
  | none =>
    rw [hold] at hdata
    split at hdata <;> split at hdata <;> cases hdata
  | some old =>
    have hdescribed := hg.vertices hold
    rw [hold] at hdata
    split at hdata <;> split at hdata <;> cases hdata <;> exact hdescribed

theorem addVertex (hg : g.Grounded) (typeName : String) (attrs : List (String × AttrValue)) :
    (g.addVertex typeName attrs).2.Grounded := by
  have hprepared := hg.grows (Grows.prepare .refl typeName false attrs)
  unfold Graph.addVertex
  dsimp only
  split
  · exact hg.grows (.intern typeName .refl)
  · refine ⟨hprepared.named, hprepared.closed, hprepared.roles, ?_,
      fun hdata => hprepared.edges hdata⟩
    intro v data hdata
    rw [Array.getElem?_push] at hdata
    split at hdata
    · cases hdata
      exact .prepare g typeName false attrs
    · exact hprepared.vertices hdata

theorem addEdge (hg : g.Grounded) (typeName : String) (alpha omega : Nat)
    (attrs : List (String × AttrValue)) : (g.addEdge typeName alpha omega attrs).2.Grounded := by
  have hprepared := hg.grows (Grows.prepare .refl typeName true attrs)
  unfold Graph.addEdge
  split
  · exact hg
  · split
    · exact hg
    · dsimp only
      split
      · exact hg.grows (.intern typeName .refl)
      · refine ⟨hprepared.named, hprepared.closed, hprepared.roles,
          fun hdata => hprepared.attach hdata, ?_⟩
        intro e data hdata
        rw [Array.getElem?_push] at hdata
        split at hdata
        · cases hdata
          exact .prepare g typeName true attrs
        · exact hprepared.edges hdata

theorem setVertexAttr (hg : g.Grounded) (v : Nat) (name : String) (value : AttrValue) :
    (g.setVertexAttr v name value).2.Grounded := by
  have hinterned := hg.grows (.intern name .refl)
  unfold Graph.setVertexAttr
  split
  · exact hg
  · -- The name of the attribute is interned before it is used as a key.
    refine ⟨hinterned.named, hinterned.closed, hinterned.roles, ?_,
      fun hdata => hinterned.edges hdata⟩
    intro w data hdata
    rw [Array.getElem?_modify] at hdata
    split at hdata
    · rcases Option.map_eq_some_iff.1 hdata with ⟨old, hold, rfl⟩
      exact (hinterned.vertices hold).set (g.names.intern_lt name) value
    · exact hinterned.vertices hdata

theorem setEdgeAttr (hg : g.Grounded) (e : Nat) (name : String) (value : AttrValue) :
    (g.setEdgeAttr e name value).2.Grounded := by
  have hinterned := hg.grows (.intern name .refl)
  unfold Graph.setEdgeAttr
  split
  · exact hg
  · refine ⟨hinterned.named, hinterned.closed, hinterned.roles,
      fun hdata => hinterned.vertices hdata, ?_⟩
    intro f data hdata
    rw [Array.getElem?_modify] at hdata
    split at hdata
    · rcases Option.map_eq_some_iff.1 hdata with ⟨old, hold, rfl⟩
      exact (hinterned.edges hold).set (g.names.intern_lt name) value
    · exact hinterned.edges hdata

end Grounded

theorem Constructed.grounded (hg : g.Constructed) : g.Grounded := by
  induction hg with
  | empty => exact .of_empty
  | intern name _ ih => exact ih.grows (.intern name .refl)
  | declareVertexType name supertypes _ ih =>
    exact ih.grows (.declareVertexType .refl name supertypes)
  | declareEdgeType name supertypes alphaRole omegaRole _ ih =>
    exact ih.grows (.declareEdgeType .refl name supertypes alphaRole omegaRole)
  | addVertex typeName attrs _ ih => exact ih.addVertex typeName attrs
  | addEdge typeName alpha omega attrs _ ih => exact ih.addEdge typeName alpha omega attrs
  | setVertexAttr v name value _ ih => exact ih.setVertexAttr v name value
  | setEdgeAttr e name value _ ih => exact ih.setEdgeAttr e name value

/-! ## Questions to a grown graph -/

theorem edgeType_of_this {e : Incidence} {v : Nat} (hthis : g.this e = some v) :
    ∃ type, g.edgeType e.edge = some type := by
  unfold this at hthis
  split at hthis
  · rcases Option.map_eq_some_iff.1 hthis with ⟨data, hdata, _⟩
    exact ⟨data.type, Option.map_eq_some_iff.2 ⟨data, hdata, rfl⟩⟩
  · rcases Option.map_eq_some_iff.1 hthis with ⟨data, hdata, _⟩
    exact ⟨data.type, Option.map_eq_some_iff.2 ⟨data, hdata, rfl⟩⟩

namespace Grounded

variable {type : NameId}

theorem lt_of_contains (hg : g.Grounded) (htype : g.schema.contains type = true) :
    type < g.names.size := by
  rcases Option.isSome_iff_exists.1 htype with ⟨decl, hdecl⟩
  exact Schema.id_of_get hdecl ▸ hg.named decl (Schema.mem_of_get hdecl)

theorem contains_of_vertexType (hg : g.Grounded) {v : Nat} (hv : g.vertexType v = some type) :
    g.schema.contains type = true := by
  rcases Option.map_eq_some_iff.1 hv with ⟨data, hdata, rfl⟩
  exact (hg.vertices hdata).contains

theorem contains_of_edgeType (hg : g.Grounded) {e : Nat} (he : g.edgeType e = some type) :
    g.schema.contains type = true := by
  rcases Option.map_eq_some_iff.1 he with ⟨data, hdata, rfl⟩
  exact (hg.edges hdata).contains

end Grounded

namespace Grows

variable (hgh : g.Grows h)
include hgh

theorem vertexType_eq : h.vertexType = g.vertexType := by
  funext v
  rw [vertexType, vertexType, hgh.sameData.vertexData]

theorem edgeType_eq : h.edgeType = g.edgeType := by
  funext e
  rw [edgeType, edgeType, hgh.sameData.edgeData]

/-- A name that stands for a type of the earlier graph still stands for it. -/
theorem typeId_filter (hg : g.Grounded) (name : String) :
    (h.typeId name).filter g.schema.contains = g.typeId name := by
  refine Option.ext fun id => ?_
  simp only [typeId, Option.filter_eq_some_iff, and_assoc]
  constructor
  · rintro ⟨hid, _, hcontains⟩
    exact ⟨(Names.idOf_eq_some_iff hgh.names_prefix (hg.lt_of_contains hcontains)).1 hid, hcontains⟩
  · rintro ⟨hid, hcontains⟩
    exact ⟨(Names.idOf_eq_some_iff hgh.names_prefix (Names.idOf_lt hid)).2 hid,
      hgh.schema.contains hcontains, hcontains⟩

theorem roleId_filter (hg : g.Grounded) (name : String) :
    (h.roleId name).filter g.schema.isRole = g.roleId name := by
  refine Option.ext fun id => ?_
  simp only [roleId, Option.filter_eq_some_iff, and_assoc]
  constructor
  · rintro ⟨hid, _, hrole⟩
    exact ⟨(Names.idOf_eq_some_iff hgh.names_prefix (hg.roles hrole)).1 hid, hrole⟩
  · rintro ⟨hid, hrole⟩
    exact ⟨(Names.idOf_eq_some_iff hgh.names_prefix (Names.idOf_lt hid)).2 hid,
      hgh.schema.isRole hrole, hrole⟩

/-- A name that was interned later names no attribute. -/
theorem getAttribute_eq {type : NameId} {attributes : Attributes}
    (hd : Describes g.names g.schema type attributes) (name : String) :
    (h.names.idOf name).bind attributes.get = (g.names.idOf name).bind attributes.get := by
  refine Option.ext fun value => ?_
  simp only [Option.bind_eq_some_iff]
  refine exists_congr fun key => and_congr_left fun hvalue => ?_
  exact Names.idOf_eq_some_iff hgh.names_prefix (hd.keys (Attributes.mem_of_get hvalue))

theorem vertexAttr_eq (hg : g.Grounded) (v : Nat) (name : String) :
    h.vertexAttr v name = g.vertexAttr v name := by
  have hread : ∀ k : Graph, k.vertexAttr v name =
      k.vertexData[v]?.bind fun data => (k.names.idOf name).bind data.attributes.get := by
    intro k
    rw [Option.bind_comm]
    rfl
  rw [hread, hread, hgh.sameData.vertexData]
  exact Option.bind_congr fun data hdata => hgh.getAttribute_eq (hg.vertices hdata) name

theorem edgeAttr_eq (hg : g.Grounded) (e : Nat) (name : String) :
    h.edgeAttr e name = g.edgeAttr e name := by
  have hread : ∀ k : Graph, k.edgeAttr e name =
      k.edgeData[e]?.bind fun data => (k.names.idOf name).bind data.attributes.get := by
    intro k
    rw [Option.bind_comm]
    rfl
  rw [hread, hread, hgh.sameData.edgeData]
  exact Option.bind_congr fun data hdata => hgh.getAttribute_eq (hg.edges hdata) name

end Grows

end Graph

end PathQuery

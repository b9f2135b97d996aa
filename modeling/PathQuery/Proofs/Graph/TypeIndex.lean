import PathQuery.Proofs.Graph.Effect

/-!
# The index of types

For every type an index keeps the set of the elements that have it.  The elements keep their types,
too, and a search reads the index only.

* `TypeIndex.Tabulates`: the index says the same as a column of types;
* `Tabulates.insert`, `Tabulates.mem_collect`: it stays so when an element is entered, and what a
  search finds then;
* `Constructed.tabulated`: both indexes of a graph that is made are right;
* `mem_findByType`, `mem_findEdgesByType`: which elements are found by the name of a type.
-/

namespace PathQuery

namespace TypeIndex

structure Tabulates (index : TypeIndex) (column : Nat → Option NameId) : Prop where
  mem_iff {type : NameId} {ids : IdSet} : (type, ids) ∈ index.entries →
    ∀ x, x ∈ ids ↔ column x = some type
  listed {x : Nat} {type : NameId} : column x = some type → ∃ ids, (type, ids) ∈ index.entries

variable {index : TypeIndex} {column : Nat → Option NameId} {x : Nat} {type : NameId}

namespace Tabulates

theorem empty : Tabulates {} fun _ => none :=
  ⟨fun h => absurd h List.not_mem_nil, fun h => by cases h⟩

theorem mem_get (h : index.Tabulates column) : x ∈ index.get type ↔ column x = some type := by
  rw [TypeIndex.get]
  cases hlookup : index.entries.lookup type with
  | some ids =>
    rcases List.lookup_eq_some_iff.1 hlookup with ⟨before, after, hentries, _⟩
    refine h.mem_iff ?_ x
    rw [hentries]
    exact List.mem_append_right before List.mem_cons_self
  | none =>
    -- A type without an entry is the type of no element.
    rw [Option.getD_none]
    refine iff_of_false IdSet.not_mem_empty fun hcolumn => ?_
    rcases h.listed hcolumn with ⟨ids, hids⟩
    have hne := List.lookup_eq_none_iff.1 hlookup _ hids
    simp at hne

theorem insert (h : index.Tabulates column) (hnew : column x = none) (type : NameId) :
    (index.insert type x).Tabulates fun y => if y = x then some type else column y := by
  constructor
  · intro type' ids hids y
    rcases List.mem_cons.1 hids with heq | hids
    · cases heq
      rw [IdSet.mem_insert, h.mem_get]
      by_cases hy : y = x
      · simp [hy]
      · simp [hy]
    · rcases List.mem_filter.1 hids with ⟨hids, hne⟩
      rw [h.mem_iff hids]
      by_cases hy : y = x
      · simp only [bne_iff_ne, ne_eq] at hne
        simp [hy, hnew, Ne.symm hne]
      · simp [hy]
  · intro y type' hy
    by_cases htype : type' = type
    · subst htype
      exact ⟨_, List.mem_cons_self⟩
    · -- The entries of other types are kept.
      have hold : column y = some type' := by
        split at hy
        · exact absurd (Option.some.inj hy).symm htype
        · exact hy
      rcases h.listed hold with ⟨ids, hids⟩
      exact ⟨ids, List.mem_cons_of_mem _ (List.mem_filter.2 ⟨hids, bne_iff_ne.2 htype⟩)⟩

end Tabulates

theorem mem_foldl_collect {p : NameId → Bool} {entries : List (NameId × IdSet)} {found : IdSet} :
    x ∈ entries.foldl (fun found entry => if p entry.1 then found.union entry.2 else found) found ↔
      x ∈ found ∨ ∃ entry ∈ entries, p entry.1 = true ∧ x ∈ entry.2 := by
  induction entries generalizing found with
  | nil => simp
  | cons entry entries ih =>
    rw [List.foldl_cons, ih]
    by_cases hp : p entry.1 = true
    · simp [hp, or_assoc]
    · simp [hp]

theorem Tabulates.mem_collect (h : index.Tabulates column) {p : NameId → Bool} :
    x ∈ index.collect p ↔ ∃ type, column x = some type ∧ p type = true := by
  rw [collect, mem_foldl_collect]
  constructor
  · rintro (hx | ⟨⟨type, ids⟩, hentry, hp, hx⟩)
    · exact absurd hx IdSet.not_mem_empty
    · exact ⟨type, (h.mem_iff hentry x).1 hx, hp⟩
  · rintro ⟨type, hcolumn, hp⟩
    rcases h.listed hcolumn with ⟨ids, hids⟩
    exact .inr ⟨(type, ids), hids, hp, (h.mem_iff hids x).2 hcolumn⟩

end TypeIndex

namespace Graph

variable {g h : Graph}

/-- Both indexes say the same as the elements. -/
structure Tabulated (g : Graph) : Prop where
  vertices : g.vertexIndex.Tabulates g.vertexType
  edges : g.edgeIndex.Tabulates g.edgeType

theorem vertexType_pushVertex (h : Graph) (type : NameId) (attributes : Attributes) :
    (h.pushVertex type attributes).vertexType =
      fun v => if v = h.vertexCount then some type else h.vertexType v := by
  funext v
  simp only [vertexType, pushVertex, Array.getElem?_push]
  exact apply_ite _ _ _ _

theorem edgeType_pushEdge (h : Graph) (type : NameId) (alpha omega : Nat)
    (attributes : Attributes) : (h.pushEdge type alpha omega attributes).edgeType =
      fun e => if e = h.edgeCount then some type else h.edgeType e := by
  funext e
  simp only [edgeType, pushEdge, Array.getElem?_push]
  exact apply_ite _ _ _ _

theorem vertexType_congr (hrows : h.vertexRows = g.vertexRows) : h.vertexType = g.vertexType := by
  funext v
  rw [vertexType_eq_getElem?, vertexType_eq_getElem?, hrows]

theorem edgeType_congr (hrows : h.edgeRows = g.edgeRows) : h.edgeType = g.edgeType := by
  funext e
  rw [edgeType_eq_getElem?, edgeType_eq_getElem?, hrows]

theorem Grows.vertexIndex_eq (hgh : g.Grows h) : h.vertexIndex = g.vertexIndex := by
  induction hgh with
  | refl => rfl
  | intern _ _ ih => exact ih
  | declare _ _ _ _ _ ih => exact ih

theorem Grows.edgeIndex_eq (hgh : g.Grows h) : h.edgeIndex = g.edgeIndex := by
  induction hgh with
  | refl => rfl
  | intern _ _ ih => exact ih
  | declare _ _ _ _ _ ih => exact ih

namespace Tabulated

theorem grows (hg : g.Tabulated) (hgh : g.Grows h) : h.Tabulated where
  vertices := by
    rw [hgh.vertexIndex_eq, hgh.vertexType_eq]
    exact hg.vertices
  edges := by
    rw [hgh.edgeIndex_eq, hgh.edgeType_eq]
    exact hg.edges

theorem pushVertex (hh : h.Tabulated) (type : NameId) (attributes : Attributes) :
    (h.pushVertex type attributes).Tabulated where
  vertices := by
    rw [vertexType_pushVertex]
    refine hh.vertices.insert ?_ type
    simp [vertexType, vertexCount]
  edges := hh.edges

theorem pushEdge (hh : h.Tabulated) (type : NameId) (alpha omega : Nat)
    (attributes : Attributes) : (h.pushEdge type alpha omega attributes).Tabulated where
  vertices := by
    rw [vertexType_congr (vertexRows_pushEdge h type alpha omega attributes)]
    exact hh.vertices
  edges := by
    rw [edgeType_pushEdge]
    refine hh.edges.insert ?_ type
    simp [edgeType, edgeCount]

theorem writeVertex (hh : h.Tabulated) (v : Nat) (key : NameId) (value : AttrValue) :
    (h.writeVertex v key value).Tabulated where
  vertices := by
    rw [vertexType_congr (vertexRows_writeVertex h v key value)]
    exact hh.vertices
  edges := hh.edges

theorem writeEdge (hh : h.Tabulated) (e : Nat) (key : NameId) (value : AttrValue) :
    (h.writeEdge e key value).Tabulated where
  vertices := hh.vertices
  edges := by
    rw [edgeType_congr (edgeRows_writeEdge h e key value)]
    exact hh.edges

end Tabulated

theorem Constructed.tabulated (hg : g.Constructed) : g.Tabulated := by
  induction hg with
  | empty => exact ⟨.empty, .empty⟩
  | intern name _ ih => exact ih.grows (.intern name .refl)
  | declareVertexType name supertypes _ ih =>
    exact ih.grows (.declareVertexType .refl name supertypes)
  | declareEdgeType name supertypes alphaRole omegaRole _ ih =>
    exact ih.grows (.declareEdgeType .refl name supertypes alphaRole omegaRole)
  | @addVertex g typeName attrs _ ih =>
    rcases addVertex_cases_eq g typeName attrs with ⟨reason, heq⟩ | heq
    · rw [heq]
      exact ih.grows (.intern typeName .refl)
    · rw [heq]
      exact (ih.grows (.prepare .refl typeName false attrs)).pushVertex _ _
  | @addEdge g typeName alpha omega attrs _ ih =>
    rcases addEdge_cases_eq g typeName alpha omega attrs with
      ⟨reason, heq⟩ | ⟨reason, heq⟩ | ⟨_, _, heq⟩
    · rw [heq]
      exact ih
    · rw [heq]
      exact ih.grows (.intern typeName .refl)
    · rw [heq]
      exact (ih.grows (.prepare .refl typeName true attrs)).pushEdge _ alpha omega _
  | @setVertexAttr g v name value _ ih =>
    rcases setVertexAttr_cases_eq g v name value with ⟨reason, heq⟩ | ⟨_, heq⟩
    · rw [heq]
      exact ih
    · rw [heq]
      exact (ih.grows (.intern name .refl)).writeVertex v _ value
  | @setEdgeAttr g e name value _ ih =>
    rcases setEdgeAttr_cases_eq g e name value with ⟨reason, heq⟩ | ⟨_, heq⟩
    · rw [heq]
      exact ih
    · rw [heq]
      exact (ih.grows (.intern name .refl)).writeEdge e _ value

theorem mem_findByType (hg : g.Constructed) {name : String} {v : Nat} :
    v ∈ g.findByType name ↔ ∃ type sup, g.vertexType v = some type ∧
      g.names.idOf name = some sup ∧ g.isSubtypeOf type sup = true := by
  unfold findByType
  split
  · rename_i hname
    simp [hname]
  · rename_i sup hname
    simp [hname, hg.tabulated.vertices.mem_collect]

theorem mem_findEdgesByType (hg : g.Constructed) {name : String} {e : Nat} :
    e ∈ g.findEdgesByType name ↔ ∃ type sup, g.edgeType e = some type ∧
      g.names.idOf name = some sup ∧ g.isSubtypeOf type sup = true := by
  unfold findEdgesByType
  split
  · rename_i hname
    simp [hname]
  · rename_i sup hname
    simp [hname, hg.tabulated.edges.mem_collect]

end Graph
end PathQuery

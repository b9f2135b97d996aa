import PathQuery.Proofs.Graph.Version

/-!
# What the changes of elements do

A new element is entered in a graph that already knows its type and the names of its attributes; a
write is entered in a graph that knows the name.  What is entered is said here once, so that nothing
else has to look into the changes.

* `Graph.pushVertex`, `Graph.pushEdge`, `Graph.writeVertex`, `Graph.writeEdge`: what is entered;
* `addVertex_cases_eq`, `addEdge_cases_eq`, `setVertexAttr_cases_eq`, `setEdgeAttr_cases_eq`: each
  change enters it or fails, and what a failure leaves behind;
* `Graph.attributesOf`, `Graph.vertexRows`, `Graph.edgeRows`: the attributes, the column of types
  and the list of edges, with one lemma for each entry.
-/

namespace PathQuery
namespace Graph

variable {g h : Graph}

/-! ## Entries -/

/-- Enters a vertex without edges. -/
def pushVertex (h : Graph) (type : NameId) (attributes : Attributes) : Graph :=
  { h with
    vertexData := h.vertexData.push { type, attributes, leaving := [], entering := [] }
    vertexIndex := h.vertexIndex.insert type h.vertexCount
    version := h.version + 1 }

/-- Enters an edge and lists it at its ends. -/
def pushEdge (h : Graph) (type : NameId) (alpha omega : Nat) (attributes : Attributes) : Graph :=
  { h with
    edgeData := h.edgeData.push { type, alpha, omega, attributes }
    vertexData := attach h.vertexData h.edgeCount alpha omega
    edgeIndex := h.edgeIndex.insert type h.edgeCount
    version := h.version + 1 }

def writeVertex (h : Graph) (v : Nat) (key : NameId) (value : AttrValue) : Graph :=
  { h with
    vertexData := h.vertexData.modify v fun data =>
      { data with attributes := data.attributes.set key value }
    version := h.version + 1 }

def writeEdge (h : Graph) (e : Nat) (key : NameId) (value : AttrValue) : Graph :=
  { h with
    edgeData := h.edgeData.modify e fun data =>
      { data with attributes := data.attributes.set key value }
    version := h.version + 1 }

theorem addVertex_cases_eq (g : Graph) (typeName : String) (attrs : List (String × AttrValue)) :
    (∃ reason, g.addVertex typeName attrs = (.error reason, (g.intern typeName).2)) ∨
      g.addVertex typeName attrs = (.ok g.vertexCount,
        (g.prepare typeName false attrs).2.pushVertex (g.intern typeName).1
          (({} : Attributes).setAll (g.prepare typeName false attrs).1)) := by
  have hcount : (g.prepare typeName false attrs).2.vertexCount = g.vertexCount := by
    rw [vertexCount, (sameData_prepare g typeName false attrs).vertexData, vertexCount]
  unfold addVertex
  dsimp only
  split
  · exact .inl ⟨_, rfl⟩
  · refine .inr ?_
    rw [← hcount]
    rfl

theorem addEdge_cases_eq (g : Graph) (typeName : String) (alpha omega : Nat)
    (attrs : List (String × AttrValue)) :
    (∃ reason, g.addEdge typeName alpha omega attrs = (.error reason, g)) ∨
      (∃ reason, g.addEdge typeName alpha omega attrs = (.error reason, (g.intern typeName).2)) ∨
      (alpha < g.vertexCount ∧ omega < g.vertexCount ∧
        g.addEdge typeName alpha omega attrs = (.ok g.edgeCount,
          (g.prepare typeName true attrs).2.pushEdge (g.intern typeName).1 alpha omega
            (({} : Attributes).setAll (g.prepare typeName true attrs).1))) := by
  have hcount : (g.prepare typeName true attrs).2.edgeCount = g.edgeCount := by
    rw [edgeCount, (sameData_prepare g typeName true attrs).edgeData, edgeCount]
  unfold addEdge
  split
  · exact .inl ⟨_, rfl⟩
  · rename_i hα
    split
    · exact .inl ⟨_, rfl⟩
    · rename_i hω
      rw [Bool.not_eq_true, Bool.not_eq_false'] at hα hω
      dsimp only
      split
      · exact .inr (.inl ⟨_, rfl⟩)
      · refine .inr (.inr ⟨containsVertex_iff.1 hα, containsVertex_iff.1 hω, ?_⟩)
        rw [← hcount]
        rfl

theorem setVertexAttr_cases_eq (g : Graph) (v : Nat) (name : String) (value : AttrValue) :
    (∃ reason, g.setVertexAttr v name value = (.error reason, g)) ∨
      (v < g.vertexCount ∧ g.setVertexAttr v name value =
        (.ok (), (g.intern name).2.writeVertex v (g.intern name).1 value)) := by
  unfold setVertexAttr
  split
  · exact .inl ⟨_, rfl⟩
  · rename_i hv
    rw [Bool.not_eq_true, Bool.not_eq_false'] at hv
    exact .inr ⟨containsVertex_iff.1 hv, rfl⟩

theorem setEdgeAttr_cases_eq (g : Graph) (e : Nat) (name : String) (value : AttrValue) :
    (∃ reason, g.setEdgeAttr e name value = (.error reason, g)) ∨
      (e < g.edgeCount ∧ g.setEdgeAttr e name value =
        (.ok (), (g.intern name).2.writeEdge e (g.intern name).1 value)) := by
  unfold setEdgeAttr
  split
  · exact .inl ⟨_, rfl⟩
  · rename_i he
    exact .inr ⟨Nat.lt_of_not_le he, rfl⟩

/-! ## Attributes -/

/-- What can have attributes. -/
inductive Element where
  | vertex (v : Nat)
  | edge (e : Nat)
  deriving DecidableEq, Repr

def attributesOf (g : Graph) : Element → Option Attributes
  | .vertex v => g.vertexData[v]?.map (·.attributes)
  | .edge e => g.edgeData[e]?.map (·.attributes)

/-- The attribute of an element, read by its name. -/
def attr (g : Graph) : Element → String → Option AttrValue
  | .vertex v, name => g.vertexAttr v name
  | .edge e, name => g.edgeAttr e name

theorem attr_eq (g : Graph) (x : Element) (name : String) : g.attr x name =
    (g.names.idOf name).bind fun key => (g.attributesOf x).bind (·.get key) := by
  cases x with
  | vertex v =>
    rw [attributesOf]
    simp only [Option.bind_map]
    rfl
  | edge e =>
    rw [attributesOf]
    simp only [Option.bind_map]
    rfl

theorem attributesOf_pushVertex (h : Graph) (type : NameId) (attributes : Attributes)
    (x : Element) : (h.pushVertex type attributes).attributesOf x =
      if x = .vertex h.vertexCount then some attributes else h.attributesOf x := by
  cases x with
  | edge e => rfl
  | vertex v =>
    simp only [attributesOf, pushVertex, Array.getElem?_push, Element.vertex.injEq, vertexCount]
    split
    · rfl
    · rfl

theorem attributesOf_pushEdge (h : Graph) (type : NameId) (alpha omega : Nat)
    (attributes : Attributes) (x : Element) :
    (h.pushEdge type alpha omega attributes).attributesOf x =
      if x = .edge h.edgeCount then some attributes else h.attributesOf x := by
  cases x with
  | edge e =>
    simp only [attributesOf, pushEdge, Array.getElem?_push, Element.edge.injEq, edgeCount]
    split
    · rfl
    · rfl
  | vertex v =>
    -- Listing an edge at its ends leaves the attributes of the ends alone.
    simp only [attributesOf, pushEdge, attach, Array.getElem?_modify, reduceCtorEq, if_false]
    split <;> split <;> simp [Function.comp_def]

theorem attributesOf_writeVertex {v : Nat} (hv : v < h.vertexCount) (key : NameId)
    (value : AttrValue) (x : Element) : (h.writeVertex v key value).attributesOf x =
      if x = .vertex v then some (((h.attributesOf (.vertex v)).getD {}).set key value)
      else h.attributesOf x := by
  cases x with
  | edge e => rfl
  | vertex w =>
    simp only [attributesOf, writeVertex, Array.getElem?_modify, Element.vertex.injEq]
    by_cases hw : w = v
    · subst hw
      rw [vertexCount] at hv
      simp [hv]
    · simp [hw, Ne.symm hw]

theorem attributesOf_writeEdge {e : Nat} (he : e < h.edgeCount) (key : NameId)
    (value : AttrValue) (x : Element) : (h.writeEdge e key value).attributesOf x =
      if x = .edge e then some (((h.attributesOf (.edge e)).getD {}).set key value)
      else h.attributesOf x := by
  cases x with
  | vertex v => rfl
  | edge f =>
    simp only [attributesOf, writeEdge, Array.getElem?_modify, Element.edge.injEq]
    by_cases hf : f = e
    · subst hf
      rw [edgeCount] at he
      simp [he]
    · simp [hf, Ne.symm hf]

/-! ## Columns -/

/-- The types of the vertices. -/
def vertexRows (g : Graph) : List NameId :=
  g.vertexData.toList.map (·.type)

/-- The edges, each with its type, its alpha and its omega. -/
def edgeRows (g : Graph) : List (NameId × Nat × Nat) :=
  g.edgeData.toList.map fun data => (data.type, data.alpha, data.omega)

theorem vertexType_eq_getElem? (g : Graph) (v : Nat) : g.vertexType v = g.vertexRows[v]? := by
  rw [vertexRows, List.getElem?_map, Array.getElem?_toList]
  rfl

theorem edgeType_eq_getElem? (g : Graph) (e : Nat) :
    g.edgeType e = g.edgeRows[e]?.map (·.1) := by
  rw [edgeRows, List.getElem?_map, Array.getElem?_toList, Option.map_map]
  rfl

theorem alpha_eq_getElem? (g : Graph) (e : Nat) : g.alpha e = g.edgeRows[e]?.map (·.2.1) := by
  rw [edgeRows, List.getElem?_map, Array.getElem?_toList, Option.map_map]
  rfl

theorem omega_eq_getElem? (g : Graph) (e : Nat) : g.omega e = g.edgeRows[e]?.map (·.2.2) := by
  rw [edgeRows, List.getElem?_map, Array.getElem?_toList, Option.map_map]
  rfl

theorem map_toList_modify {α β : Type} (xs : Array α) (i : Nat) {f : α → α} {p : α → β}
    (hf : ∀ x, p (f x) = p x) : (xs.modify i f).toList.map p = xs.toList.map p := by
  apply List.ext_getElem?
  intro j
  simp only [List.getElem?_map, Array.getElem?_toList, Array.getElem?_modify]
  split
  · rw [Option.map_map]
    exact congrArg (Option.map · _) (funext hf)
  · rfl

section Rows

variable (h : Graph) (type : NameId) (alpha omega v e : Nat) (attributes : Attributes)
  (key : NameId) (value : AttrValue)

@[simp] theorem vertexRows_pushVertex :
    (h.pushVertex type attributes).vertexRows = h.vertexRows ++ [type] := by
  simp [vertexRows, pushVertex]

@[simp] theorem vertexRows_pushEdge :
    (h.pushEdge type alpha omega attributes).vertexRows = h.vertexRows := by
  simp only [vertexRows, pushEdge, attach]
  rw [map_toList_modify, map_toList_modify]
  · exact fun _ => rfl
  · exact fun _ => rfl

@[simp] theorem vertexRows_writeVertex : (h.writeVertex v key value).vertexRows = h.vertexRows :=
  map_toList_modify h.vertexData v fun _ => rfl

@[simp] theorem vertexRows_writeEdge : (h.writeEdge e key value).vertexRows = h.vertexRows := rfl

@[simp] theorem edgeRows_pushVertex : (h.pushVertex type attributes).edgeRows = h.edgeRows := rfl

@[simp] theorem edgeRows_pushEdge : (h.pushEdge type alpha omega attributes).edgeRows =
    h.edgeRows ++ [(type, alpha, omega)] := by
  simp [edgeRows, pushEdge]

@[simp] theorem edgeRows_writeVertex : (h.writeVertex v key value).edgeRows = h.edgeRows := rfl

@[simp] theorem edgeRows_writeEdge : (h.writeEdge e key value).edgeRows = h.edgeRows :=
  map_toList_modify h.edgeData e fun _ => rfl

end Rows

end Graph
end PathQuery

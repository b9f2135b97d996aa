import Mathlib.Data.List.Basic
import PathQuery.Graph.Basic
import PathQuery.Proofs.Incident

/-!
# Well-formed graphs

The operations keep two copies of every edge: its two ends, and an entry in the lists of the two
vertices.  Traversals read the lists only, so their meaning rests on the agreement of the copies.

* `Graph.Constructed`: the graphs that the operations make, failed operations included;
* `Graph.WellFormed`: the ends of every edge exist, and every vertex lists exactly its edges;
* `Constructed.wellFormed`: every graph that is made is well-formed;
* `WellFormed.mem_incidences`: which incidences a vertex has.
-/

namespace PathQuery
namespace Graph

/-- What the operations make out of the empty graph.  A failed operation counts with whatever it
left behind. -/
inductive Constructed : Graph → Prop where
  | empty : Constructed empty
  | intern {g : Graph} (name : String) : Constructed g → Constructed (g.intern name).2
  | declareVertexType {g : Graph} (name : String) (supertypes : List String) :
      Constructed g → Constructed (g.declareVertexType name supertypes).2
  | declareEdgeType {g : Graph} (name : String) (supertypes : List String)
      (alphaRole omegaRole : Option String) :
      Constructed g → Constructed (g.declareEdgeType name supertypes alphaRole omegaRole).2
  | addVertex {g : Graph} (typeName : String) (attrs : List (String × AttrValue)) :
      Constructed g → Constructed (g.addVertex typeName attrs).2
  | addEdge {g : Graph} (typeName : String) (alpha omega : Nat)
      (attrs : List (String × AttrValue)) :
      Constructed g → Constructed (g.addEdge typeName alpha omega attrs).2
  | setVertexAttr {g : Graph} (v : Nat) (name : String) (value : AttrValue) :
      Constructed g → Constructed (g.setVertexAttr v name value).2
  | setEdgeAttr {g : Graph} (e : Nat) (name : String) (value : AttrValue) :
      Constructed g → Constructed (g.setEdgeAttr e name value).2

/-- The list of the edges that leave a vertex, as the vertex keeps it. -/
def leaving (g : Graph) (v : Nat) : Option (List Nat) :=
  g.vertexData[v]?.map (·.leaving)

/-- The list of the edges that enter a vertex, as the vertex keeps it. -/
def entering (g : Graph) (v : Nat) : Option (List Nat) :=
  g.vertexData[v]?.map (·.entering)

structure WellFormed (g : Graph) : Prop where
  alpha_lt {e v : Nat} : g.alpha e = some v → v < g.vertexCount
  omega_lt {e v : Nat} : g.omega e = some v → v < g.vertexCount
  leaving_eq {v : Nat} {edges : List Nat} : g.leaving v = some edges →
    edges = incident g.edgeCount g.alpha v
  entering_eq {v : Nat} {edges : List Nat} : g.entering v = some edges →
    edges = incident g.edgeCount g.omega v

/-! ## Elements -/

theorem edge_lt_of_alpha {g : Graph} {e v : Nat} (h : g.alpha e = some v) : e < g.edgeCount := by
  rcases Option.map_eq_some_iff.1 h with ⟨data, hdata, _⟩
  exact (Array.getElem?_eq_some_iff.1 hdata).1

theorem edge_lt_of_omega {g : Graph} {e v : Nat} (h : g.omega e = some v) : e < g.edgeCount := by
  rcases Option.map_eq_some_iff.1 h with ⟨data, hdata, _⟩
  exact (Array.getElem?_eq_some_iff.1 hdata).1

theorem containsVertex_iff {g : Graph} {v : Nat} :
    g.containsVertex v = true ↔ v < g.vertexCount := by
  simp [containsVertex]

/-! ## What the operations do to vertices and edges -/

/-- Names, types and indexes may differ. -/
structure SameData (g g' : Graph) : Prop where
  vertexData : g'.vertexData = g.vertexData
  edgeData : g'.edgeData = g.edgeData

theorem SameData.trans {g g' g'' : Graph} (h : SameData g g') (h' : SameData g' g'') :
    SameData g g'' :=
  ⟨h'.vertexData.trans h.vertexData, h'.edgeData.trans h.edgeData⟩

theorem SameData.this_eq {g g' : Graph} (h : SameData g g') : g'.this = g.this := by
  funext e
  unfold this alpha omega
  rw [h.edgeData]

theorem SameData.that_eq {g g' : Graph} (h : SameData g g') : g'.that = g.that := by
  funext e
  unfold that alpha omega
  rw [h.edgeData]

theorem sameData_intern (g : Graph) (name : String) : SameData g (g.intern name).2 :=
  ⟨rfl, rfl⟩

theorem sameData_internOption (g : Graph) (name : Option String) :
    SameData g (g.internOption name).2 := by
  cases name with
  | none => exact ⟨rfl, rfl⟩
  | some name => exact ⟨rfl, rfl⟩

theorem sameData_internAttributes (g : Graph) (attrs : List (String × AttrValue)) :
    SameData g (g.internAttributes attrs).2 :=
  ⟨rfl, rfl⟩

theorem sameData_ensureType (g : Graph) (id : NameId) (isEdgeType : Bool) :
    SameData g (g.ensureType id isEdgeType) := by
  unfold ensureType
  split
  · exact ⟨rfl, rfl⟩
  · exact ⟨rfl, rfl⟩

theorem sameData_declareVertexType (g : Graph) (name : String) (supertypes : List String) :
    SameData g (g.declareVertexType name supertypes).2 := by
  have h := sameData_intern g name
  unfold declareVertexType
  dsimp only
  split
  · exact h
  · split
    · exact h
    · exact ⟨h.vertexData, h.edgeData⟩

theorem sameData_declareEdgeType (g : Graph) (name : String) (supertypes : List String)
    (alphaRole omegaRole : Option String) :
    SameData g (g.declareEdgeType name supertypes alphaRole omegaRole).2 := by
  have h := sameData_intern g name
  have hα := h.trans (sameData_internOption _ alphaRole)
  have hω := hα.trans (sameData_internOption _ omegaRole)
  unfold declareEdgeType
  dsimp only
  split
  · exact h
  · split
    · exact hω
    · exact ⟨hω.vertexData, hω.edgeData⟩

/-- The graph of which a new element becomes part: its type is declared, its names are interned. -/
def prepare (g : Graph) (typeName : String) (isEdgeType : Bool)
    (attrs : List (String × AttrValue)) : List (NameId × AttrValue) × Graph :=
  ((g.intern typeName).2.ensureType (g.intern typeName).1 isEdgeType).internAttributes attrs

theorem sameData_prepare (g : Graph) (typeName : String) (isEdgeType : Bool)
    (attrs : List (String × AttrValue)) : SameData g (g.prepare typeName isEdgeType attrs).2 :=
  ((sameData_intern g typeName).trans (sameData_ensureType _ _ isEdgeType)).trans
    (sameData_internAttributes _ attrs)

theorem addVertex_cases (g : Graph) (typeName : String) (attrs : List (String × AttrValue)) :
    SameData g (g.addVertex typeName attrs).2 ∨
      ∃ type attributes, (g.addVertex typeName attrs).2.vertexData =
          g.vertexData.push { type, attributes, leaving := [], entering := [] } ∧
        (g.addVertex typeName attrs).2.edgeData = g.edgeData := by
  have h := sameData_prepare g typeName false attrs
  unfold addVertex
  dsimp only
  split
  · exact .inl (sameData_intern g typeName)
  · refine .inr ⟨(g.intern typeName).1,
      ({} : Attributes).setAll (g.prepare typeName false attrs).1, ?_, h.edgeData⟩
    rw [← h.vertexData]
    rfl

theorem addEdge_cases (g : Graph) (typeName : String) (alpha omega : Nat)
    (attrs : List (String × AttrValue)) :
    SameData g (g.addEdge typeName alpha omega attrs).2 ∨
      ∃ type attributes, alpha < g.vertexCount ∧ omega < g.vertexCount ∧
        (g.addEdge typeName alpha omega attrs).2.edgeData =
          g.edgeData.push { type, alpha, omega, attributes } ∧
        (g.addEdge typeName alpha omega attrs).2.vertexData =
          attach g.vertexData g.edgeCount alpha omega := by
  have h := sameData_prepare g typeName true attrs
  unfold addEdge
  split
  · exact .inl ⟨rfl, rfl⟩
  · split
    · exact .inl ⟨rfl, rfl⟩
    · rename_i hα hω
      dsimp only
      split
      · exact .inl (sameData_intern g typeName)
      · refine .inr ⟨(g.intern typeName).1,
          ({} : Attributes).setAll (g.prepare typeName true attrs).1, ?_, ?_, ?_, ?_⟩
        · simpa [containsVertex] using hα
        · simpa [containsVertex] using hω
        · rw [← h.edgeData]
          rfl
        · rw [show g.edgeCount = (g.prepare typeName true attrs).2.edgeCount from
            congrArg Array.size h.edgeData.symm, ← h.vertexData]
          rfl

/-! ## Every operation keeps the copies in agreement -/

/-- Two graphs with the same vertices, edges and lists. -/
structure SameLinks (g g' : Graph) : Prop where
  vertexCount : g'.vertexCount = g.vertexCount
  edgeCount : g'.edgeCount = g.edgeCount
  alpha : g'.alpha = g.alpha
  omega : g'.omega = g.omega
  leaving : g'.leaving = g.leaving
  entering : g'.entering = g.entering

theorem SameData.sameLinks {g g' : Graph} (h : SameData g g') : SameLinks g g' := by
  constructor
  · simp [Graph.vertexCount, h.vertexData]
  · simp [Graph.edgeCount, h.edgeData]
  · funext e
    simp [Graph.alpha, h.edgeData]
  · funext e
    simp [Graph.omega, h.edgeData]
  · funext v
    simp [Graph.leaving, h.vertexData]
  · funext v
    simp [Graph.entering, h.vertexData]

theorem SameLinks.wellFormed {g g' : Graph} (h : SameLinks g g') (hg : g.WellFormed) :
    g'.WellFormed := by
  constructor
  · intro e v he
    rw [h.alpha] at he
    rw [h.vertexCount]
    exact hg.alpha_lt he
  · intro e v he
    rw [h.omega] at he
    rw [h.vertexCount]
    exact hg.omega_lt he
  · intro v edges hv
    rw [h.leaving] at hv
    rw [h.edgeCount, h.alpha]
    exact hg.leaving_eq hv
  · intro v edges hv
    rw [h.entering] at hv
    rw [h.edgeCount, h.omega]
    exact hg.entering_eq hv

theorem sameLinks_setVertexAttr (g : Graph) (v : Nat) (name : String) (value : AttrValue) :
    SameLinks g (g.setVertexAttr v name value).2 := by
  unfold setVertexAttr
  split
  · exact SameData.sameLinks ⟨rfl, rfl⟩
  · constructor
    · simp [Graph.vertexCount, Graph.intern]
    · rfl
    · rfl
    · rfl
    · funext w
      simp only [Graph.leaving, Graph.intern, Array.getElem?_modify]
      split <;> simp [Function.comp_def]
    · funext w
      simp only [Graph.entering, Graph.intern, Array.getElem?_modify]
      split <;> simp [Function.comp_def]

theorem sameLinks_setEdgeAttr (g : Graph) (e : Nat) (name : String) (value : AttrValue) :
    SameLinks g (g.setEdgeAttr e name value).2 := by
  unfold setEdgeAttr
  split
  · exact SameData.sameLinks ⟨rfl, rfl⟩
  · constructor
    · rfl
    · simp [Graph.edgeCount, Graph.intern]
    · funext f
      simp only [Graph.alpha, Graph.intern, Array.getElem?_modify]
      split <;> simp [Function.comp_def]
    · funext f
      simp only [Graph.omega, Graph.intern, Array.getElem?_modify]
      split <;> simp [Function.comp_def]
    · rfl
    · rfl

theorem wellFormed_empty : WellFormed empty := by
  constructor
  all_goals
    intro _ _ h
    simp [Graph.alpha, Graph.omega, Graph.leaving, Graph.entering, Graph.empty] at h

/-- A vertex without edges is added. -/
theorem WellFormed.push_vertex {g g' : Graph} (hg : g.WellFormed) {data : VertexData}
    (hl : data.leaving = []) (hn : data.entering = [])
    (hv : g'.vertexData = g.vertexData.push data) (he : g'.edgeData = g.edgeData) :
    g'.WellFormed := by
  have hcount : g'.vertexCount = g.vertexCount + 1 := by
    simp [Graph.vertexCount, hv]
  have hα : g'.alpha = g.alpha := by
    funext e
    simp [Graph.alpha, he]
  have hω : g'.omega = g.omega := by
    funext e
    simp [Graph.omega, he]
  have hedges : g'.edgeCount = g.edgeCount := by
    simp [Graph.edgeCount, he]
  constructor
  · intro e v h
    have := hg.alpha_lt (hα ▸ h)
    omega
  · intro e v h
    have := hg.omega_lt (hω ▸ h)
    omega
  · intro v edges h
    rw [hedges, hα]
    simp only [Graph.leaving, hv, Array.getElem?_push] at h
    split at h
    · -- No edge of the graph leaves a vertex that did not exist.
      rename_i hvn
      simp only [Option.map_some, hl, Option.some.injEq] at h
      rw [← h, eq_comm]
      apply incident_eq_nil
      intro e _ hev
      have := hg.alpha_lt hev
      simp only [Graph.vertexCount] at this
      omega
    · exact hg.leaving_eq h
  · intro v edges h
    rw [hedges, hω]
    simp only [Graph.entering, hv, Array.getElem?_push] at h
    split at h
    · rename_i hvn
      simp only [Option.map_some, hn, Option.some.injEq] at h
      rw [← h, eq_comm]
      apply incident_eq_nil
      intro e _ hev
      have := hg.omega_lt hev
      simp only [Graph.vertexCount] at this
      omega
    · exact hg.entering_eq h

/-- An edge between existing vertices is added and listed at its ends. -/
theorem WellFormed.push_edge {g g' : Graph} (hg : g.WellFormed) {data : EdgeData}
    (hα : data.alpha < g.vertexCount) (hω : data.omega < g.vertexCount)
    (he : g'.edgeData = g.edgeData.push data)
    (hv : g'.vertexData = attach g.vertexData g.edgeCount data.alpha data.omega) :
    g'.WellFormed := by
  have hcount : g'.vertexCount = g.vertexCount := by
    simp [Graph.vertexCount, hv, attach]
  have hedges : g'.edgeCount = g.edgeCount + 1 := by
    simp [Graph.edgeCount, he]
  have hαlast : g'.alpha g.edgeCount = some data.alpha := by
    simp [Graph.alpha, Graph.edgeCount, he]
  have hωlast : g'.omega g.edgeCount = some data.omega := by
    simp [Graph.omega, Graph.edgeCount, he]
  have hαold : ∀ e < g.edgeCount, g'.alpha e = g.alpha e := by
    intro e hlt
    simp only [Graph.edgeCount] at hlt
    simp [Graph.alpha, he, Array.getElem?_push, Nat.ne_of_lt hlt]
  have hωold : ∀ e < g.edgeCount, g'.omega e = g.omega e := by
    intro e hlt
    simp only [Graph.edgeCount] at hlt
    simp [Graph.omega, he, Array.getElem?_push, Nat.ne_of_lt hlt]
  constructor
  · intro e v h
    rw [hcount]
    rcases Nat.lt_succ_iff_lt_or_eq.1 (hedges ▸ edge_lt_of_alpha h) with hlt | heq
    · exact hg.alpha_lt (hαold e hlt ▸ h)
    · rw [heq, hαlast] at h
      exact Option.some.inj h ▸ hα
  · intro e v h
    rw [hcount]
    rcases Nat.lt_succ_iff_lt_or_eq.1 (hedges ▸ edge_lt_of_omega h) with hlt | heq
    · exact hg.omega_lt (hωold e hlt ▸ h)
    · rw [heq, hωlast] at h
      exact Option.some.inj h ▸ hω
  · intro v edges h
    rw [hedges, incident_succ hαlast hαold]
    have hlist : g'.leaving v = (g.leaving v).map fun es =>
        es ++ if data.alpha = v then [g.edgeCount] else [] := by
      simp only [Graph.leaving, hv, attach, Array.getElem?_modify]
      split <;> split <;> simp_all [Function.comp_def]
    rw [hlist] at h
    rcases Option.map_eq_some_iff.1 h with ⟨es, hes, rfl⟩
    rw [hg.leaving_eq hes]
  · intro v edges h
    rw [hedges, incident_succ hωlast hωold]
    have hlist : g'.entering v = (g.entering v).map fun es =>
        es ++ if data.omega = v then [g.edgeCount] else [] := by
      simp only [Graph.entering, hv, attach, Array.getElem?_modify]
      split <;> split <;> simp_all [Function.comp_def]
    rw [hlist] at h
    rcases Option.map_eq_some_iff.1 h with ⟨es, hes, rfl⟩
    rw [hg.entering_eq hes]

theorem Constructed.wellFormed {g : Graph} (h : g.Constructed) : g.WellFormed := by
  induction h with
  | empty =>
    exact wellFormed_empty
  | intern name _ ih =>
    exact (sameData_intern _ name).sameLinks.wellFormed ih
  | declareVertexType name supertypes _ ih =>
    exact (sameData_declareVertexType _ name supertypes).sameLinks.wellFormed ih
  | declareEdgeType name supertypes alphaRole omegaRole _ ih =>
    exact (sameData_declareEdgeType _ name supertypes alphaRole omegaRole).sameLinks.wellFormed ih
  | addVertex typeName attrs _ ih =>
    rcases addVertex_cases _ typeName attrs with h | ⟨type, attributes, hv, he⟩
    · exact h.sameLinks.wellFormed ih
    · exact ih.push_vertex rfl rfl hv he
  | addEdge typeName alpha omega attrs _ ih =>
    rcases addEdge_cases _ typeName alpha omega attrs with h | ⟨type, attributes, hα, hω, he, hv⟩
    · exact h.sameLinks.wellFormed ih
    · exact ih.push_edge hα hω he hv
  | setVertexAttr v name value _ ih =>
    exact (sameLinks_setVertexAttr _ v name value).wellFormed ih
  | setEdgeAttr e name value _ ih =>
    exact (sameLinks_setEdgeAttr _ e name value).wellFormed ih

/-! ## Incidences -/

namespace WellFormed

variable {g : Graph}

theorem this_lt (hg : g.WellFormed) {e : Incidence} {v : Nat} (h : g.this e = some v) :
    v < g.vertexCount := by
  unfold Graph.this at h
  split at h
  · exact hg.alpha_lt h
  · exact hg.omega_lt h

theorem that_lt (hg : g.WellFormed) {e : Incidence} {v : Nat} (h : g.that e = some v) :
    v < g.vertexCount := by
  unfold Graph.that at h
  split at h
  · exact hg.omega_lt h
  · exact hg.alpha_lt h

theorem mem_leaving (hg : g.WellFormed) {v e : Nat} {edges : List Nat}
    (h : g.leaving v = some edges) : e ∈ edges ↔ g.alpha e = some v := by
  rw [hg.leaving_eq h, mem_incident]
  exact ⟨And.right, fun he => ⟨edge_lt_of_alpha he, he⟩⟩

theorem mem_entering (hg : g.WellFormed) {v e : Nat} {edges : List Nat}
    (h : g.entering v = some edges) : e ∈ edges ↔ g.omega e = some v := by
  rw [hg.entering_eq h, mem_incident]
  exact ⟨And.right, fun he => ⟨edge_lt_of_omega he, he⟩⟩

/-- A vertex has an incidence exactly if the incidence starts there and the direction admits its
orientation. -/
theorem mem_incidences (hg : g.WellFormed) {v : Nat} {d : Direction} {e : Incidence} :
    e ∈ g.incidences v d ↔ g.this e = some v ∧ d.admits e.normal = true := by
  rcases e with ⟨edge, normal⟩
  unfold incidences
  split
  · rename_i hnone
    simp only [List.not_mem_nil, false_iff, not_and]
    intro hthis
    have hlt := hg.this_lt hthis
    simp only [vertexCount] at hlt
    exact absurd (Array.getElem?_eq_none_iff.1 hnone) (by omega)
  · rename_i data hdata
    have hl : g.leaving v = some data.leaving := by simp [Graph.leaving, hdata]
    have hn : g.entering v = some data.entering := by simp [Graph.entering, hdata]
    cases normal with
    | true =>
      by_cases hd : d.admits true = true
      · simp [hd, Graph.this, hg.mem_leaving hl]
      · simp [hd]
    | false =>
      by_cases hd : d.admits false = true
      · simp [hd, Graph.this, hg.mem_entering hn]
      · simp [hd]

end WellFormed

end Graph
end PathQuery

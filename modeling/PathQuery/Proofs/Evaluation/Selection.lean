import PathQuery.Proofs.Automaton.Restriction
import PathQuery.Proofs.Evaluation.Transparent
import PathQuery.Proofs.Graph.TypeIndex

/-!
# Vertices by type

The vertices of some types are selected by trying the types of all vertices one after the other.
The index of types would find them as well, name by name.

* `Graph.covers_iff_mem_findByType`: a name covers the type of a vertex exactly if the vertex is
  found by the name, also where the name is known but is that of no type;
* `Graph.selection`: what the index finds by the allowed names, less what it finds by the forbidden
  ones;
* `verticesOfTypes_eq_selection`: both are the same set;
* `TypeCollection.resolve_congr`: neither the order nor the number of the terms matters;
* `result_vertices`: so a node for the vertices of some types has that set as its value.
-/

namespace PathQuery

namespace Graph

variable {g : Graph} {v : Nat} {names : List String} {terms : List TypeTerm}

theorem mem_vertices {type : NameId} (hv : g.vertexType v = some type) : v ∈ g.vertices := by
  rw [vertices, IdSet.mem_range, vertexCount]
  rcases Option.map_eq_some_iff.1 hv with ⟨data, hdata, _⟩
  exact (Array.getElem?_eq_some_iff.1 hdata).1

theorem exists_vertexType (hv : v ∈ g.vertices) : ∃ type, g.vertexType v = some type := by
  rw [vertices, IdSet.mem_range, vertexCount] at hv
  exact ⟨_, Option.map_eq_some_iff.2 ⟨_, Array.getElem?_eq_getElem hv, rfl⟩⟩

/-- A search takes every name that the graph knows, but only a type is above the type of a vertex. -/
theorem covers_iff_mem_findByType (hg : g.Constructed) {type : NameId}
    (hv : g.vertexType v = some type) (name : String) :
    g.Covers name type ↔ v ∈ g.findByType name := by
  rw [mem_findByType hg]
  constructor
  · rintro ⟨sup, hname, hsub⟩
    exact ⟨type, sup, hv, (Option.filter_eq_some_iff.1 hname).1, hsub⟩
  · rintro ⟨_, sup, hv', hname, hsub⟩
    cases hv.symm.trans hv'
    have htype : g.schema.contains type = true := hg.grounded.contains_of_vertexType hv
    have hsup : g.schema.contains sup = true :=
      hg.grounded.closed.contains_of_isSubtypeOf htype hsub
    exact ⟨sup, Option.filter_eq_some_iff.2 ⟨hname, hsup⟩, hsub⟩

/-- What is found by one of the names. -/
def findByTypes (g : Graph) (names : List String) : IdSet :=
  names.foldl (fun found name => found.union (g.findByType name)) .empty

theorem mem_findByTypes : v ∈ g.findByTypes names ↔ ∃ name ∈ names, v ∈ g.findByType name := by
  have hfold (found : IdSet) :
      v ∈ names.foldl (fun found name => found.union (g.findByType name)) found ↔
        v ∈ found ∨ ∃ name ∈ names, v ∈ g.findByType name := by
    induction names generalizing found with
    | nil => simp
    | cons name names ih => simp [ih, or_assoc]
  rw [findByTypes, hfold]
  simp

/-- The names of the terms of one kind. -/
def namesOf (terms : List TypeTerm) (forbidden : Bool) : List String :=
  (terms.filter fun term => term.forbidden == forbidden).map (·.name)

/-- What is found by the allowed names, all vertices if there are none, and by no forbidden name. -/
def selection (g : Graph) (terms : List TypeTerm) : IdSet :=
  let allowed := if namesOf terms false = [] then g.vertices else g.findByTypes (namesOf terms false)
  allowed.filter fun v => !(g.findByTypes (namesOf terms true)).contains v

theorem exists_mem_namesOf {forbidden : Bool} {p : String → Prop} :
    (∃ name ∈ namesOf terms forbidden, p name) ↔
      ∃ term ∈ terms, term.forbidden = forbidden ∧ p term.name := by
  simp [namesOf, and_assoc]

theorem namesOf_eq_nil_iff {forbidden : Bool} :
    namesOf terms forbidden = [] ↔ ¬ ∃ term ∈ terms, term.forbidden = forbidden := by
  simp [namesOf]

theorem mem_selection_of_type (hg : g.Constructed) {type : NameId}
    (hv : g.vertexType v = some type) : v ∈ g.selection terms ↔ g.TypesAdmit terms type := by
  have hcovers (name : String) : v ∈ g.findByType name ↔ g.Covers name type :=
    (covers_iff_mem_findByType hg hv name).symm
  rw [selection, IdSet.mem_filter, and_comm]
  refine and_congr ?_ ?_
  · rw [Bool.not_eq_true', ← Bool.not_eq_true, IdSet.contains_eq_true, mem_findByTypes,
      exists_mem_namesOf]
    simp only [hcovers, not_exists, not_and]
  · by_cases hnone : namesOf terms false = []
    · rw [if_pos hnone]
      exact iff_of_true (mem_vertices hv) fun hsome => absurd hsome (namesOf_eq_nil_iff.1 hnone)
    · rw [if_neg hnone, mem_findByTypes, exists_mem_namesOf]
      rw [namesOf_eq_nil_iff, not_not] at hnone
      simp only [hcovers]
      exact ⟨fun hallowed _ => hallowed, fun hallowed => hallowed hnone⟩

theorem exists_type_of_mem_selection (hg : g.Constructed) (hv : v ∈ g.selection terms) :
    ∃ type, g.vertexType v = some type := by
  have hallowed := (IdSet.mem_filter.1 hv).1
  split at hallowed
  · exact exists_vertexType hallowed
  · rcases mem_findByTypes.1 hallowed with ⟨name, _, hfound⟩
    rcases (mem_findByType hg).1 hfound with ⟨type, _, hv, _⟩
    exact ⟨type, hv⟩

end Graph

/-- Only the terms count, not how often or in which order they are written. -/
theorem TypeCollection.resolve_congr {g : Graph} {terms terms' : List TypeTerm}
    (h : ∀ term, term ∈ terms ↔ term ∈ terms') : resolve g terms = resolve g terms' := by
  have hallowed : (resolve g terms).allowed = (resolve g terms').allowed := IdSet.ext fun id => by
    simp only [mem_allowed_resolve, h]
  have hforbidden : (resolve g terms).forbidden = (resolve g terms').forbidden :=
    IdSet.ext fun id => by simp only [mem_forbidden_resolve, h]
  have hall : terms.all (·.forbidden) = terms'.all (·.forbidden) := by
    rw [Bool.eq_iff_iff, List.all_eq_true, List.all_eq_true]
    simp only [h]
  calc
    resolve g terms = ⟨(resolve g terms).allowed, (resolve g terms).forbidden, _⟩ := rfl
    _ = ⟨(resolve g terms').allowed, (resolve g terms').forbidden, _⟩ := by
      rw [hallowed, hforbidden, hall]

namespace Evaluation

variable {scope : Scope} {id : NodeId} {terms : List TypeTerm} {w : Workspace}

theorem verticesOfTypes_eq_selection {g : Graph} (hg : g.Constructed) (terms : List TypeTerm) :
    verticesOfTypes g terms = g.selection terms := by
  refine IdSet.ext fun v => ?_
  rw [verticesOfTypes, IdSet.mem_filter, Option.any_eq_true]
  constructor
  · rintro ⟨_, type, hv, haccepts⟩
    exact (Graph.mem_selection_of_type hg hv).2 (TypeCollection.accepts_resolve.1 haccepts)
  · intro hselected
    rcases Graph.exists_type_of_mem_selection hg hselected with ⟨type, hv⟩
    have hadmits := (Graph.mem_selection_of_type hg hv).1 hselected
    exact ⟨Graph.mem_vertices hv, type, hv, TypeCollection.accepts_resolve.2 hadmits⟩

/-- The node finds by the types of the vertices what the index finds by the names of the types, and
lists of terms that differ in order and repetitions only are resolved to the same collection. -/
theorem result_vertices (hg : scope.graph.Constructed)
    (hget : scope.nodes.get id = .ok (.vertices terms))
    (hunknown : w.cache.memo id = .uninitialized) :
    (result scope id w).1 = .ok (.vertexSet (scope.graph.selection terms)) ∧
      ∀ terms' : List TypeTerm, (∀ term, term ∈ terms ↔ term ∈ terms') →
        TypeCollection.resolve scope.graph terms = TypeCollection.resolve scope.graph terms' := by
  refine ⟨?_, fun terms' h => TypeCollection.resolve_congr h⟩
  rw [result, resultWithin, step_apply hget, hunknown]
  simp only
  rw [compute_apply, ← verticesOfTypes_eq_selection hg]
  rfl

/-- Towns are places, and ports are towns.  Nothing that is interned as a name only has vertices. -/
def harbours : Graph :=
  let g := (Graph.empty.declareVertexType "Place" []).2
  let g := (g.declareVertexType "Town" ["Place"]).2
  let g := (g.declareVertexType "Port" ["Town"]).2
  let g := (g.intern "Lake").2
  let g := (g.addVertex "Port" []).2
  let g := (g.addVertex "Place" []).2
  (g.addVertex "Town" []).2

theorem harbours_constructed : harbours.Constructed :=
  .addVertex "Town" [] <| .addVertex "Place" [] <| .addVertex "Port" [] <| .intern "Lake" <|
    .declareVertexType "Port" ["Town"] <| .declareVertexType "Town" ["Place"] <|
    .declareVertexType "Place" [] .empty

/-- A forbidden type below an allowed one, a name of no type, and one that is not known. -/
def inland : List TypeTerm :=
  [⟨"Town", false⟩, ⟨"Lake", false⟩, ⟨"Port", true⟩, ⟨"Town", false⟩, ⟨"Sea", true⟩]

def survey : Scope where
  graph := harbours
  nodes := ⟨#[some (.vertices inland)]⟩

theorem result_vertices_inland :
    survey.graph.Constructed ∧ survey.nodes.get 0 = .ok (.vertices inland) ∧
      ({} : Workspace).cache.memo 0 = .uninitialized ∧
      (result survey 0 {}).1 = .ok (.vertexSet (harbours.selection inland)) ∧
      (harbours.selection inland).toList = [2] ∧
      TypeCollection.resolve harbours inland = TypeCollection.resolve harbours
        [⟨"Sea", true⟩, ⟨"Port", true⟩, ⟨"Lake", false⟩, ⟨"Town", false⟩] := by
  have hget : survey.nodes.get 0 = .ok (.vertices inland) := rfl
  have hunknown : ({} : Workspace).cache.memo 0 = .uninitialized := rfl
  obtain ⟨hvalue, hresolve⟩ := result_vertices harbours_constructed hget hunknown
  refine ⟨harbours_constructed, hget, hunknown, hvalue, by decide +kernel, hresolve _ ?_⟩
  intro term
  simp only [inland, List.mem_cons, List.not_mem_nil, or_false]
  tauto

end Evaluation
end PathQuery

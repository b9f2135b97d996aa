import PathQuery.Proofs.Automaton.Constraint
import PathQuery.Proofs.Evaluation.Regraph
import PathQuery.Proofs.Evaluation.Staleness
import PathQuery.Proofs.Evaluation.Reset

/-!
# What the version of a graph tells a query

While the version of a graph stays the same, names can be interned and types be declared.  Steps are
compiled to other constraints then.  With one exception these match the same edges, so that queries
are answered the same: in a step with roles a type that is forbidden has a say only if it is
declared.

* `SyntaxGraph.SameModes`: the exception is not met;
* `indistinct_of_grows`: a graph that has only grown cannot be told from what it was;
* `content_eq_of_version_eq`, `evaluate_eq_of_version_eq`: so equal versions mean equal answers;
* `answer_changed_by_declaration`: unless the exception is met.
-/

namespace PathQuery

/-- In every step with roles, types have a say over both graphs or over neither. -/
def SyntaxGraph.SameModes (nodes : SyntaxGraph) (g g' : Graph) : Prop :=
  ∀ (id : NodeId) (node : Node) (types : List TypeTerm) (roles : List String),
    nodes.get id = .ok node → node.restriction = some (types, roles) →
      EdgeConstraint.SameMode g g' types roles

namespace Evaluation

variable {g g' : Graph}

theorem attributeOf_grows (hgrows : g.Grows g') (hg : g.Grounded) (name : String) (v : Value) :
    attributeOf g' name v = attributeOf g name v := by
  cases v with
  | vertex v => simp only [attributeOf, hgrows.vertexAttr_eq hg]
  | edge e => simp only [attributeOf, hgrows.edgeAttr_eq hg]
  | _ => rfl

theorem verticesOfTypes_grows (hgrows : g.Grows g') (hg : g.Grounded) (terms : List TypeTerm) :
    verticesOfTypes g' terms = verticesOfTypes g terms := by
  have hvertices : g'.vertices = g.vertices := by
    rw [Graph.vertices, Graph.vertices, Graph.vertexCount, hgrows.sameData.vertexData]
    rfl
  -- A forbidden or allowed type that is new is above no type of a vertex.
  have haccepts : ∀ v type, g.vertexType v = some type →
      (TypeCollection.resolve g' terms).accepts g' type =
        (TypeCollection.resolve g terms).accepts g type := by
    intro v type hv
    have hcontains := hg.contains_of_vertexType hv
    rw [TypeCollection.accepts_grows hgrows hcontains, ← TypeCollection.accepts_known hg hcontains,
      TypeCollection.known_resolve hgrows hg]
  refine IdSet.ext fun v => ?_
  simp only [verticesOfTypes, hvertices, IdSet.mem_filter, hgrows.vertexType_eq]
  refine and_congr_right fun _ => ?_
  cases hv : g.vertexType v with
  | none => rfl
  | some type => rw [Option.any_some, Option.any_some, haccepts v type hv]

theorem indistinct_of_grows (scope : Scope) (hgrows : scope.graph.Grows g')
    (hg : scope.graph.Constructed) (hmodes : scope.nodes.SameModes scope.graph g')
    (hfunctions : scope.functions.Ignores (EdgeConstraint.reading scope.graph)) :
    Indistinct (EdgeConstraint.reading scope.graph) scope g' where
  sameData := hgrows.sameData
  attributeOf_eq := attributeOf_grows hgrows hg.grounded
  verticesOfTypes_eq := verticesOfTypes_grows hgrows hg.grounded
  matches_eq c {_ _} hthis := by
    rcases Graph.edgeType_of_this hthis with ⟨type, htype⟩
    exact c.matchesStructure_grows hgrows hg.grounded htype
  matches_apply c {_ _} hthis := by
    rcases Graph.edgeType_of_this hthis with ⟨type, htype⟩
    exact c.matchesStructure_known hg.grounded htype
  apply_resolve {_ _ types roles} hget hrestriction direction guard := by
    -- What the earlier graph knows of either constraint is what it resolves itself.
    have hlater := EdgeConstraint.known_resolve hgrows hg.grounded direction guard
      (hmodes _ _ _ _ hget hrestriction)
    have hearlier : (EdgeConstraint.resolve scope.graph direction types roles guard).known
        scope.graph = .resolve scope.graph direction types roles guard :=
      EdgeConstraint.known_resolve .refl hg.grounded direction guard fun _ => rfl
    exact hlater.trans hearlier.symm
  functions := hfunctions

/-- Nothing but an automaton tells what its steps were compiled to. -/
theorem outcome_withGraph {φ : Relabeling} {scope : Scope} (hscope : Indistinct φ scope g')
    {root : NodeId} {w : Workspace}
    (hroot : ∀ handle a, (result scope root w).1 ≠ .ok (.automaton handle a)) :
    (result (scope.withGraph g') root w).1 = (result scope root w).1 := by
  have houtcomes := (resultWithin_parallel hscope (scope.nodes.size + 1) root w w
    ⟨fun _ => rfl, rfl, rfl⟩).1
  rcases outcomes_of_map_eq houtcomes with ⟨v, v', hv, hv', heq⟩ | ⟨failure, hv, hv'⟩
  · rcases Value.eq_or_automaton φ heq with rfl | ⟨handle, a, a', rfl, rfl, _⟩
    · exact hv'.trans hv.symm
    · exact absurd hv (hroot handle a)
  · exact hv'.trans hv.symm

end Evaluation

namespace Query

variable {q : Query} {g g' : Graph} {shared : Option SharedEnvironment} {supply : Supply}

theorem evaluate_outcome (q : Query) (g : Graph) (shared : Option SharedEnvironment)
    (supply : Supply) :
    (q.evaluate g shared supply).1 =
      (Evaluation.result (q.scope g shared) q.root ⟨q.cache, q.bindings, supply⟩).1 := by
  rw [evaluate_apply]
  rcases Evaluation.result (q.scope g shared) q.root ⟨q.cache, q.bindings, supply⟩ with
    ⟨failure | v, w⟩
  · rfl
  · rfl

/-- Where a graph has only grown, a query that asks for no automaton is answered the same. -/
theorem evaluate_of_grows (hg : g.Constructed) (hgrows : g.Grows g')
    (hmodes : q.nodes.SameModes g g')
    (hfunctions : q.functions.Ignores (EdgeConstraint.reading g))
    (hroot : ∀ handle a, (q.renewed.evaluate g shared supply).1 ≠ .ok (.automaton handle a)) :
    (q.renewed.evaluate g' shared supply).1 = (q.renewed.evaluate g shared supply).1 := by
  have hscope : (q.renewed.scope g shared).withGraph g' = q.renewed.scope g' shared := rfl
  have hindistinct :=
    Evaluation.indistinct_of_grows (q.renewed.scope g shared) hgrows hg hmodes hfunctions
  simp only [evaluate_outcome, ← hscope] at hroot ⊢
  exact Evaluation.outcome_withGraph hindistinct hroot

/-- Equal versions at two moments of a graph's history mean equal contents of the answers, whatever
numbers were given out in between. -/
theorem content_eq_of_version_eq {base : Nat} {supply' : Supply} (hg : g.Constructed)
    (hlater : g.Later g') (hversion : g'.version = g.version) (hmodes : q.nodes.SameModes g g')
    (hfunctions : q.functions.Ignores (EdgeConstraint.reading g)) (hsteady : q.Steady base shared)
    (hsupply : base ≤ supply.handles) (hsupply' : base ≤ supply'.handles)
    (hroot : ∀ handle a, (q.renewed.evaluate g shared supply).1 ≠ .ok (.automaton handle a)) :
    (q.renewed.evaluate g' shared supply').1.map Value.content =
      (q.renewed.evaluate g shared supply).1.map Value.content := by
  have hgrows := hlater.grows hg hversion
  rw [hsteady.content_eq_renewed g' hsupply' hsupply,
    evaluate_of_grows hg hgrows hmodes hfunctions hroot]

/-- Equal versions at two moments of a graph's history mean equal answers, when the same numbers are
given out. -/
theorem evaluate_eq_of_version_eq (hg : g.Constructed) (hlater : g.Later g')
    (hversion : g'.version = g.version) (hmodes : q.nodes.SameModes g g')
    (hfunctions : q.functions.Ignores (EdgeConstraint.reading g))
    (hroot : ∀ handle a, (q.renewed.evaluate g shared supply).1 ≠ .ok (.automaton handle a)) :
    (q.renewed.evaluate g' shared supply).1 = (q.renewed.evaluate g shared supply).1 :=
  evaluate_of_grows hg (hlater.grows hg hversion) hmodes hfunctions hroot

/-! ## A type that is declared later -/

/-- Where the roads lead at the end of which one can stop. -/
def stopping (types : List TypeTerm) : Query where
  nodes := ⟨#[some (.simplePath .outgoing types ["stop"] none), some (.literal (.vertex 0)),
    some (.forwardVertexSet 1 0)]⟩
  root := 2

/-- A ferry stops where it arrives.  There is none yet. -/
def ferries : Graph :=
  (road.declareEdgeType "ferry" [] none (some "stop")).2

theorem constructed_road : road.Constructed :=
  .addEdge "road" 0 1 [] (.addVertex "Town" [] (.addVertex "Town" [] .empty))

theorem later_ferries : road.Later ferries :=
  .declareEdgeType "ferry" [] none (some "stop") .refl

theorem sameModes_stopping :
    (stopping [⟨"road", false⟩, ⟨"ferry", true⟩]).nodes.SameModes road ferries := by
  intro n node types roles hget hrestriction
  match n, hget with
  | 0, rfl =>
    cases hrestriction
    exact .of_mem (.declareEdgeType .refl "ferry" [] none (some "stop")) constructed_road.grounded
      List.mem_cons_self (.inl rfl) _
  | 1, rfl => cases hrestriction
  | 2, rfl => cases hrestriction
  | _ + 3, hget => cases hget

theorem evaluate_eq_of_version_eq_ferries :
    road.Constructed ∧ road.Later ferries ∧ ferries.version = road.version ∧
      ((stopping [⟨"road", false⟩, ⟨"ferry", true⟩]).renewed.evaluate ferries none {}).1 =
        ((stopping [⟨"road", false⟩, ⟨"ferry", true⟩]).renewed.evaluate road none {}).1 := by
  have hfound : found ((stopping [⟨"road", false⟩, ⟨"ferry", true⟩]).renewed.evaluate road none
      {}).1 = some [1] := by decide +kernel
  have hversion : ferries.version = road.version := by decide +kernel
  refine ⟨constructed_road, later_ferries, hversion,
    evaluate_eq_of_version_eq constructed_road later_ferries hversion sameModes_stopping
      (FunctionLibrary.ignores_builtin _) ?_⟩
  intro handle a hautomaton
  rw [hautomaton] at hfound
  cases hfound

/-- Everything but ferries is asked for, or a stop.  As long as there is no type of ferries only the
stop counts, and the road has none; when there is one, the road is no ferry. -/
theorem answer_changed_by_declaration :
    road.Constructed ∧ road.Later ferries ∧ ferries.version = road.version ∧
      found ((stopping [⟨"ferry", true⟩]).renewed.evaluate road none {}).1 = some [] ∧
      found ((stopping [⟨"ferry", true⟩]).renewed.evaluate ferries none {}).1 = some [1] :=
  ⟨constructed_road, later_ferries, by decide +kernel, by decide +kernel, by decide +kernel⟩

end Query

end PathQuery

import PathQuery.Proofs.Evaluation.Reset
import PathQuery.Proofs.Evaluation.Conducted

/-!
# Nodes that are reported as cyclic are cyclic

A node is reported when it is asked for while it is being computed.  An evaluation asks for the
nodes to which automata refer, too; so this needs that no automaton leads away from the nodes below
the one that has it.

* `SyntaxGraph.Leads`: the second node is asked for, directly or not, when the first one is;
* `Evaluation.Detached`: what comes from outside refers to no nodes;
* `Cache.Descends`: what is known of a node refers to nodes below it;
* `cyclic_of_result`: then a node that is reported leads to itself, and what is known in the end is
  of this kind again;
* `cyclic_of_straying`: else nodes are reported in syntax graphs without cycles.
-/

namespace PathQuery

namespace SyntaxGraph

def Leads (nodes : SyntaxGraph) : NodeId → NodeId → Prop :=
  Relation.TransGen fun n c => c ∈ nodes.childrenOf n

variable {nodes : SyntaxGraph} {n c p : NodeId}

theorem Leads.below (h : nodes.Leads n c) : nodes.Below n c :=
  Relation.TransGen.to_reflTransGen h

theorem Leads.trans_below (h : nodes.Leads n c) (hbelow : nodes.Below c p) : nodes.Leads n p :=
  Relation.TransGen.trans_left h hbelow

/-- Where children come before their parents, nothing leads to itself. -/
theorem lt_of_leads (hchildren : ∀ n c, c ∈ nodes.childrenOf n → c < n) (h : nodes.Leads n c) :
    c < n := by
  induction h with
  | single hc => exact hchildren _ _ hc
  | tail _ hc ih => exact (hchildren _ _ hc).trans ih

end SyntaxGraph

/-! ## What values refer to -/

/-- What is known of a node below the root refers to nodes below that node. -/
def Cache.Descends (nodes : SyntaxGraph) (root : NodeId) (cache : Cache) : Prop :=
  ∀ n v, nodes.Below root n → cache.memo n = .done v → v.Within (nodes.Below n)

theorem Cache.idle_empty (n : NodeId) : ({} : Cache).memo n ≠ .inProgress := by
  rw [memo_empty]
  exact nofun

theorem Cache.descends_empty (nodes : SyntaxGraph) (root : NodeId) :
    Descends nodes root {} := by
  intro n v _ hdone
  rw [memo_empty] at hdone
  cases hdone

namespace Evaluation

open Eval

/-- Literals and the results of other queries refer to no nodes, as all values but automata do.
Functions hand out nothing that refers to other nodes than what they are given, and take no node for
cyclic. -/
structure Detached (scope : Scope) : Prop where
  literal {n : NodeId} {v : Value} : scope.nodes.get n = .ok (.literal v) →
    v.Within fun _ => False
  shared {x : String} {v : Value} : scope.shared.bind (·.get x) = some v →
    v.Within fun _ => False
  call {region : NodeId → Prop} {k : Nat} {name : String} {args : List Value} {v : Value} :
    (∀ arg ∈ args, arg.Within region) → scope.functions.call k name args = .ok v →
      v.Within region
  call_ne {k : Nat} {name : String} {args : List Value} {n : NodeId} :
    scope.functions.call k name args ≠ .error (.error (.cyclicEvaluation n))

variable {scope : Scope} {root : NodeId} {w : Workspace}

/-- Below the root everything leads down, and only nodes that lead to themselves are cyclic. -/
def Detached.conduct (hdetached : Detached scope) (root : NodeId) : Conduct scope where
  outside _ := False
  reaches n p := scope.nodes.Below root n → scope.nodes.Below n p
  asks n c := scope.nodes.Below root n → scope.nodes.Leads n c
  sound := False
  admits n failure := scope.nodes.Below root n → ∀ m, failure = .error (.cyclicEvaluation m) →
    scope.nodes.Below n m ∧ scope.nodes.Leads m m
  reaches_of_outside := False.elim
  reaches_of_asks hc hn := (hc hn).below
  asks_child _ hc _ := .single hc
  asks_of_reaches hc hp hn := (hc hn).trans_below (hp (hn.trans (hc hn).below))
  admits_of_asks hc hadmits hn m hm := by
    rcases hadmits (hn.trans (hc hn).below) m hm with ⟨hbelow, hself⟩
    exact ⟨(hc hn).below.trans hbelow, hself⟩
  admits_cyclic hself hn m hm := by
    cases hm
    exact ⟨.refl, hself hn⟩
  admits_error hnot _ m hm := by
    cases hm
    exact absurd rfl (hnot m)
  admits_panic _ _ m hm := by cases hm
  literal _ hget := ⟨(hdetached.literal hget).mono fun _ => False.elim, fun _ => False.elim⟩
  shared _ _ hx := ⟨hdetached.shared hx, fun _ => False.elim⟩
  call hargs hcall := ⟨hdetached.call (fun arg harg => (hargs arg harg).within) hcall,
    fun _ => False.elim⟩
  admits_call hcall _ m hm := by
    rw [hm] at hcall
    exact absurd hcall hdetached.call_ne

/-- Before the root is asked for, nothing is being computed. -/
theorem Detached.held (hdetached : Detached scope)
    (hbindings : ∀ frame ∈ w.bindings.frames, frame.2.Within fun _ => False)
    (hidle : ∀ n, w.cache.memo n ≠ .inProgress) (hcache : w.cache.Descends scope.nodes root) :
    w.Held (hdetached.conduct root) (fun _ => False) w.bindings where
  bindings_eq := rfl
  bound hframe := ⟨hbindings _ hframe, fun _ => False.elim⟩
  busy_iff := iff_of_false (hidle _) id
  known {n v} hdone := by
    refine ⟨?_, fun _ => False.elim⟩
    by_cases hn : scope.nodes.Below root n
    · exact (hcache n v hn hdone).mono fun _ hp _ => hp
    -- Of other nodes nothing is asked.
    · exact v.within_univ.mono fun _ _ hbelow => absurd hbelow hn

theorem Detached.descends (hdetached : Detached scope) {β : Bindings}
    (hw : w.Held (hdetached.conduct root) (fun _ => False) β) :
    (∀ n, w.cache.memo n ≠ .inProgress) ∧ w.cache.Descends scope.nodes root :=
  ⟨fun _ => hw.busy_iff.1, fun _ _ hn hdone => (hw.known hdone).within.mono fun _ hp => hp hn⟩

/-- The state in which an evaluation of the root ends, if it is not abandoned. -/
theorem Detached.result_behaves (hdetached : Detached scope)
    (hbindings : ∀ frame ∈ w.bindings.frames, frame.2.Within fun _ => False)
    (hidle : ∀ n, w.cache.memo n ≠ .inProgress) (hcache : w.cache.Descends scope.nodes root) :
    (result scope root).Ensures w
      (fun _ w₁ => w₁.Held (hdetached.conduct root) (fun _ => False) w.bindings)
      fun failure w₁ =>
        w₁.Broken (hdetached.conduct root) (fun _ => False) w.bindings root failure := by
  have hexhausted : ∀ n, (hdetached.conduct root).admits n .exhausted := by
    intro n _ m hm
    cases hm
  have hbehaves : (result scope root).Behaves (hdetached.conduct root) (fun _ => False) root _ :=
    resultWithin_behaves hexhausted _ trivial fun _ => False.elim
  have hresult := hbehaves _ w (hdetached.held hbindings hidle hcache)
  exact hresult.mono (fun _ _ hv => hv.1) fun _ _ hfailure => hfailure

theorem Detached.leaves_result (hdetached : Detached scope)
    (hbindings : ∀ frame ∈ w.bindings.frames, frame.2.Within fun _ => False)
    (hidle : ∀ n, w.cache.memo n ≠ .inProgress) (hcache : w.cache.Descends scope.nodes root)
    (horderly : Orderly (result scope root w).1) :
    (∀ n, (result scope root w).2.cache.memo n ≠ .inProgress) ∧
      (result scope root w).2.cache.Descends scope.nodes root := by
  have hresult := hdetached.result_behaves hbindings hidle hcache
  unfold Ensures at hresult
  rcases hx : result scope root w with ⟨failure | v, w₁⟩
  · rw [hx] at hresult horderly
    rcases horderly failure rfl with ⟨e, rfl⟩
    exact hdetached.descends (hresult.held rfl)
  · rw [hx] at hresult
    exact hdetached.descends hresult

/-- A node that is reported is below the root and leads to itself; so in a syntax graph without
cycles none is, however its nodes are shared.  What is known in the end can be built upon again. -/
theorem cyclic_of_result (hdetached : Detached scope)
    (hbindings : ∀ frame ∈ w.bindings.frames, frame.2.Within fun _ => False)
    (hidle : ∀ n, w.cache.memo n ≠ .inProgress) (hcache : w.cache.Descends scope.nodes root) :
    (∀ n, (result scope root w).1 = .error (.error (.cyclicEvaluation n)) →
        scope.nodes.Below root n ∧ scope.nodes.Leads n n) ∧
      ((∀ n, ¬ scope.nodes.Leads n n) →
        ∀ n, (result scope root w).1 ≠ .error (.error (.cyclicEvaluation n))) ∧
      (Orderly (result scope root w).1 → (∀ n, (result scope root w).2.cache.memo n ≠ .inProgress) ∧
        (result scope root w).2.cache.Descends scope.nodes root) := by
  have hresult := hdetached.result_behaves hbindings hidle hcache
  have hcyclic : ∀ n, (result scope root w).1 = .error (.error (.cyclicEvaluation n)) →
      scope.nodes.Below root n ∧ scope.nodes.Leads n n := by
    intro n hn
    unfold Ensures at hresult
    rw [← Prod.mk.eta (p := result scope root w), hn] at hresult
    exact hresult.admitted .refl n rfl
  exact ⟨hcyclic, fun hacyclic n hn => hacyclic n (hcyclic n hn).2,
    hdetached.leaves_result hbindings hidle hcache⟩

/-! ## The built-in functions -/

/-- Nothing but automata refers to nodes, and the built-in functions make none. -/
theorem Detached.of_builtin (hfunctions : scope.functions = .builtin)
    (hliteral : ∀ n v, scope.nodes.get n = .ok (.literal v) → v.Within fun _ => False)
    (hshared : ∀ x v, scope.shared.bind (·.get x) = some v → v.Within fun _ => False) :
    Detached scope where
  literal hget := hliteral _ _ hget
  shared hx := hshared _ _ hx
  call _ hcall := by
    rw [hfunctions] at hcall
    exact .simple (FunctionLibrary.isSimple_of_builtin hcall)
  call_ne {k name args n} hcall := by
    rw [hfunctions] at hcall
    have hanswer := Builtin.answer_call name args
    simp only [FunctionLibrary.builtin] at hcall
    split at hcall
    · cases hcall
    · rename_i hcyclic
      cases hcall
      rw [hcyclic] at hanswer
      cases hanswer

/-- Trips from vertex 0, on the roads of which the trips themselves are asked for. -/
def circling : Scope where
  graph := Query.road
  nodes := ⟨#[some (.forwardVertexSet 1 2), some (.literal (.vertex 0)),
    some (.simplePath .outgoing [⟨"road", false⟩] [] (some ⟨0, none⟩))]⟩
  shared := none
  functions := .builtin
  limits := {}

theorem detached_circling : Detached circling := by
  refine .of_builtin rfl ?_ nofun
  intro n v hget
  have hliteral : v = .vertex 0 := by simpa [circling] using SyntaxGraph.mem_of_get hget
  exact hliteral ▸ .simple (.vertex 0)

theorem cyclic_of_result_circling :
    (result circling 0 {}).1 = .error (.error (.cyclicEvaluation 0)) ∧
      circling.nodes.Below 0 0 ∧ circling.nodes.Leads 0 0 := by
  have hcyclic : (result circling 0 {}).1 = .error (.error (.cyclicEvaluation 0)) := by
    decide +kernel
  exact ⟨hcyclic, (cyclic_of_result detached_circling
    (fun _ hframe => absurd hframe List.not_mem_nil) Cache.idle_empty
    (Cache.descends_empty _ _)).1 0 hcyclic⟩

/-! ## Automata that lead astray -/

/-- Trips from vertex 0. -/
def trips (path : Node) : Scope where
  graph := Query.road
  nodes := ⟨#[some (.literal (.vertex 0)), some path, some (.forwardVertexSet 0 1)]⟩
  shared := none
  functions := .builtin
  limits := {}

def roads (guard : Option Guard) : Node :=
  .simplePath .outgoing [⟨"road", false⟩] [] guard

/-- The trips are not defined yet, and yet the roads are guarded by them. -/
def undefinedTrips : Scope where
  graph := Query.road
  nodes := ⟨#[some (.literal (.vertex 0)), some (roads (some ⟨2, none⟩)), none]⟩
  shared := none
  functions := .builtin
  limits := {}

/-- Every function hands out these roads. -/
def roadmap : FunctionLibrary where
  call _ _ _ :=
    let guarded := EdgeConstraint.resolve Query.road .outgoing [⟨"road", false⟩] [] (some ⟨2, none⟩)
    .ok (.automaton 0 (Automaton.single (.step guarded) 0).1)

theorem not_leads_trips {node : Node} (hchildren : node.children = []) (n : NodeId) :
    ¬ (trips node).nodes.Leads n n := by
  intro h
  refine Nat.lt_irrefl n (SyntaxGraph.lt_of_leads ?_ h)
  intro n c hc
  match n, hc with
  | 0, hc => cases hc
  | 1, hc =>
    change c ∈ node.children at hc
    rw [hchildren] at hc
    cases hc
  | 2, hc =>
    rcases List.mem_pair.1 (show c ∈ [0, 1] from hc) with rfl | rfl <;> decide
  | _ + 3, hc => cases hc

theorem detached_undefinedTrips : Detached undefinedTrips := by
  refine .of_builtin rfl ?_ nofun
  intro n v hget
  have hliteral : v = .vertex 0 := by
    simpa [undefinedTrips, roads] using SyntaxGraph.mem_of_get hget
  exact hliteral ▸ .simple (.vertex 0)

/-- The roads are known from before, when they were guarded, or a function hands them out.  Then the
trips are taken for cyclic, although nothing leads to itself. -/
theorem cyclic_of_straying :
    (∀ n, ¬ (trips (roads none)).nodes.Leads n n) ∧
      (∀ n, (result undefinedTrips 1 {}).2.cache.memo n ≠ .inProgress) ∧
      (result undefinedTrips 1 {}).2.bindings.frames = [] ∧
      (result (trips (roads none)) 2 (result undefinedTrips 1 {}).2).1 =
        .error (.error (.cyclicEvaluation 2)) ∧
      (∀ n, ¬ (trips (.call "roads" [])).nodes.Leads n n) ∧
      (result { trips (.call "roads" []) with functions := roadmap } 2 {}).1 =
        .error (.error (.cyclicEvaluation 2)) := by
  have horderly : Orderly (result undefinedTrips 1 {}).1 := by
    have hok : (result undefinedTrips 1 {}).1.isOk = true := by decide +kernel
    intro failure hfailure
    rw [hfailure] at hok
    cases hok
  have hleaves := detached_undefinedTrips.leaves_result
    (fun _ hframe => absurd hframe List.not_mem_nil) Cache.idle_empty (Cache.descends_empty _ _)
    horderly
  exact ⟨not_leads_trips rfl, hleaves.1, by decide +kernel, by decide +kernel,
    not_leads_trips rfl, by decide +kernel⟩

end Evaluation
end PathQuery

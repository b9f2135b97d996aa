import PathQuery.Proofs.Evaluation.Transparent

/-!
# Requests to one evaluator

* `Value.anonymous`: what is left of a value when it may be made anew;
* `Served`: the workspaces in which an evaluator is between requests;
* `cache_transparent`: what was requested before makes no difference, as long as conditions keep to
  themselves;
* `stale_condition`: a part of a condition that is requested by itself does make one.
-/

namespace PathQuery

/-- The value without its handle and its serials. -/
def Value.anonymous : Value → Value
  | automaton _ a => automaton 0 a.unnumbered
  | pathSystem _ ps => pathSystem 0 ps
  | v => v

theorem Value.Alike.anonymous_eq {P : Symbol → Prop} {base : Nat} {o : Owners} {c : NodeId}
    {v v' : Value} (h : v.Alike P base o c v') : v.anonymous = v'.anonymous := by
  cases h with
  | settled _ => rfl
  | automaton _ _ htwin => simp only [Value.anonymous, htwin.unnumbered_eq]
  | pathSystem _ _ => rfl

namespace Evaluation

/-- Between requests for nodes that can be asked for anywhere.  A request can end with an error; after
a panic or without depth there is no next one. -/
inductive Served (scope : Scope) (w₀ : Workspace) : Workspace → Prop where
  | start : Served scope w₀ w₀
  | value {w w₁ : Workspace} {id : NodeId} {v : Value} : Served scope w₀ w →
    scope.nodes.Public id → result scope id w = (.ok v, w₁) → Served scope w₀ w₁
  | error {w w₁ : Workspace} {id : NodeId} {e : EvalError} : Served scope w₀ w →
    scope.nodes.Public id → result scope id w = (.error (.error e), w₁) → Served scope w₀ w₁

/-- The invariant between requests: nothing is being computed, and all of the cache counts. -/
def AtRest (scope : Scope) (base : Nat) (hconfined : scope.nodes.Confined) (β : Bindings)
    (o : Owners) (w : Workspace) : Prop :=
  Coherent scope base (.whole hconfined) [] β (fun _ => .uninitialized) o w

section Requests

variable {scope : Scope} {base : Nat} {β : Bindings} {o : Owners} {w : Workspace} {id : NodeId}
  (hgrounded : Grounded scope base) (hconfined : scope.nodes.Confined)

theorem atRest_of_empty (hcache : w.cache = {}) (hbase : base ≤ w.supply.handles) :
    AtRest scope base hconfined w.bindings (fun _ => none) w := by
  have hmemo : ∀ n, w.cache.memo n = .uninitialized := by
    intro n
    rw [hcache, Cache.memo_empty]
  refine ⟨rfl, hbase, fun _ => rfl, ?_, ?_, fun hn => absurd trivial hn⟩
  · intro n
    rw [hmemo]
    exact ⟨fun heq => (by cases heq), fun hmem => absurd hmem List.not_mem_nil⟩
  · intro n v _ hdone
    rw [hmemo] at hdone
    cases hdone

include hgrounded

/-- A request keeps the invariant, and its outcome is that of an evaluation without a cache. -/
theorem result_of_atRest (hsettled : SettledBindings scope base β)
    (hw : AtRest scope base hconfined β o w) (hid : scope.nodes.Public id) :
    (result scope id w).1.map Value.anonymous =
        (uncached scope base (scope.nodes.size + 1) (some []) id β).map Value.anonymous ∧
      ∀ r w₁, result scope id w = (r, w₁) →
        (∀ failure, r = .error failure → ∃ e, failure = .error e) →
        ∃ o₁, AtRest scope base hconfined β o₁ w₁ := by
  have hsituation : Situation scope base (.whole hconfined) [] β .unlimited
      (scope.nodes.size + 1) id :=
    ⟨hid, hsettled, .nil, by simp, fun hn => absurd hn List.not_mem_nil⟩
  have hfollows := resultWithin_follows hgrounded hconfined hsituation _ o o w
    { bindings := β } (.refl o) hw rfl
  simp only [answering, expected] at hfollows
  unfold result
  cases hρ : uncached scope base (scope.nodes.size + 1) (some []) id β with
  | error failure =>
    rw [hρ] at hfollows
    rcases hfollows with hspared | ⟨w₁, hx, hkept⟩
    · exact (hspared : False).elim
    · rw [hx]
      refine ⟨rfl, ?_⟩
      intro r w₂ heq hpanic
      cases heq
      rcases hpanic failure rfl with ⟨e, rfl⟩
      rcases hkept e rfl with ⟨o₁, _, hw₁⟩
      exact ⟨o₁, hw₁⟩
  | ok v' =>
    rw [hρ] at hfollows
    rcases hfollows with ⟨v, w₁, o₁, hx, _, hw₁, _, halike⟩
    rw [hx]
    refine ⟨congrArg Except.ok halike.anonymous_eq, ?_⟩
    intro r w₂ heq _
    cases heq
    exact ⟨o₁, hw₁⟩

theorem atRest_of_served {w₀ : Workspace} (hcache : w₀.cache = {})
    (hbase : base ≤ w₀.supply.handles) (hsettled : SettledBindings scope base w₀.bindings)
    (hserved : Served scope w₀ w) :
    ∃ o, AtRest scope base hconfined w₀.bindings o w := by
  induction hserved with
  | start => exact ⟨_, atRest_of_empty hconfined hcache hbase⟩
  | value _ hid hresult ih =>
    rcases ih with ⟨o, hw⟩
    refine (result_of_atRest hgrounded hconfined hsettled hw hid).2 _ _ hresult ?_
    intro failure heq
    cases heq
  | error _ hid hresult ih =>
    rcases ih with ⟨o, hw⟩
    refine (result_of_atRest hgrounded hconfined hsettled hw hid).2 _ _ hresult ?_
    intro failure heq
    cases heq
    exact ⟨_, rfl⟩

end Requests

/-- After any requests a node is worth what it is worth without a cache, and what it is worth with
an empty one. -/
theorem cache_transparent {scope : Scope} {w₀ w : Workspace} {id : NodeId}
    (hgrounded : Grounded scope w₀.supply.handles) (hconfined : scope.nodes.Confined)
    (hsettled : SettledBindings scope w₀.supply.handles w₀.bindings) (hcache : w₀.cache = {})
    (hserved : Served scope w₀ w) (hid : scope.nodes.Public id) :
    (result scope id w).1.map Value.anonymous =
        (uncached scope w₀.supply.handles (scope.nodes.size + 1) (some []) id w₀.bindings).map
          Value.anonymous ∧
      ∀ supply : Supply, w₀.supply.handles ≤ supply.handles →
        (result scope id w).1.map Value.anonymous =
          (result scope id { bindings := w₀.bindings, supply }).1.map Value.anonymous := by
  rcases atRest_of_served hgrounded hconfined hcache (Nat.le_refl _)
    hsettled hserved with ⟨o, hw⟩
  have huncached := (result_of_atRest hgrounded hconfined hsettled hw hid).1
  refine ⟨huncached, ?_⟩
  intro supply hsupply
  have hempty := atRest_of_empty hconfined
    (w := { bindings := w₀.bindings, supply }) rfl hsupply
  exact huncached.trans (result_of_atRest hgrounded hconfined hsettled hempty hid).1.symm

/-! ## A condition on the edge -/

def openRoad : Graph :=
  let g := Graph.empty
  let g := (g.addVertex "Town" []).2
  let g := (g.addVertex "Town" []).2
  (g.addEdge "road" 0 1 [("open", .bool true)]).2

/-- The roads that are open, and where they lead. -/
def openRoads : SyntaxGraph where
  nodes := #[some (.var "e"), some (.attr 0 "open"),
    some (.simplePath .outgoing [⟨"road", false⟩] [] (some ⟨1, some "e"⟩)),
    some (.literal (.vertex 0)), some (.forwardVertexSet 3 2)]

def openRoadScope : Scope where
  graph := openRoad
  nodes := openRoads

theorem openRoads_private {holder predicate n : NodeId} {x : String}
    (h : openRoads.Private holder predicate x n) :
    holder = 2 ∧ predicate = 1 ∧ (n = 1 ∨ n = 0) := by
  have hholder : holder = 2 ∧ predicate = 1 := by
    rcases h.binds with ⟨node, hget, hguard⟩
    match holder, hget with
    | 0, rfl => cases hguard
    | 1, rfl => cases hguard
    | 2, rfl =>
      cases hguard
      exact ⟨rfl, rfl⟩
    | 3, rfl => cases hguard
    | 4, rfl => cases hguard
  rcases hholder with ⟨rfl, rfl⟩
  have hbelow : Cache.below openRoads 1 = [0, 1] := by decide +kernel
  have hn := Cache.mem_below_iff.2 h.below
  rw [hbelow] at hn
  simpa [or_comm] using hn

theorem openRoads_confined : openRoads.Confined where
  apart {holder predicate n m x} h hm := by
    rcases openRoads_private h with ⟨rfl, rfl, hn⟩
    rcases hm with ⟨node, hget, hc⟩
    match m, hget with
    | 0, rfl => cases hc
    | 1, rfl => exact .refl
    | 2, rfl => cases hc
    | 3, rfl => cases hc
    | 4, rfl =>
      rcases hn with rfl | rfl
      · exact absurd hc (by decide)
      · exact absurd hc (by decide)
  forward {holder predicate n x} h := by
    rcases openRoads_private h with ⟨rfl, rfl, hn⟩
    intro hbelow
    have hmem := Cache.mem_below_iff.2 hbelow
    have hone : Cache.below openRoads 1 = [0, 1] := by decide +kernel
    have hzero : Cache.below openRoads 0 = [0] := by decide +kernel
    rcases hn with rfl | rfl
    · rw [hone] at hmem
      exact absurd hmem (by decide)
    · rw [hzero] at hmem
      exact absurd hmem (by decide)

theorem openRoads_public {n : NodeId} (hn : 2 ≤ n) : openRoads.Public n := by
  intro holder predicate x h
  rcases openRoads_private h with ⟨_, _, rfl | rfl⟩
  · exact absurd hn (by decide)
  · exact absurd hn (by decide)

theorem openRoadScope_grounded (base : Nat) : Grounded openRoadScope base where
  literal {id v} hget := by
    have hliteral : v = .vertex 0 := by
      simpa [openRoadScope, openRoads] using SyntaxGraph.mem_of_get hget
    exact hliteral ▸ (Value.IsSimple.vertex 0).settled base
  functions := rfl

/-- After it was asked where the roads lead, the path itself is asked for. -/
theorem cache_transparent_openRoad :
    Grounded openRoadScope 0 ∧ openRoads.Confined ∧
      ∃ w, Served openRoadScope {} w ∧ openRoads.Public 2 ∧
        (result openRoadScope 2 w).1.map Value.anonymous =
            (uncached openRoadScope 0 6 (some []) 2 {}).map Value.anonymous ∧
          ∀ supply : Supply, 0 ≤ supply.handles →
            (result openRoadScope 2 w).1.map Value.anonymous =
              (result openRoadScope 2 { supply }).1.map Value.anonymous := by
  have hserved : Served openRoadScope {} (result openRoadScope 4 {}).2 := by
    have hfound : (result openRoadScope 4 {}).1 = .ok (.vertexSet (.singleton 1)) := by
      decide +kernel
    exact .value .start (openRoads_public (by decide)) (Prod.ext hfound rfl)
  have hsettled : SettledBindings openRoadScope 0 {} := by
    intro x v hv
    cases hv
  exact ⟨openRoadScope_grounded 0, openRoads_confined, _, hserved, openRoads_public (by decide),
    cache_transparent (openRoadScope_grounded 0) openRoads_confined hsettled rfl hserved
      (openRoads_public (by decide))⟩

/-- The variable is not bound between requests, but the edge that was tried last is found under
it. -/
theorem stale_condition :
    (result openRoadScope 4 {}).1 = .ok (.vertexSet (.singleton 1)) ∧
      (result openRoadScope 0 (result openRoadScope 4 {}).2).1 = .ok (.edge ⟨0, true⟩) ∧
      (result openRoadScope 0 {}).1 = .error (.error (.unresolvedVariable "e")) :=
  ⟨by decide +kernel, by decide +kernel, by decide +kernel⟩

/-- The condition on lanes asks whether no road is open, and the condition on roads asks for open
lanes. -/
def openLanes : SyntaxGraph where
  nodes := #[some (.var "e"), some (.attr 0 "open"), some (.not 1), some (.not 2),
    some (.literal (.vertex 0)),
    some (.simplePath .outgoing [⟨"road", false⟩] [] (some ⟨9, some "e"⟩)),
    some (.forwardVertexSet 4 5), some (.call "isEmpty" [6]), some (.and [1, 7, 3]),
    some (.and [1, 11]),
    some (.simplePath .outgoing [⟨"lane", false⟩] [] (some ⟨8, some "e"⟩)),
    some (.pathExistence 4 10 4), some (.forwardVertexSet 4 10)]

def closedRoad : Graph :=
  let g := Graph.empty
  let g := (g.addVertex "Town" []).2
  let g := (g.addVertex "Town" []).2
  let g := (g.addEdge "road" 0 1 [("open", .bool false)]).2
  (g.addEdge "lane" 0 1 [("open", .bool true)]).2

-- Conditions that lead back to their guards are not confined: between the two times that the lane
-- is asked for, the road is bound, and what is found the second time is the attribute of the road.
example :
    (result { graph := closedRoad, nodes := openLanes } 12 {}).1 = .ok (.vertexSet .empty) ∧
      uncached { graph := closedRoad, nodes := openLanes } 0 14 (some []) 12 {} =
        .ok (.vertexSet (.singleton 1)) :=
  ⟨by decide +kernel, by decide +kernel⟩

end Evaluation
end PathQuery

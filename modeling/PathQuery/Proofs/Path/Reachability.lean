import PathQuery.Proofs.Evaluation.Ensures
import PathQuery.Proofs.Path.Acceptance
import PathQuery.Proofs.Path.Search
import PathQuery.Proofs.Path.Simulation

/-!
# A traversal computes reachability in the product

The tests of a traversal can read and change the workspace.  They are noted as they are made, and
if all of them came out without an error and as a fixed verdict says, the traversal answers exactly
the ends of the walks that the automaton reads.

* `Evaluation.testsOf`: the tests that a traversal makes;
* `Accepted`: the ends of walks within the bound on hops that the automaton reads;
* `Explored.mem_accepted`, `Explored.isLeast_hops`: what a finished search says;
* `traverse_exact`: the search of an evaluation, for tests with effects.
-/

namespace PathQuery

/-! ## Reading off a finished search -/

section Explored

variable {g : Graph} {a : Automaton} {accepts : Transition → Incidence → Prop} {start : IdSet}
  {limits : Limits} {search : Search}

/-- The vertices at the end of a walk from the start that is short enough and that the automaton
reads. -/
def Accepted (g : Graph) (a : Automaton) (accepts : Transition → Incidence → Prop)
    (limits : Limits) (start : IdSet) (w : Nat) : Prop :=
  ∃ v es, v ∈ start ∧ g.containsVertex v = true ∧ (∀ h, limits.maxHops = some h → es.length ≤ h) ∧
    g.Walk v es w ∧ ∃ f, a.isFinal f = true ∧ a.Run accepts a.initial es f

/-- The numbers of edges on the walks from the start to a vertex that the automaton reads on the
way to a state. -/
def WalkLengths (g : Graph) (a : Automaton) (accepts : Transition → Incidence → Prop)
    (start : IdSet) (w : Nat) (s : StateId) : Set Nat :=
  {k | ∃ v es, v ∈ start ∧ g.containsVertex v = true ∧ es.length = k ∧ g.Walk v es w ∧
    a.Run accepts a.initial es s}

theorem mem_walkLengths {k w : Nat} {s : StateId} :
    k ∈ WalkLengths g a accepts start w s ↔ Layer g a accepts start k w s := by
  simp only [WalkLengths, Set.mem_ofPred_eq, Graph.containsVertex_iff, layer_iff]

theorem Explored.isLeast_hops (h : Explored g a accepts start limits search) {p : Pair}
    (hp : p ∈ search.queue) :
    IsLeast (WalkLengths g a accepts start p.vertex p.state) p.hops := by
  refine ⟨mem_walkLengths.2 (h.sound.layer hp), ?_⟩
  intro k hk
  by_contra hlt
  have hlayer := mem_walkLengths.1 hk
  have hwithin : ∀ bound, limits.maxHops = some bound → k ≤ bound := by
    intro bound hmax
    have := h.sound.within hp hmax
    omega
  rcases h.has_of_layer hlayer hwithin with ⟨l, hl, hmem⟩
  -- The pair was visited once, so with these hops.
  have heq := congrArg Pair.hops (h.sound.eq_of_key hp hmem rfl rfl)
  have hlk : l ≤ k := hl
  have hpl : p.hops = l := heq
  omega

theorem Explored.mem_accepted (h : Explored g a accepts start limits search) {w : Nat} :
    w ∈ search.accepted ↔ Accepted g a accepts limits start w := by
  rw [h.sound.accepted_iff]
  constructor
  · rintro ⟨p, hp, rfl, hfinal⟩
    rcases (h.sound.layer hp).exists_walk with ⟨v, es, hv, hlt, hlength, hwalk, hrun⟩
    refine ⟨v, es, hv, Graph.containsVertex_iff.2 hlt, ?_, hwalk, p.state, hfinal, hrun⟩
    intro bound hmax
    rw [hlength]
    exact h.sound.within hp hmax
  · rintro ⟨v, es, hv, hlt, hlength, hwalk, f, hfinal, hrun⟩
    have hlayer : Layer g a accepts start es.length w f :=
      layer_iff.2 ⟨v, es, hv, Graph.containsVertex_iff.1 hlt, rfl, hwalk, hrun⟩
    rcases h.has_of_layer hlayer hlength with ⟨k, _, hmem⟩
    exact ⟨_, hmem, rfl, hfinal⟩

end Explored

/-! ## Tests that are noted -/

/-- One test of an edge. -/
structure EdgeTest where
  transition : Transition
  vertex : Nat
  incidence : Incidence
  outcome : Except Failure Bool

/-- Evaluations that also note the tests that were made. -/
abbrev Noted (α : Type) := ExceptT Failure (StateM (Workspace × List EdgeTest)) α

def noting (accepts : Transition → Nat → Incidence → Eval Bool) (t : Transition) (v : Nat)
    (e : Incidence) : Noted Bool :=
  fun (w, tests) =>
    let (outcome, w) := accepts t v e w
    (outcome, (w, tests ++ [⟨t, v, e, outcome⟩]))

/-- Noting the tests changes nothing else. -/
def forgetting : Simulation (ExceptT Failure (StateM (Workspace × List EdgeTest)))
    (ExceptT Failure (StateM Workspace)) where
  rel x y := ∀ w tests, ((x (w, tests)).1, (x (w, tests)).2.1) = y w
  pure _ _ _ := rfl
  throw _ _ _ := rfl
  bind {α γ x y f k} hxy hfk w tests := by
    have h := hxy w tests
    rw [bind_apply, bind_apply, ← h]
    rcases x (w, tests) with ⟨r | r, w', tests'⟩
    · rfl
    · exact hfk r w' tests'

/-- Noted tests are kept, and as long as all are good the computation does what another one does
that makes no tests. -/
def following (good : EdgeTest → Prop) :
    Simulation (ExceptT Failure (StateM (Workspace × List EdgeTest))) (Except Failure) where
  rel x y := ∀ w tests, tests <+: (x (w, tests)).2.2 ∧
    ((∀ test ∈ (x (w, tests)).2.2, good test) → (x (w, tests)).1 = y)
  pure _ _ tests := ⟨List.prefix_refl tests, fun _ => rfl⟩
  throw _ _ tests := ⟨List.prefix_refl tests, fun _ => rfl⟩
  bind {α γ x y f k} hxy hfk w tests := by
    rcases hxy w tests with ⟨hkept, hgood⟩
    rw [bind_apply]
    rcases hx : x (w, tests) with ⟨r | r, w', tests'⟩
    · rw [hx] at hkept hgood
      refine ⟨hkept, ?_⟩
      intro htests
      rw [← hgood htests]
      rfl
    · rw [hx] at hkept hgood
      rcases hfk r w' tests' with ⟨hkept', hgood'⟩
      refine ⟨hkept.trans hkept', ?_⟩
      intro htests
      rw [← hgood fun test htest => htests test (hkept'.subset htest)]
      exact hgood' htests

namespace Evaluation

variable (scope : Scope) (a : Automaton) (start : IdSet)

def traverse : Eval Search :=
  Traversal.traverse (takes scope (result scope)) scope.limits a scope.graph start

/-- The tests that a traversal makes from a workspace, in their order. -/
def testsOf (w : Workspace) : List EdgeTest :=
  (Traversal.traverse (noting (takes scope (result scope))) scope.limits a scope.graph start
    (w, [])).2.2

variable {scope a start}

/-- The verdict restricted to what a test can accept at all. -/
def restrict (verdict : Transition → Incidence → Bool) (g : Graph) (t : Transition) (v : Nat)
    (e : Incidence) : Bool :=
  g.this e == some v && t.symbol.fits g e && verdict t e

/-- A transition takes an edge that fits and for which the verdict is positive. -/
def Takes (verdict : Transition → Incidence → Bool) (g : Graph) (t : Transition) (e : Incidence) :
    Prop :=
  t.symbol.fits g e = true ∧ verdict t e = true

theorem decides_restrict (verdict : Transition → Incidence → Bool) (g : Graph) :
    Decides g a (Takes verdict g) (restrict verdict g) Traversal.incidenceDirection where
  verdict_iff _ _ hthis := by
    simp [restrict, Takes, hthis]
  admits ht _ haccepts := admits_incidenceDirection ht haccepts.1

/-- What is noted is the traversal itself. -/
theorem traverse_forgets (w : Workspace) :
    (traverse scope a start w).1 =
      (Traversal.traverse (noting (takes scope (result scope))) scope.limits a scope.graph start
        (w, [])).1 := by
  have hnoted : forgetting.rel
      (Traversal.traverse (noting (takes scope (result scope))) scope.limits a scope.graph start)
      (traverse scope a start) :=
    forgetting.traverse scope.limits scope.graph (fun _ _ _ _ _ _ _ => rfl) start
  rw [← hnoted w []]

/-- As long as the tests come out as the verdict says, a traversal does what it does with the
verdict alone. -/
theorem traverse_follows {verdict : Transition → Incidence → Bool} {w : Workspace}
    (htests : ∀ test ∈ testsOf scope a start w,
      test.outcome = .ok (verdict test.transition test.incidence)) :
    (traverse scope a start w).1 =
      Traversal.traverse (tested (restrict verdict scope.graph)) scope.limits a scope.graph
        start := by
  let good (test : EdgeTest) : Prop :=
    test.outcome = .ok (verdict test.transition test.incidence)
  have hfollows : (following good).rel
      (Traversal.traverse (noting (takes scope (result scope))) scope.limits a scope.graph start)
      (Traversal.traverse (tested (restrict verdict scope.graph)) scope.limits a scope.graph
        start) := by
    refine (following good).traverse scope.limits scope.graph ?_ start
    intro t _ hsymbol v e w tests
    refine ⟨List.prefix_append _ _, ?_⟩
    intro hgood
    have hlast : (takes scope (result scope) t v e w).1 = .ok (verdict t e) :=
      hgood ⟨t, v, e, _⟩ (List.mem_append_right _ (List.mem_singleton.2 rfl))
    have hrestrict : restrict verdict scope.graph t v e = verdict t e := by
      cases hverdict : verdict t e with
      | false =>
        rw [restrict, hverdict, Bool.and_false]
      | true =>
        rw [hverdict] at hlast
        rcases fits_of_takes scope (result scope) hsymbol hlast with ⟨hthis, hfits⟩
        simp [restrict, hverdict, hthis, hfits]
    change (takes scope (result scope) t v e w).1 = _
    rw [hlast, tested, hrestrict]
    rfl
  rw [traverse_forgets]
  exact (hfollows w []).2 htests

theorem traverse_exact {verdict : Transition → Incidence → Bool} {w : Workspace}
    (hg : scope.graph.Constructed) (ha : a.Indexed) (hvisited : scope.limits.maxVisited = none)
    (htests : ∀ test ∈ testsOf scope a start w,
      test.outcome = .ok (verdict test.transition test.incidence)) :
    ∃ search w', traverse scope a start w = (.ok search, w') ∧
      reachable scope a start w = (.ok search.accepted, w') ∧
      (∀ x, x ∈ search.accepted ↔
        Accepted scope.graph a (Takes verdict scope.graph) scope.limits start x) ∧
      (search.queue.toList.map fun p => (p.vertex, p.state)).Nodup ∧
      ∀ p ∈ search.queue,
        IsLeast (WalkLengths scope.graph a (Takes verdict scope.graph) start p.vertex p.state)
          p.hops := by
  have hyields : Yields (Traversal.traverse (tested (restrict verdict scope.graph)) scope.limits a
      scope.graph start) (Explored scope.graph a (Takes verdict scope.graph) start scope.limits) :=
    traverseVia_yields hg.wellFormed ha hvisited (decides_restrict verdict scope.graph)
  rcases hyields with ⟨search, hsearch, hexplored⟩
  have hfollows := (traverse_follows htests).trans hsearch
  rcases htraverse : traverse scope a start w with ⟨outcome, w'⟩
  rw [htraverse] at hfollows
  obtain rfl : outcome = .ok search := hfollows
  refine ⟨search, w', rfl, ?_, fun x => hexplored.mem_accepted, hexplored.sound.nodup,
    fun p hp => hexplored.isLeast_hops hp⟩
  have hreachable : reachable scope a start = traverse scope a start >>= fun search =>
    pure search.accepted := rfl
  rw [hreachable, bind_apply, htraverse]
  rfl

/-- Two towns with a road each way, and roads that are taken if a condition holds that is always
true. -/
def towns : Graph :=
  let g := Graph.empty
  let g := (g.addVertex "Town" []).2
  let g := (g.addVertex "Town" []).2
  let g := (g.addEdge "road" 0 1 []).2
  (g.addEdge "road" 1 0 []).2

def guardedRoads : Automaton :=
  ((Automaton.single (.step { EdgeConstraint.wildcard .outgoing with
    guard := some ⟨0, some "road"⟩ }) 0).1.star 0).1

def townScope : Scope where
  graph := towns
  nodes := ⟨#[some (.literal (.bool true))]⟩
  limits := { maxHops := some 1 }

theorem towns_constructed : towns.Constructed :=
  .addEdge "road" 1 0 [] (.addEdge "road" 0 1 [] (.addVertex "Town" [] (.addVertex "Town" []
    .empty)))

theorem guardedRoads_indexed : guardedRoads.Indexed :=
  (Automaton.iterate_shape (Automaton.single_shape _ 0).wellFormed true 0).wellFormed.toIndexed

theorem traverse_exact_towns :
    (∀ test ∈ testsOf townScope guardedRoads (.singleton 0) {}, test.outcome = .ok true) ∧
      ∃ search w', traverse townScope guardedRoads (.singleton 0) {} = (.ok search, w') ∧
        reachable townScope guardedRoads (.singleton 0) {} = (.ok search.accepted, w') ∧
        (∀ x, x ∈ search.accepted ↔ Accepted towns guardedRoads (Takes (fun _ _ => true) towns)
          { maxHops := some 1 } (.singleton 0) x) ∧
        (search.queue.toList.map fun p => (p.vertex, p.state)).Nodup ∧
        ∀ p ∈ search.queue, IsLeast (WalkLengths towns guardedRoads
          (Takes (fun _ _ => true) towns) (.singleton 0) p.vertex p.state) p.hops := by
  have htests : ∀ test ∈ testsOf townScope guardedRoads (.singleton 0) {},
      test.outcome = .ok true := by
    decide +kernel
  exact ⟨htests, traverse_exact towns_constructed guardedRoads_indexed rfl htests⟩

end Evaluation

end PathQuery

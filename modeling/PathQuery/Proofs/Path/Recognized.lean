import PathQuery.Proofs.Automaton.Recognizes
import PathQuery.Proofs.Path.Reachability

/-!
# Traversals of automata that recognize a language

Without guards and fixed edges the tests of a traversal neither fail nor change the workspace, so
neither does the traversal.

* `Graph.SpansWithin`: a walk within the bound on hops matches the language;
* `constantly`: evaluations that neither read nor change the workspace;
* `traverse_plain`: a traversal without guards and fixed edges is one of them;
* `reachable_recognized`, `connects_recognized`: what a traversal answers.
-/

namespace PathQuery

namespace Graph

/-- A walk from the one vertex to the other matches and is short enough. -/
def SpansWithin (g : Graph) (limits : Limits) (l : Language Incidence) (v w : Nat) : Prop :=
  g.containsVertex v = true ∧
    ∃ es ∈ l, (∀ h, limits.maxHops = some h → es.length ≤ h) ∧ g.Walk v es w

variable {g : Graph} {limits : Limits} {l : Language Incidence} {v w : Nat}

theorem spansWithin_unlimited (hlimits : limits.maxHops = none) :
    g.SpansWithin limits l v w ↔ g.Spans l v w := by
  simp [SpansWithin, Spans, hlimits]

/-- The bound on hops is the same from both ends. -/
theorem spansWithin_backwards (hg : g.WellFormed) :
    g.SpansWithin limits {es | backwards es ∈ l} v w ↔ g.SpansWithin limits l w v := by
  constructor
  · rintro ⟨hv, es, hes, hshort, hwalk⟩
    refine ⟨hwalk.contains hg hv, backwards es, hes, ?_, hwalk.backwards⟩
    rwa [length_backwards]
  · rintro ⟨hw, es, hes, hshort, hwalk⟩
    refine ⟨hwalk.contains hg hw, backwards es, ?_, ?_, hwalk.backwards⟩
    · change backwards (backwards es) ∈ l
      rwa [backwards_backwards]
    · rwa [length_backwards]

end Graph

/-- The evaluation always has this outcome, and leaves the workspace as it is. -/
def constantly : Simulation (ExceptT Failure (StateM Workspace)) (Except Failure) where
  rel x y := ∀ w, x w = (y, w)
  pure _ _ := rfl
  throw _ _ := rfl
  bind {α γ x y f k} hxy hfk w := by
    rw [bind_apply, hxy w]
    cases y with
    | error failure => rfl
    | ok r => exact hfk r w

namespace Evaluation

variable {scope : Scope} {a : Automaton} {l : Language Incidence}
  {start : IdSet}

/-- The test of plain transitions. -/
def fitsAt (g : Graph) (t : Transition) (v : Nat) (e : Incidence) : Bool :=
  g.this e == some v && t.symbol.fits g e

theorem decides_fitsAt (g : Graph) :
    Decides g a (Automaton.bySymbol (Symbol.Matches g)) (fitsAt g)
      Traversal.incidenceDirection where
  verdict_iff _ _ hthis := by
    simp [fitsAt, hthis]
  admits ht _ hfits := admits_incidenceDirection ht hfits

theorem accepted_iff {g : Graph} {limits : Limits} (ha : a.Recognizes g l) {w : Nat} :
    Accepted g a (Automaton.bySymbol (Symbol.Matches g)) limits start w ↔
      ∃ v, v ∈ start ∧ g.SpansWithin limits l v w := by
  constructor
  · rintro ⟨v, es, hv, hcontains, hshort, hwalk, hrun⟩
    have hmem : es ∈ a.language (Symbol.Matches g) := hrun
    rw [ha.language_eq] at hmem
    exact ⟨v, hv, hcontains, es, hmem, hshort, hwalk⟩
  · rintro ⟨v, hv, hcontains, es, hmem, hshort, hwalk⟩
    rw [← ha.language_eq] at hmem
    exact ⟨v, es, hv, hcontains, hshort, hwalk, hmem⟩

theorem takes_plain (scope : Scope) (result : NodeId → Eval Value) {t : Transition}
    (hsymbol : t.symbol.isEpsilon = false) (hplain : t.symbol.isPlain = true) (v : Nat)
    (e : Incidence) :
    constantly.rel (takes scope result t v e) (tested (fitsAt scope.graph) t v e) := by
  rw [takes_eq_pure scope result hsymbol hplain]
  exact constantly.pure _

/-- Without guards and fixed edges, a traversal is one in which the tests have no effects. -/
theorem traverse_plain (hplain : ∀ t ∈ a.transitions, t.symbol.isPlain = true) (start : IdSet)
    (w : Workspace) :
    traverse scope a start w =
      (Traversal.traverse (tested (fitsAt scope.graph)) scope.limits a scope.graph start, w) :=
  constantly.traverse scope.limits scope.graph
    (fun t ht hsymbol => takes_plain scope (result scope) hsymbol (hplain t ht)) start w

theorem reachable_recognized (result : NodeId → Eval Value) (hg : scope.graph.WellFormed)
    (ha : a.Recognizes scope.graph l) (hvisited : scope.limits.maxVisited = none) (start : IdSet) :
    ∃ found : IdSet,
      (∀ w, Traversal.reachable (takes scope result) scope.limits a scope.graph start w =
        (.ok found, w)) ∧
      ∀ x, x ∈ found ↔ ∃ v, v ∈ start ∧ scope.graph.SpansWithin scope.limits l v x := by
  have hyields : Yields (Traversal.traverse (tested (fitsAt scope.graph)) scope.limits a
      scope.graph start) (Explored scope.graph a (Automaton.bySymbol (Symbol.Matches scope.graph))
        start scope.limits) :=
    traverseVia_yields hg ha.wellFormed.toIndexed hvisited (decides_fitsAt scope.graph)
  rcases hyields with ⟨search, hsearch, hexplored⟩
  have hconstantly := constantly.reachable scope.limits scope.graph
    (fun t ht hsymbol => takes_plain scope result hsymbol (ha.plain ht)) start
  refine ⟨search.accepted, ?_, fun x => hexplored.mem_accepted.trans (accepted_iff ha)⟩
  intro w
  rw [hconstantly w, Traversal.reachable, hsearch]
  rfl

theorem connects_recognized (result : NodeId → Eval Value) (hg : scope.graph.WellFormed)
    (ha : a.Recognizes scope.graph l) (hvisited : scope.limits.maxVisited = none)
    (start target : IdSet) :
    ∃ connected : Bool,
      (∀ w, Traversal.connects (takes scope result) scope.limits a scope.graph start target w =
        (.ok connected, w)) ∧
      (connected = true ↔
        ∃ v x, v ∈ start ∧ x ∈ target ∧ scope.graph.SpansWithin scope.limits l v x) := by
  by_cases htarget : target.isEmpty = true
  · refine ⟨false, ?_, ?_⟩
    · intro w
      rw [Traversal.connects, if_pos htarget]
      rfl
    · constructor
      · intro h
        cases h
      · rintro ⟨_, x, _, hx, _⟩
        exact absurd hx (IdSet.isEmpty_iff.1 htarget x)
  · rcases reachable_recognized result hg ha hvisited start with
      ⟨found, hfound, hmem⟩
    refine ⟨!(found.inter target).isEmpty, ?_, ?_⟩
    · intro w
      rw [Traversal.connects, if_neg htarget, bind_apply, hfound]
      rfl
    · rw [IdSet.not_isEmpty_iff]
      simp only [IdSet.mem_inter, hmem]
      constructor
      · rintro ⟨x, ⟨v, hv, hspans⟩, hx⟩
        exact ⟨v, x, hv, hx, hspans⟩
      · rintro ⟨v, x, hv, hx, hspans⟩
        exact ⟨x, ⟨v, hv, hspans⟩, hx⟩

end Evaluation

end PathQuery

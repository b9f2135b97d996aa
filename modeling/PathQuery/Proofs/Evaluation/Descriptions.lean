import PathQuery.Proofs.Evaluation.Compile
import PathQuery.Proofs.Path.Recognized

/-!
# What path descriptions say about a graph

* `Evaluates`: compiling a node and running its automaton gives the image under a relation;
* `evaluates_meaning`: descriptions without guards and fixed edges are compiled to the relation
  that they stand for;
* `queries_agree`: their paths are found from both ends, and by the transposed description.
-/

namespace PathQuery
namespace Evaluation

variable {g : Graph} {nodes : SyntaxGraph}

/-! ## Relations -/

/-- The node is compiled, and without limits its automaton leads from vertices to their images.
Neither depends on the workspace. -/
def Evaluates (g : Graph) (nodes : SyntaxGraph) (id : NodeId) (relation : Nat → Nat → Prop) :
    Prop :=
  ∀ supply, ∃ a supply', compilePathDescription g nodes id supply = (.ok a, supply') ∧
    ∀ scope : Scope, scope.graph = g → scope.limits = {} → ∀ (start : IdSet),
      ∃ found : IdSet, (∀ w, reachable scope a start w = (.ok found, w)) ∧
        ∀ x, x ∈ found ↔ ∃ v, v ∈ start ∧ g.containsVertex v = true ∧ relation v x

theorem evaluates_of_unfolds (hg : g.WellFormed) {id : NodeId} {p : Pattern}
    (hp : nodes.Unfolds id p) (hadmissible : p.Admissible) :
    Evaluates g nodes id (p.Meaning g) := by
  intro supply
  rcases compilePathDescription_complete hp hadmissible supply with ⟨a, supply', hcompile, ha⟩
  refine ⟨a, supply', hcompile, ?_⟩
  rintro scope rfl hlimits start
  rcases reachable_recognized (result scope) hg ha (by rw [hlimits]) start with
    ⟨found, hfound, hmem⟩
  refine ⟨found, hfound, ?_⟩
  intro x
  have hspans : ∀ v, scope.graph.SpansWithin scope.limits (p.language scope.graph) v x ↔
      scope.graph.containsVertex v = true ∧ p.Meaning scope.graph v x := by
    intro v
    rw [Graph.spansWithin_unlimited (by rw [hlimits]), Pattern.meaning_eq hg]
    exact ⟨fun h => ⟨h.1, h⟩, fun h => h.2⟩
  simp only [hmem, hspans]

theorem evaluates_meaning (hg : g.Constructed) :
    (∀ (nodes : SyntaxGraph) (id : NodeId), nodes.IsPlainDescription id →
      ∃ p, nodes.Unfolds id p ∧ Evaluates g nodes id (p.Meaning g)) ∧
    ∀ (nodes : SyntaxGraph) (p : Pattern), p.Admissible →
      Evaluates g (nodes.lower p).2 (nodes.lower p).1 (p.Meaning g) := by
  constructor
  · intro nodes id hplain
    rcases SyntaxGraph.exists_unfolds hplain with ⟨p, hp, hadmissible⟩
    exact ⟨p, hp, evaluates_of_unfolds hg.wellFormed hp hadmissible⟩
  · intro nodes p hadmissible
    exact evaluates_of_unfolds hg.wellFormed (SyntaxGraph.unfolds_lower nodes p) hadmissible

/-- Roads there and back, any number of times, and the same from the other end.  The step is
shared. -/
def roundTrips : SyntaxGraph where
  nodes := #[some (.simplePath .outgoing [⟨"road", false⟩] [] none), some (.transposed 0),
    some (.sequence [0, 1]), some (.iterated 2 .star), some (.transposed 3)]

/-- Roads in their direction, or two of them against it. -/
def detour : Pattern :=
  .alt [.star (.edge .outgoing [⟨"road", false⟩] []),
    .power (.transpose (.edge .outgoing [⟨"road", false⟩] [])) 2]

theorem roundTrips_isPlainDescription : roundTrips.IsPlainDescription 3 := by
  refine .of_descending ?_
  intro n hn
  match n, hn with
  | 0, _ => exact ⟨_, rfl, rfl, trivial, by decide⟩
  | 1, _ => exact ⟨_, rfl, trivial, trivial, by decide⟩
  | 2, _ => exact ⟨_, rfl, trivial, trivial, by decide⟩
  | 3, _ => exact ⟨_, rfl, trivial, trivial, by decide⟩

theorem detour_admissible : detour.Admissible :=
  ⟨List.cons_ne_nil _ _, trivial, ⟨by decide, trivial⟩, trivial⟩

theorem evaluates_meaning_towns :
    (∃ p, roundTrips.Unfolds 3 p ∧ Evaluates towns roundTrips 3 (p.Meaning towns)) ∧
      Evaluates towns (roundTrips.lower detour).2 (roundTrips.lower detour).1
        (detour.Meaning towns) :=
  ⟨(evaluates_meaning towns_constructed).1 roundTrips 3 roundTrips_isPlainDescription,
    (evaluates_meaning towns_constructed).2 roundTrips detour detour_admissible⟩

/-! ## Both ends -/

theorem backward_recognized {scope : Scope} {a : Automaton} {l : Language Incidence}
    (hg : scope.graph.WellFormed) (ha : a.Recognizes scope.graph l)
    (hvisited : scope.limits.maxVisited = none) (target : IdSet) (w : Workspace) :
    ∃ (found : IdSet) (w' : Workspace), backward scope a target w = (.ok found, w') ∧
      ∀ x, x ∈ found ↔ ∃ v, v ∈ target ∧ scope.graph.SpansWithin scope.limits l x v := by
  have hreverse := ha.reverse w.supply.serials
  rcases reachable_recognized (result scope) hg hreverse hvisited target with ⟨found, hfound, hmem⟩
  refine ⟨found, _, hfound _, ?_⟩
  intro x
  simp only [hmem, Graph.spansWithin_backwards hg]

/-- Whether a path leads from the one vertex to the other can be asked from either end and of the
transposed description, and for sets of vertices in three ways. -/
structure EndsAgree (scope : Scope) (nodes : SyntaxGraph) (path : NodeId) (a : Automaton) :
    Prop where
  pairs (v w : Nat) (k : Workspace) : ∃ (forth back : IdSet) (k' : Workspace),
    reachable scope a (.singleton v) k = (.ok forth, k) ∧
    backward scope a (.singleton w) k = (.ok back, k') ∧
    (w ∈ forth ↔ v ∈ back) ∧
    ∀ t, nodes.get t = .ok (.transposed path) → ∀ supply, ∃ b supply', ∃ across : IdSet,
      compilePathDescription scope.graph nodes t supply = (.ok b, supply') ∧
      reachable scope b (.singleton w) k = (.ok across, k) ∧
      (w ∈ forth ↔ v ∈ across)
  sets (start target : IdSet) (k : Workspace) :
    ∃ (forth back : IdSet) (connected : Bool) (k' : Workspace),
      reachable scope a start k = (.ok forth, k) ∧
      backward scope a target k = (.ok back, k') ∧
      connects scope a start target k = (.ok connected, k) ∧
      (connected = true ↔ ∃ x, x ∈ forth ∧ x ∈ target) ∧
      (connected = true ↔ ∃ x, x ∈ back ∧ x ∈ start)

theorem queries_agree {path : NodeId} {supply supply' : Supply} {a : Automaton} {scope : Scope}
    (hg : scope.graph.Constructed) (hvisited : scope.limits.maxVisited = none)
    (hplain : ∀ {n node}, Relation.ReflTransGen nodes.IsChild path n → nodes.get n = .ok node →
      node.IsUnguarded)
    (hcompile : compilePathDescription scope.graph nodes path supply = (.ok a, supply')) :
    EndsAgree scope nodes path a := by
  rcases compilePathDescription_sound hplain hcompile with ⟨p, hp, hadmissible, ha⟩
  have hg := hg.wellFormed
  constructor
  · intro v w k
    rcases reachable_recognized (result scope) hg ha hvisited (.singleton v) with
      ⟨forth, hforth, hmemForth⟩
    rcases backward_recognized hg ha hvisited (.singleton w) k with ⟨back, k', hback, hmemBack⟩
    refine ⟨forth, back, k', hforth k, hback, ?_, ?_⟩
    · simp only [hmemForth, hmemBack, IdSet.mem_singleton, exists_eq_left]
    · intro t ht supplyT
      have htransposed : nodes.Unfolds t (.transpose p) := ⟨path, ht, hp⟩
      rcases compilePathDescription_complete htransposed hadmissible supplyT with
        ⟨b, supplyT', hcompileT, hb⟩
      rcases reachable_recognized (result scope) hg hb hvisited (.singleton w) with
        ⟨across, hacross, hmemAcross⟩
      refine ⟨b, supplyT', across, hcompileT, hacross k, ?_⟩
      simp only [hmemForth, hmemAcross, Pattern.language, Graph.spansWithin_backwards hg,
        IdSet.mem_singleton, exists_eq_left]
  · intro start target k
    rcases reachable_recognized (result scope) hg ha hvisited start with ⟨forth, hforth, hmemForth⟩
    rcases backward_recognized hg ha hvisited target k with ⟨back, k', hback, hmemBack⟩
    rcases connects_recognized (result scope) hg ha hvisited start target with
      ⟨connected, hconnected, hiff⟩
    refine ⟨forth, back, connected, k', hforth k, hback, hconnected k, ?_, ?_⟩
    · rw [hiff]
      simp only [hmemForth]
      constructor
      · rintro ⟨v, x, hv, hx, hspans⟩
        exact ⟨x, ⟨v, hv, hspans⟩, hx⟩
      · rintro ⟨x, ⟨v, hv, hspans⟩, hx⟩
        exact ⟨v, x, hv, hx, hspans⟩
    · rw [hiff]
      simp only [hmemBack]
      constructor
      · rintro ⟨v, x, hv, hx, hspans⟩
        exact ⟨v, ⟨x, hx, hspans⟩, hv⟩
      · rintro ⟨v, ⟨x, hx, hspans⟩, hv⟩
        exact ⟨v, x, hv, hx, hspans⟩

theorem queries_agree_towns : ∃ a supply',
    compilePathDescription towns roundTrips 3 {} = (.ok a, supply') ∧
      EndsAgree { graph := towns, nodes := roundTrips, limits := { maxHops := some 3 } }
        roundTrips 3 a := by
  rcases SyntaxGraph.exists_unfolds roundTrips_isPlainDescription with ⟨p, hp, hadmissible⟩
  rcases compilePathDescription_complete hp hadmissible {} with ⟨a, supply', hcompile, _⟩
  refine ⟨a, supply', hcompile, ?_⟩
  exact queries_agree towns_constructed rfl roundTrips_isPlainDescription.isUnguarded hcompile

end Evaluation
end PathQuery

import PathQuery.Proofs.Evaluation.Built
import PathQuery.Proofs.Evaluation.Descriptions

/-!
# Path systems hold shortest paths

A pair is recorded with the pair before it, so a path can be read off backwards.  It leads back by
one hop at a time, and hops only get fewer.

* `PathSystem.best_spec`: the best way to reach a vertex has the fewest edges;
* `Explored.traceBack_eq`: going back from a visited pair ends at the start and gives a walk that
  the automaton reads on the way to the state of the pair;
* `Explored.traceBack_add`: it ends there by itself, whatever the bound;
* `Graph.IsShortest`: no accepted walk from the start to the vertex is shorter;
* `PathSystem.Exact`: what a path system tells about the vertices;
* `pathSystem_exact`: the path systems that are computed tell it.
-/

namespace PathQuery

/-! ## The best of several ways -/

namespace PathSystem

theorem best_eq_none_iff {xs : List (Nat × StateId)} : best xs = none ↔ xs = [] := by
  cases xs with
  | nil => simp [best]
  | cons x xs =>
    rw [best]
    cases best xs with
    | none => simp
    | some y => simp

theorem best_spec {xs : List (Nat × StateId)} {x : Nat × StateId} (h : best xs = some x) :
    x ∈ xs ∧ ∀ y ∈ xs, x.1 ≤ y.1 := by
  induction xs generalizing x with
  | nil => cases h
  | cons z xs ih =>
    rw [best] at h
    cases hbest : best xs with
    | none =>
      rw [hbest] at h
      obtain rfl : z = x := Option.some.inj h
      rw [best_eq_none_iff.1 hbest]
      exact ⟨List.mem_singleton_self z, by simp⟩
    | some y =>
      rw [hbest] at h
      obtain ⟨hy, hle⟩ := ih hbest
      have hx : (if better z y then z else y) = x := Option.some.inj h
      -- What is better has at most as many hops; the state only decides between equals.
      by_cases hbetter : better z y = true
      · rw [if_pos hbetter] at hx
        subst hx
        have hzy : z.1 ≤ y.1 := by
          simp only [better, Bool.or_eq_true, Bool.and_eq_true, decide_eq_true_eq,
            beq_iff_eq] at hbetter
          omega
        refine ⟨List.mem_cons_self, List.forall_mem_cons.2 ⟨Nat.le_refl _, ?_⟩⟩
        exact fun u hu => Nat.le_trans hzy (hle u hu)
      · rw [if_neg hbetter] at hx
        subst hx
        have hyz : y.1 ≤ z.1 := by
          simp only [better, Bool.or_eq_true, Bool.and_eq_true, decide_eq_true_eq,
            beq_iff_eq] at hbetter
          omega
        exact ⟨List.mem_cons_of_mem _ hy, List.forall_mem_cons.2 ⟨hyz, hle⟩⟩

/-! ## One step back -/

theorem traceBack_of_none {ps : PathSystem} {v : Nat} {s : StateId}
    (h : (ps.visits.find v s).bind (·.origin) = none) (bound : Nat) (edges : List Incidence) :
    ps.traceBack bound v s edges = (v, edges) := by
  cases bound with
  | zero => rfl
  | succ bound => rw [traceBack, h]

theorem traceBack_of_some {ps : PathSystem} {v u : Nat} {s r : StateId} {e : Incidence}
    (h : (ps.visits.find v s).bind (·.origin) = some ((u, r), e)) (bound : Nat)
    (edges : List Incidence) :
    ps.traceBack (bound + 1) v s edges = ps.traceBack bound u r (e :: edges) := by
  rw [traceBack, h]

end PathSystem

/-! ## What a finished search has recorded -/

section Explored

variable {g : Graph} {a : Automaton} {accepts : Transition → Incidence → Prop} {start : IdSet}
  {limits : Limits} {search : Search} {ps : PathSystem}

/-- The path system was read off the search. -/
structure PathSystem.Of (ps : PathSystem) (a : Automaton) (start : IdSet) (search : Search) :
    Prop where
  reachable_eq : ps.reachable = search.accepted
  visits_eq : ps.visits = search.visits
  finals_eq : ps.finals = a.finals

/-- A visited pair is one to start with, or one hop led to it. -/
theorem Explored.origin_cases (h : Explored g a accepts start limits search)
    (hps : ps.Of a start search) {v k : Nat} {s : StateId} (hmem : ⟨v, s, k⟩ ∈ search.queue) :
    k = 0 ∧ (ps.visits.find v s).bind (·.origin) = none ∨
      ∃ k' u r e, k = k' + 1 ∧ (ps.visits.find v s).bind (·.origin) = some ((u, r), e) ∧
        ⟨u, r, k'⟩ ∈ search.queue ∧ Hop g a accepts u r e v s := by
  obtain ⟨origin, hfind, horigin⟩ := h.sound.find_of_mem hmem
  rw [hps.visits_eq, hfind]
  cases origin with
  | none => exact .inl ⟨horigin.1, rfl⟩
  | some origin =>
    obtain ⟨k', hk, hbefore, hhop⟩ := horigin
    exact .inr ⟨k', _, _, _, hk, rfl, hbefore, hhop⟩

/-- Going back from a visited pair takes its hops and ends at the start. -/
theorem Explored.traceBack_eq (h : Explored g a accepts start limits search)
    (hps : ps.Of a start search) (k : Nat) {v : Nat} {s : StateId}
    (hmem : ⟨v, s, k⟩ ∈ search.queue) (edges : List Incidence) :
    ∃ r es, ps.traceBack k v s edges = (r, es ++ edges) ∧ es.length = k ∧ r ∈ start ∧
      g.containsVertex r = true ∧ g.Walk r es v ∧ a.Run accepts a.initial es s := by
  -- The origin of a pair was visited with one hop less.
  induction k generalizing v s edges with
  | zero =>
    cases h.sound.layer hmem with
    | seed hstart hlt hs =>
      exact ⟨v, [], rfl, rfl, hstart, Graph.containsVertex_iff.2 hlt, .nil v, run_of_bridged hs⟩
  | succ k ih =>
    rcases h.origin_cases hps hmem with ⟨hzero, _⟩ | ⟨k', u, x, e, hk, horigin, hbefore, hhop⟩
    · exact absurd hzero (Nat.succ_ne_zero k)
    · obtain rfl : k = k' := Nat.succ.inj hk
      obtain ⟨r, es, htrace, hlength, hstart, hcontains, hwalk, hrun⟩ := ih hbefore (e :: edges)
      refine ⟨r, es ++ [e], ?_, ?_, hstart, hcontains, ?_, hrun.append hhop.run⟩
      · rw [PathSystem.traceBack_of_some horigin, htrace, List.append_assoc,
          List.singleton_append]
      · rw [List.length_append, hlength, List.length_singleton]
      · exact Graph.walk_append_iff.2 ⟨u, hwalk, hhop.walk⟩

/-- The bound of the way back is never what ends it. -/
theorem Explored.traceBack_add (h : Explored g a accepts start limits search)
    (hps : ps.Of a start search) (k extra : Nat) {v : Nat} {s : StateId}
    (hmem : ⟨v, s, k⟩ ∈ search.queue) (edges : List Incidence) :
    ps.traceBack (k + extra) v s edges = ps.traceBack k v s edges := by
  induction k generalizing v s edges with
  | zero =>
    rcases h.origin_cases hps hmem with ⟨_, horigin⟩ | ⟨k', _, _, _, hk, _⟩
    · rw [PathSystem.traceBack_of_none horigin, PathSystem.traceBack_of_none horigin]
    · exact absurd hk (Nat.succ_ne_zero k').symm
  | succ k ih =>
    rcases h.origin_cases hps hmem with ⟨hzero, _⟩ | ⟨k', u, x, e, hk, horigin, hbefore, _⟩
    · exact absurd hzero (Nat.succ_ne_zero k)
    · obtain rfl : k = k' := Nat.succ.inj hk
      rw [Nat.add_right_comm, PathSystem.traceBack_of_some horigin,
        PathSystem.traceBack_of_some horigin, ih hbefore]

/-- The ways to reach a vertex in a final state. -/
theorem Explored.mem_candidates (h : Explored g a accepts start limits search) (ha : a.Indexed)
    (hps : ps.Of a start search) {v k : Nat} {f : StateId} :
    (k, f) ∈ (ps.finals.filterMap fun f => (ps.visits.find v f).map fun step => (step.hops, f)) ↔
      a.isFinal f = true ∧ ⟨v, f, k⟩ ∈ search.queue := by
  rw [List.mem_filterMap, hps.finals_eq, hps.visits_eq]
  constructor
  · rintro ⟨f', hf', hfind⟩
    obtain ⟨step, hstep, heq⟩ := Option.map_eq_some_iff.1 hfind
    obtain ⟨rfl, rfl⟩ := Prod.mk.inj heq
    exact ⟨ha.mem_finals.1 hf', h.sound.mem_of_find hstep⟩
  · rintro ⟨hf, hmem⟩
    obtain ⟨origin, hfind, _⟩ := h.sound.find_of_mem hmem
    refine ⟨f, ha.mem_finals.2 hf, ?_⟩
    rw [hfind]
    rfl

theorem Explored.bestFinal_eq_none (h : Explored g a accepts start limits search) (ha : a.Indexed)
    (hps : ps.Of a start search) {v : Nat} : ps.bestFinal v = none ↔ ps.contains v = false := by
  have haccepted : ps.contains v = true ↔
      ∃ k f, a.isFinal f = true ∧ ⟨v, f, k⟩ ∈ search.queue := by
    rw [PathSystem.contains, hps.reachable_eq, IdSet.contains_eq_true, h.sound.accepted_iff]
    constructor
    · rintro ⟨p, hp, rfl, hf⟩
      exact ⟨p.hops, p.state, hf, hp⟩
    · rintro ⟨k, f, hf, hmem⟩
      exact ⟨_, hmem, rfl, hf⟩
  rw [PathSystem.bestFinal, PathSystem.best_eq_none_iff, ← Bool.not_eq_true, haccepted,
    List.eq_nil_iff_forall_not_mem]
  constructor
  · rintro hnone ⟨k, f, hcandidate⟩
    exact hnone (k, f) ((h.mem_candidates ha hps).2 hcandidate)
  · rintro hnone ⟨k, f⟩ hmem
    exact hnone ⟨k, f, (h.mem_candidates ha hps).1 hmem⟩

/-- The best way was visited, and no walk that is accepted has fewer edges. -/
theorem Explored.bestFinal_spec (h : Explored g a accepts start limits search) (ha : a.Indexed)
    (hps : ps.Of a start search) {v k : Nat} {f : StateId} (hbest : ps.bestFinal v = some (k, f)) :
    a.isFinal f = true ∧ ⟨v, f, k⟩ ∈ search.queue ∧
      ∀ l f', a.isFinal f' = true → Layer g a accepts start l v f' → k ≤ l := by
  obtain ⟨hcandidate, hleast⟩ := PathSystem.best_spec hbest
  obtain ⟨hf, hmem⟩ := (h.mem_candidates ha hps).1 hcandidate
  refine ⟨hf, hmem, ?_⟩
  intro l f' hf' hlayer
  by_contra hlt
  -- A shorter way is within the bound on hops, so it was visited.
  have hwithin : ∀ bound, limits.maxHops = some bound → l ≤ bound := by
    intro bound hmax
    have hle : k ≤ bound := h.sound.within hmem hmax
    omega
  obtain ⟨l', hl', hmem'⟩ := h.has_of_layer hlayer hwithin
  have hle : k ≤ l' := hleast (l', f') ((h.mem_candidates ha hps).2 ⟨hf', hmem'⟩)
  omega

end Explored

/-! ## What path systems tell -/

namespace Graph

/-- The walk leads from a start vertex to the vertex and is accepted, and no accepted walk from the
start to the vertex has fewer edges. -/
structure IsShortest (g : Graph) (a : Automaton) (start : IdSet) (r : Nat) (es : List Incidence)
    (v : Nat) : Prop where
  mem_start : r ∈ start
  contains : g.containsVertex r = true
  walk : g.Walk r es v
  accepted : es ∈ a.language (Symbol.Matches g)
  least {r' : Nat} {es' : List Incidence} : r' ∈ start → g.Walk r' es' v →
    es' ∈ a.language (Symbol.Matches g) → es.length ≤ es'.length

end Graph

/-- What the path system tells about vertices: all or nothing, and the truth. -/
structure PathSystem.Exact (ps : PathSystem) (g : Graph) (a : Automaton) (start : IdSet) :
    Prop where
  distance_isSome (v : Nat) : (ps.distance v).isSome = ps.contains v
  pathTo_isSome (v : Nat) : (ps.pathTo v).isSome = ps.contains v
  rootOf_isSome (v : Nat) : (ps.rootOf v).isSome = ps.contains v
  shortest {v : Nat} : ps.contains v = true → ∃ r es, ps.rootOf v = some r ∧
    ps.pathTo v = some es ∧ ps.distance v = some es.length ∧ g.IsShortest a start r es v
  /-- The way back has no other end, so without a bound it would end there too. -/
  ends {v k : Nat} {f : StateId} : ps.bestFinal v = some (k, f) → ∀ extra edges,
    ps.traceBack (k + extra) v f edges = ps.traceBack k v f edges

theorem Explored.exact {g : Graph} {a : Automaton} {start : IdSet} {limits : Limits}
    {search : Search} {ps : PathSystem} (hg : g.WellFormed) (ha : a.Indexed)
    (h : Explored g a (Automaton.bySymbol (Symbol.Matches g)) start limits search)
    (hps : ps.Of a start search) : ps.Exact g a start := by
  -- All four answers are read off the best final pair, which the reachable vertices have.
  have hsome : ∀ v, (ps.bestFinal v).isSome = ps.contains v := by
    intro v
    cases hbest : ps.bestFinal v with
    | none => exact ((h.bestFinal_eq_none ha hps).1 hbest).symm
    | some best =>
      have hne : ps.bestFinal v ≠ none := by simp [hbest]
      rw [ne_eq, h.bestFinal_eq_none ha hps, Bool.not_eq_false] at hne
      exact hne.symm
  refine ⟨?_, ?_, ?_, ?_, ?_⟩
  · intro v
    rw [PathSystem.distance, Option.isSome_map, hsome]
  · intro v
    rw [PathSystem.pathTo, PathSystem.trace, Option.isSome_map, Option.isSome_map, hsome]
  · intro v
    rw [PathSystem.rootOf, PathSystem.trace, Option.isSome_map, Option.isSome_map, hsome]
  · intro v hv
    rw [← hsome] at hv
    obtain ⟨⟨k, f⟩, hbest⟩ := Option.isSome_iff_exists.1 hv
    obtain ⟨hf, hmem, hleast⟩ := h.bestFinal_spec ha hps hbest
    obtain ⟨r, es, htrace, rfl, hstart, hcontains, hwalk, hrun⟩ := h.traceBack_eq hps k hmem []
    rw [List.append_nil] at htrace
    have hfound : ps.trace v = some (r, es) := by
      simp only [PathSystem.trace, hbest, Option.map_some, htrace]
    refine ⟨r, es, ?_, ?_, ?_, hstart, hcontains, hwalk, ⟨f, hf, hrun⟩, ?_⟩
    · rw [PathSystem.rootOf, hfound]
      rfl
    · rw [PathSystem.pathTo, hfound]
      rfl
    · rw [PathSystem.distance, hbest]
      rfl
    · rintro r' es' hstart' hwalk' ⟨f', hf', hrun'⟩
      -- Where the other walk starts is a vertex, since it leads to one.
      have hcontains' : g.containsVertex r' = true :=
        hwalk'.backwards.contains hg (hwalk.contains hg hcontains)
      exact hleast _ f' hf' (layer_iff.2
        ⟨r', es', hstart', Graph.containsVertex_iff.1 hcontains', rfl, hwalk', hrun'⟩)
  · intro v k f hbest extra edges
    exact h.traceBack_add hps k extra (h.bestFinal_spec ha hps hbest).2.1 edges

/-! ## Path systems of evaluations -/

theorem Automaton.Built.recognizes {a : Automaton} (ha : a.Built) (g : Graph)
    (hplain : ∀ t ∈ a.transitions, t.symbol.isPlain = true) :
    a.Recognizes g (a.language (Symbol.Matches g)) where
  wellFormed := ha.wellFormed
  accepting := ha.trim.accepting ha.wellFormed
  plain ht := hplain _ ht
  language_eq := rfl

namespace Evaluation

/-- Compiled automata are built, so this is about all that have neither guards nor fixed edges. -/
theorem pathSystem_exact {scope : Scope} {a : Automaton} (hg : scope.graph.Constructed)
    (ha : a.Built) (hplain : ∀ t ∈ a.transitions, t.symbol.isPlain = true)
    (hvisited : scope.limits.maxVisited = none) (start : IdSet) (w : Workspace) :
    ∃ handle ps w', pathSystem scope a start w = (.ok (.pathSystem handle ps), w') ∧
      reachable scope a start w = (.ok ps.reachable, w) ∧ ps.Exact scope.graph a start := by
  have hrecognizes := ha.recognizes scope.graph hplain
  have hyields : Yields (Traversal.traverse (tested (fitsAt scope.graph)) scope.limits a
      scope.graph start) (Explored scope.graph a (Automaton.bySymbol (Symbol.Matches scope.graph))
        start scope.limits) :=
    traverseVia_yields hg.wellFormed ha.wellFormed.toIndexed hvisited (decides_fitsAt scope.graph)
  rcases hyields with ⟨search, hsearch, hexplored⟩
  have htakes : ∀ t ∈ a.transitions, t.symbol.isEpsilon = false → ∀ v e,
      constantly.rel (takes scope (result scope) t v e) (tested (fitsAt scope.graph) t v e) :=
    fun t ht hsymbol => takes_plain scope (result scope) hsymbol (hplain t ht)
  have hreachable := constantly.reachable scope.limits scope.graph htakes start w
  have hsystem := constantly.pathSystem scope.limits scope.graph htakes start w
  refine ⟨w.supply.handles, ⟨start, search.accepted, search.visits, a.finals⟩,
    { w with supply := { w.supply with handles := w.supply.handles + 1 } }, ?_, ?_,
    hexplored.exact hg.wellFormed ha.wellFormed.toIndexed ⟨rfl, rfl, rfl⟩⟩
  · rw [pathSystem, pathSystemValue, bind_apply, hsystem, Traversal.pathSystem, hsearch]
    rfl
  · rw [reachable, hreachable, Traversal.reachable, hsearch]
    rfl

theorem roundTrips_describesPath : roundTrips.DescribesPath 3 := by
  have hclosed : ∀ n node, True → roundTrips.get n = .ok node →
      node.DescribesPath ∧ ∀ part ∈ node.pathParts, True := by
    intro n node _ hget
    match n with
    | 0 | 1 | 2 | 3 | 4 =>
      cases hget
      exact ⟨.inl rfl, fun _ _ => trivial⟩
    | _ + 5 => cases hget
  exact SyntaxGraph.describesPath_of_closed hclosed trivial

def roundTripScope : Scope where
  graph := towns
  nodes := roundTrips
  limits := { maxHops := some 3 }

theorem pathSystem_exact_towns : ∃ a supply',
    compilePathDescription towns roundTrips 3 {} = (.ok a, supply') ∧ a.Built ∧
      (∀ t ∈ a.transitions, t.symbol.isPlain = true) ∧ ∃ handle ps w',
        pathSystem roundTripScope a (.singleton 0) {} = (.ok (.pathSystem handle ps), w') ∧
          reachable roundTripScope a (.singleton 0) {} = (.ok ps.reachable, {}) ∧
          ps.Exact towns a (.singleton 0) := by
  obtain ⟨p, hp, hadmissible⟩ := SyntaxGraph.exists_unfolds roundTrips_isPlainDescription
  have hcompiles : ∃ a supply', compilePathDescription towns roundTrips 3 {} = (.ok a, supply') ∧
      a.Recognizes towns (p.language towns) :=
    compilePathDescription_complete hp hadmissible {}
  obtain ⟨a, supply', hcompile, ha⟩ := hcompiles
  have hbuilt := built_of_compilePathDescription roundTrips_describesPath hcompile
  have hplain : ∀ t ∈ a.transitions, t.symbol.isPlain = true := fun _ => ha.plain
  exact ⟨a, supply', hcompile, hbuilt, hplain,
    pathSystem_exact towns_constructed hbuilt hplain rfl (.singleton 0) {}⟩

end Evaluation
end PathQuery

import Mathlib.Data.Set.Card
import PathQuery.Proofs.Path.Recognized

/-!
# The limit on visited pairs

A traversal that may visit only so many pairs is compared with one that may visit all.

* `Search.capped`: a search, or the error if it has visited too many pairs;
* `CapsTo`: a computation without the limit succeeds and only adds to a search, and the one with the
  limit ends with the same search, capped;
* `visit_capsTo`, `expand_capsTo`, `run_capsTo`: so do all parts of a traversal;
* `ReachedPairs`: the pairs that walks within the bound on hops lead to;
* `Explored.encard_reachedPairs`: a finished search has visited exactly these;
* `traverse_limited`: so the limit is hit if and only if there are more of them.
-/

namespace PathQuery

/-- The limits without the one on visited pairs. -/
def Limits.uncapped (limits : Limits) : Limits :=
  { limits with maxVisited := none }

/-- The scope with all pairs open to visits. -/
def Scope.uncapped (scope : Scope) : Scope :=
  { scope with limits := scope.limits.uncapped }

/-- The search as it ends when only so many pairs may be visited. -/
def Search.capped (limit : Nat) (search : Search) : Except Failure Search :=
  if search.queue.size ≤ limit then .ok search
  else .error (.error (.traversalLimit limit))

/-- The second computation goes on from a search and never fails; the first one does the same up to
the limit. -/
def CapsTo (limit : Nat) (search : Search) (x y : Except Failure Search) : Prop :=
  ∃ t, y = .ok t ∧ search.queue.size ≤ t.queue.size ∧
    (search.queue.size ≤ limit → x = t.capped limit)

namespace CapsTo

variable {limit : Nat} {search : Search}

theorem pure (limit : Nat) (search : Search) :
    CapsTo limit search (Pure.pure search) (Pure.pure search) :=
  ⟨search, rfl, Nat.le_refl _, fun h => (if_pos h).symm⟩

/-- Once the limit is passed, it stays passed. -/
theorem bind {x y : Except Failure Search} {f k : Search → Except Failure Search}
    (hxy : CapsTo limit search x y) (hfk : ∀ t, CapsTo limit t (f t) (k t)) :
    CapsTo limit search (x >>= f) (y >>= k) := by
  rcases hxy with ⟨t, rfl, hst, hx⟩
  rcases hfk t with ⟨u, hu, htu, hf⟩
  refine ⟨u, hu, Nat.le_trans hst htu, fun hsearch => ?_⟩
  rw [hx hsearch]
  by_cases ht : t.queue.size ≤ limit
  · calc
      (t.capped limit >>= f) = f t := by rw [Search.capped, if_pos ht]; rfl
      _ = u.capped limit := hf ht
  · have hu : ¬ u.queue.size ≤ limit := fun h => ht (Nat.le_trans htu h)
    rw [Search.capped, Search.capped, if_neg ht, if_neg hu]
    rfl

theorem foldlM {γ : Type} {f k : Search → γ → Except Failure Search} {xs : List γ}
    (h : ∀ x ∈ xs, ∀ s, CapsTo limit s (f s x) (k s x)) (search : Search) :
    CapsTo limit search (xs.foldlM f search) (xs.foldlM k search) := by
  induction xs generalizing search with
  | nil => exact pure limit search
  | cons x xs ih =>
    rw [List.foldlM_cons, List.foldlM_cons]
    refine (h x List.mem_cons_self search).bind ?_
    intro t
    exact ih (fun y hy => h y (List.mem_cons_of_mem x hy)) t

end CapsTo

namespace Traversal

section Parts

variable {limits : Limits} {limit : Nat} (hlimit : limits.maxVisited = some limit) (a : Automaton)
  (g : Graph)
include hlimit

/-- The visit that is one too many fails. -/
theorem visit_capsTo (v : Nat) (step : PathStep) (search : Search) (s : StateId) :
    CapsTo limit search (visit limits a v step search s)
      (visit limits.uncapped a v step search s) := by
  have hsize : (record a search v s step).queue.size = search.queue.size + 1 := Array.size_push _
  unfold visit
  split
  · exact .pure limit search
  · refine ⟨record a search v s step, rfl, by omega, fun _ => ?_⟩
    rw [Limits.exceededBy, hlimit, Search.capped, hsize]
    by_cases hfull : search.queue.size + 1 ≤ limit
    · have hroom : (some limit).filter (· < search.queue.size + 1) = none := by
        simpa using hfull
      rw [hroom, if_pos hfull]
      rfl
    · have hnone : (some limit).filter (· < search.queue.size + 1) = some limit := by
        simpa using hfull
      rw [hnone, if_neg hfull]
      rfl

theorem visitAll_capsTo (v : Nat) (step : PathStep) (search : Search) (states : IdSet) :
    CapsTo limit search (visitAll limits a v step search states)
      (visitAll limits.uncapped a v step search states) :=
  .foldlM (fun s _ t => visit_capsTo hlimit a v step t s) search

theorem seed_capsTo (ha : a.Indexed) (start : IdSet) :
    CapsTo limit {} (seed limits a g start) (seed limits.uncapped a g start) := by
  have hstates : (initialStates a : Except Failure IdSet) = pure (a.epsilonClosure a.initial) := by
    simp [initialStates, Automaton.missing, ha.initial_lt]
  refine .foldlM (fun v _ search => ?_) {}
  rw [hstates, pure_bind]
  exact visitAll_capsTo hlimit a v ⟨none, 0⟩ search _

variable (verdict : Transition → Nat → Incidence → Bool)
  (directionOf : List Transition → Direction)

theorem takeEdge_capsTo (p : Pair) (t : Transition) (search : Search) (e : Incidence) :
    CapsTo limit search (takeEdge (tested verdict) limits a g p t search e)
      (takeEdge (tested verdict) limits.uncapped a g p t search e) := by
  simp only [takeEdge, tested, pure_bind]
  split
  · split
    · exact .pure limit search
    · exact visitAll_capsTo hlimit a _ _ search _
  · exact .pure limit search

theorem expand_capsTo (p : Pair) (search : Search) :
    CapsTo limit search (expand (tested verdict) limits a g directionOf p search)
      (expand (tested verdict) limits.uncapped a g directionOf p search) :=
  .foldlM (fun t _ search =>
    .foldlM (fun e _ search => takeEdge_capsTo hlimit a g verdict p t search e) search) search

/-- Both expand the same pairs of the queue, as long as the limit is not passed. -/
theorem run_capsTo (bound i : Nat) (search : Search) :
    CapsTo limit search (run (tested verdict) limits a g directionOf bound i search)
      (run (tested verdict) limits.uncapped a g directionOf bound i search) := by
  induction bound generalizing i search with
  | zero => exact .pure limit search
  | succ bound ih =>
    unfold run
    cases search.queue[i]? with
    | none => exact .pure limit search
    | some p =>
      have hstops : limits.uncapped.stopsAt p.hops = limits.stopsAt p.hops := rfl
      simp only [hstops]
      split
      · exact ih (i + 1) search
      · exact (expand_capsTo hlimit a g verdict directionOf p search).bind (ih (i + 1))

theorem traverseVia_capsTo (ha : a.Indexed) (start : IdSet) :
    CapsTo limit {} (traverseVia (tested verdict) directionOf limits a g start)
      (traverseVia (tested verdict) directionOf limits.uncapped a g start) :=
  (seed_capsTo hlimit a.withClosures g ha.withClosures start).bind
    (run_capsTo hlimit a.withClosures g verdict directionOf _ 0)

end Parts

end Traversal

/-! ## Reached pairs -/

/-- The pairs of a vertex and a state to which some walk from the start leads that is short enough
and that the automaton reads on the way to the state. -/
def ReachedPairs (g : Graph) (a : Automaton) (accepts : Transition → Incidence → Prop)
    (limits : Limits) (start : IdSet) : Set (Nat × StateId) :=
  {p | ∃ k ∈ WalkLengths g a accepts start p.1 p.2, ∀ h, limits.maxHops = some h → k ≤ h}

section Explored

variable {g : Graph} {a : Automaton} {accepts : Transition → Incidence → Prop} {start : IdSet}
  {limits : Limits} {search : Search}

theorem Explored.mem_reachedPairs (h : Explored g a accepts start limits search)
    (p : Nat × StateId) :
    p ∈ ReachedPairs g a accepts limits start ↔
      p ∈ search.queue.toList.map fun q => (q.vertex, q.state) := by
  rw [List.mem_map]
  constructor
  · rintro ⟨k, hk, hshort⟩
    rcases h.has_of_layer (mem_walkLengths.1 hk) hshort with ⟨l, _, hmem⟩
    exact ⟨_, Array.mem_toList_iff.2 hmem, rfl⟩
  · rintro ⟨q, hq, rfl⟩
    have hq := Array.mem_toList_iff.1 hq
    exact ⟨q.hops, mem_walkLengths.2 (h.sound.layer hq), fun bound => h.sound.within hq⟩

theorem Explored.encard_reachedPairs (h : Explored g a accepts start limits search) :
    (ReachedPairs g a accepts limits start).encard = search.queue.size := by
  let pairs := search.queue.toList.map fun q => (q.vertex, q.state)
  have hpairs : ReachedPairs g a accepts limits start = ↑pairs.toFinset := by
    ext p
    rw [h.mem_reachedPairs, Finset.mem_coe, List.mem_toFinset]
  rw [hpairs, Set.encard_coe_eq_coe_finsetCard, List.toFinset_card_of_nodup h.sound.nodup,
    List.length_map, Array.length_toList]

end Explored

namespace Evaluation

variable {scope : Scope} {a : Automaton}

/-- The limit is hit if and only if more pairs are reached than it allows.  If it is not, it makes
no difference: the search is the one without the limit. -/
theorem traverse_limited {limit : Nat} (hg : scope.graph.Constructed) (ha : a.Indexed)
    (hplain : ∀ t ∈ a.transitions, t.symbol.isPlain = true)
    (hlimit : scope.limits.maxVisited = some limit) (start : IdSet) (w : Workspace) :
    ((traverse scope a start w).1 = .error (.error (.traversalLimit limit)) ↔
      limit < (ReachedPairs scope.graph a (Automaton.bySymbol (Symbol.Matches scope.graph))
        scope.limits start).encard) ∧
    ((ReachedPairs scope.graph a (Automaton.bySymbol (Symbol.Matches scope.graph))
        scope.limits start).encard ≤ limit →
      ∃ search, traverse scope.uncapped a start w = (.ok search, w) ∧
        traverse scope a start w = (.ok search, w)) ∧
    (traverse scope a start w).2 = w := by
  have hyields : Yields (Traversal.traverse (tested (fitsAt scope.graph)) scope.limits.uncapped a
      scope.graph start) (Explored scope.graph a (Automaton.bySymbol (Symbol.Matches scope.graph))
        start scope.limits.uncapped) :=
    traverseVia_yields hg.wellFormed ha rfl (decides_fitsAt scope.graph)
  rcases hyields with ⟨search, hsearch, hexplored⟩
  have hcapped : Traversal.traverse (tested (fitsAt scope.graph)) scope.limits a scope.graph start =
      search.capped limit := by
    rcases Traversal.traverseVia_capsTo hlimit a scope.graph (fitsAt scope.graph)
      Traversal.incidenceDirection ha start with ⟨t, ht, _, hx⟩
    obtain rfl : search = t := Except.ok.inj (hsearch.symm.trans ht)
    exact hx (Nat.zero_le limit)
  have hcount : (ReachedPairs scope.graph a (Automaton.bySymbol (Symbol.Matches scope.graph))
      scope.limits start).encard = search.queue.size := hexplored.encard_reachedPairs
  have huncapped : traverse scope.uncapped a start w = (.ok search, w) := by
    rw [traverse_plain hplain]
    exact congrArg (·, w) hsearch
  rw [hcount, traverse_plain hplain, hcapped, Nat.cast_lt, Nat.cast_le]
  by_cases hsize : search.queue.size ≤ limit
  · rw [Search.capped, if_pos hsize]
    refine ⟨iff_of_false nofun (Nat.not_lt.2 hsize), fun _ => ⟨search, huncapped, rfl⟩, rfl⟩
  · rw [Search.capped, if_neg hsize]
    exact ⟨iff_of_true rfl (Nat.not_le.1 hsize), fun h => absurd h hsize, rfl⟩

/-- Any number of roads from town to town. -/
def anyRoads : Automaton :=
  ((Automaton.single (.step (.wildcard .outgoing)) 0).1.star 0).1

/-- One road at most, and so many visits. -/
def shortTrips (limit : Nat) : Scope where
  graph := towns
  nodes := {}
  limits := { maxHops := some 1, maxVisited := some limit }

theorem anyRoads_indexed : anyRoads.Indexed :=
  (Automaton.iterate_shape (Automaton.single_shape _ 0).wellFormed true 0).wellFormed.toIndexed

/-- Six pairs are reached, three at each town: five visits are too few, and six are enough. -/
theorem traverse_limited_towns :
    towns.Constructed ∧ anyRoads.Indexed ∧
      (∀ t ∈ anyRoads.transitions, t.symbol.isPlain = true) ∧
      (traverse (shortTrips 5) anyRoads (.singleton 0) {}).1 =
        .error (.error (.traversalLimit 5)) ∧
      (5 : ℕ∞) < (ReachedPairs towns anyRoads (Automaton.bySymbol (Symbol.Matches towns))
        (shortTrips 5).limits (.singleton 0)).encard ∧
      ∃ search, traverse (shortTrips 6).uncapped anyRoads (.singleton 0) {} = (.ok search, {}) ∧
        traverse (shortTrips 6) anyRoads (.singleton 0) {} = (.ok search, {}) := by
  have hplain : ∀ t ∈ anyRoads.transitions, t.symbol.isPlain = true := by decide
  have htowns : ∀ limit, (shortTrips limit).graph.Constructed := fun _ => towns_constructed
  have hfive := traverse_limited (htowns 5) anyRoads_indexed hplain rfl (.singleton 0) {}
  have hsix := traverse_limited (htowns 6) anyRoads_indexed hplain rfl (.singleton 0) {}
  have hhit : (traverse (shortTrips 5) anyRoads (.singleton 0) {}).1 =
      .error (.error (.traversalLimit 5)) := by
    decide +kernel
  have henough : ¬ (traverse (shortTrips 6) anyRoads (.singleton 0) {}).1 =
      .error (.error (.traversalLimit 6)) := by
    decide +kernel
  exact ⟨towns_constructed, anyRoads_indexed, hplain, hhit, hfive.1.1 hhit,
    hsix.2.1 (not_lt.1 (mt hsix.1.2 henough))⟩

end Evaluation

end PathQuery

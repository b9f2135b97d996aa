import PathQuery.Proofs.Evaluation.Ensures
import PathQuery.Proofs.Path.Search

/-!
# Traversals end by themselves

A search expands the pairs of its queue one after the other, with a bound on how many.  Here the
tests may do anything, forget results and fail included; still no pair is visited twice, so the
queue ends before the bound is reached.

* `Search.Distinct`: the visited pairs are different pairs of a vertex and a state;
* `visit_distinct`, `expand_distinct`, `seed_distinct`: the parts of the search keep this;
* `run_add`: beyond the number of pairs a bound makes no difference;
* `traverseWithin_eq`: so the whole search is the same with every larger bound.
-/

namespace PathQuery

/-! ## Different pairs -/

structure Search.Distinct (g : Graph) (a : Automaton) (search : Search) : Prop where
  nodup : (search.queue.toList.map fun p => (p.vertex, p.state)).Nodup
  visited {p : Pair} : p ∈ search.queue → search.visits.contains p.vertex p.state = true
  vertex_lt {p : Pair} : p ∈ search.queue → p.vertex < g.vertexCount
  state_lt {p : Pair} : p ∈ search.queue → p.state < a.stateCount

namespace Search.Distinct

variable {g : Graph} {a : Automaton} {search : Search}

theorem empty (g : Graph) (a : Automaton) : Distinct g a {} where
  nodup := List.nodup_nil
  visited h := absurd h (Array.not_mem_empty _)
  vertex_lt h := absurd h (Array.not_mem_empty _)
  state_lt h := absurd h (Array.not_mem_empty _)

theorem size_le (h : Distinct g a search) : search.queue.size ≤ g.vertexCount * a.stateCount :=
  size_le_of_nodup h.nodup h.vertex_lt h.state_lt

/-- Only a pair that was not visited is recorded. -/
theorem record (h : Distinct g a search) {v : Nat} {s : StateId} {step : PathStep}
    (hnew : search.visits.contains v s = false) (hv : v < g.vertexCount)
    (hs : s < a.stateCount) : Distinct g a (Traversal.record a search v s step) := by
  constructor
  · rw [Traversal.record, Array.toList_push, List.map_append, List.nodup_append]
    refine ⟨h.nodup, List.nodup_singleton _, ?_⟩
    rintro key hkey _ hlast rfl
    rcases List.mem_map.1 hkey with ⟨p, hp, hpkey⟩
    have hvisited := h.visited (Array.mem_toList_iff.1 hp)
    rw [List.map_singleton, List.mem_singleton, ← hpkey, Prod.mk.injEq] at hlast
    rw [hlast.1, hlast.2, hnew] at hvisited
    cases hvisited
  · intro p hp
    rw [Visits.contains, Traversal.record, Visits.find_insert]
    split
    · rfl
    · rename_i hother
      rcases mem_record.1 hp with hp | rfl
      · exact h.visited hp
      · exact absurd ⟨rfl, rfl⟩ hother
  · intro p hp
    rcases mem_record.1 hp with hp | rfl
    · exact h.vertex_lt hp
    · exact hv
  · intro p hp
    rcases mem_record.1 hp with hp | rfl
    · exact h.state_lt hp
    · exact hs

end Search.Distinct

namespace Traversal

open Eval Search

/-! ## The parts of the search -/

/-- An evaluation that ends with a search, ends with different pairs. -/
abbrev KeepsDistinct (g : Graph) (a : Automaton) (w : Workspace) (x : Eval Search) : Prop :=
  x.Ensures w (fun search _ => Distinct g a search) fun _ _ => True

section Parts

variable {g : Graph} {a : Automaton} {limits : Limits} {search : Search} {w : Workspace}
  {accepts : Transition → Nat → Incidence → Eval Bool} {directionOf : List Transition → Direction}

theorem visit_distinct (h : Distinct g a search) {v : Nat} (hv : v < g.vertexCount) {s : StateId}
    (hs : s < a.stateCount) (step : PathStep) :
    KeepsDistinct g a w (visit limits a v step search s) := by
  unfold visit
  cases hnew : search.visits.contains v s with
  | true => exact Ensures.pure h
  | false =>
    simp only [Bool.false_eq_true, if_false]
    split
    · trivial
    · exact Ensures.pure (h.record hnew hv hs)

theorem visitAll_distinct (h : Distinct g a search) {v : Nat} (hv : v < g.vertexCount)
    {states : IdSet} (hstates : ∀ s ∈ states, s < a.stateCount) (step : PathStep) :
    KeepsDistinct g a w (visitAll limits a v step search states) :=
  Ensures.foldlM (fun _ search _ => Distinct g a search) []
    (fun s hs _ _ _ hsearch => visit_distinct hsearch hv (hstates s hs) step) h

variable (ha : a.Indexed) (hg : g.WellFormed)
include ha

theorem lt_of_mem_epsilonClosure {s t : StateId} (hs : s < a.stateCount)
    (ht : t ∈ a.epsilonClosure s) : t < a.stateCount :=
  Automaton.bridged_lt ha ((Automaton.mem_epsilonClosure ha hs).1 ht) hs

theorem seed_distinct (start : IdSet) : KeepsDistinct g a w (seed limits a g start) := by
  refine Ensures.foldlM (fun _ search _ => Distinct g a search) [] ?_ (.empty g a)
  intro v hv _ search w' hsearch
  have hvertex := Graph.containsVertex_iff.1 (List.mem_filter.1 hv).2
  have hstates : (initialStates a : Eval IdSet) = pure (a.epsilonClosure a.initial) := by
    simp [initialStates, Automaton.missing, ha.initial_lt]
  rw [hstates, pure_bind]
  exact visitAll_distinct hsearch hvertex
    (fun s hs => lt_of_mem_epsilonClosure ha ha.initial_lt hs) _

include hg

theorem takeEdge_distinct (h : Distinct g a search) (p : Pair) {t : Transition}
    (ht : t ∈ a.transitions) (e : Incidence) :
    KeepsDistinct g a w (takeEdge accepts limits a g p t search e) := by
  -- Nothing is known of the test, and nothing needs to be.
  have htest : (accepts t p.vertex e).Ensures w (fun _ _ => True) fun _ _ => True := by
    unfold Ensures
    split <;> trivial
  refine htest.bind ?_
  intro accepted w' _
  cases accepted with
  | false => exact Ensures.pure h
  | true =>
    simp only [if_true]
    split
    · exact Ensures.pure h
    · rename_i v hthat
      exact visitAll_distinct h (hg.that_lt hthat)
        (fun s hs => lt_of_mem_epsilonClosure ha (ha.target_lt ht) hs) _

theorem expand_distinct (h : Distinct g a search) (p : Pair) :
    KeepsDistinct g a w (expand accepts limits a g directionOf p search) := by
  refine Ensures.foldlM (fun _ search _ => Distinct g a search) [] ?_ h
  intro t ht _ search w' hsearch
  have hmem := a.mem_of_mem_outTransitions (List.mem_filter.1 ht).1
  refine Ensures.foldlM (fun _ search _ => Distinct g a search) [] ?_ hsearch
  intro e _ _ search w'' hsearch
  exact takeEdge_distinct ha hg hsearch p hmem e

/-! ## The whole search -/

/-- The place in the queue and the bound add up to the number of pairs, so the queue ends first. -/
theorem run_add (extra : Nat) {bound i : Nat} (h : Distinct g a search)
    (hbound : g.vertexCount * a.stateCount ≤ bound + i) :
    run accepts limits a g directionOf (bound + extra) i search w =
      run accepts limits a g directionOf bound i search w := by
  induction bound generalizing i search w with
  | zero =>
    have hsize := h.size_le
    have hend : search.queue[i]? = none := Array.getElem?_eq_none_iff.2 (by omega)
    cases extra with
    | zero => rfl
    | succ extra =>
      unfold run
      simp only [hend]
  | succ bound ih =>
    have hnext : g.vertexCount * a.stateCount ≤ bound + (i + 1) := by omega
    rw [Nat.add_right_comm]
    unfold run
    cases search.queue[i]? with
    | none => rfl
    | some p =>
      cases hstops : limits.stopsAt p.hops with
      | true =>
        simp only [hstops, if_true]
        exact ih h hnext
      | false =>
        simp only [hstops, Bool.false_eq_true, if_false]
        exact (expand_distinct ha hg h p).bind_congr fun search w' hsearch => ih hsearch hnext

end Parts

/-- The whole search, with any bound on the number of expansions. -/
def traverseWithin (bound : Nat) (accepts : Transition → Nat → Incidence → Eval Bool)
    (limits : Limits) (a : Automaton) (g : Graph) (start : IdSet) : Eval Search := do
  let a := a.withClosures
  let search ← seed limits a g start
  run accepts limits a g incidenceDirection bound 0 search

/-- The bound that the search has is never what ends it. -/
theorem traverseWithin_eq {g : Graph} (hg : g.WellFormed) {a : Automaton} (ha : a.Indexed)
    {bound : Nat} (hbound : g.vertexCount * a.stateCount ≤ bound)
    (accepts : Transition → Nat → Incidence → Eval Bool) (limits : Limits) (start : IdSet) :
    traverseWithin bound accepts limits a g start = traverse accepts limits a g start := by
  obtain ⟨extra, rfl⟩ := Nat.exists_eq_add_of_le hbound
  have ha' := ha.withClosures
  funext w
  exact (seed_distinct ha' start).bind_congr fun search w' hsearch =>
    run_add ha' hg extra hsearch (Nat.le_refl _)

end Traversal

end PathQuery

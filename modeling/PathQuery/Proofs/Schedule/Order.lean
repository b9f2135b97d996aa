import PathQuery.Proofs.Schedule.Invariant

/-!
# The order of a batch

Queries that wait for nothing are taken one after the other, and whatever waited only for them is
put behind the queue.

* `Sorted`: every query once, after all those that it depends on;
* `Eliminating`: what is true of the queue, the counts and the order between two queries;
* `Eliminating.next`, `Eliminating.rounds`: each round keeps it;
* `topologicalOrder_eq_ok`: an order that is found is one of all queries;
* `Sorted.acyclic`: and there is none if a query depends on itself.
-/

namespace PathQuery
namespace DependencyGraph

variable {dag : DependencyGraph} {queue order : List Nat} {indegree : Array Int} {i j : Nat}

/-- Every query of the list is in it once, after all those that it depends on. -/
structure Sorted (dag : DependencyGraph) (order : List Nat) : Prop where
  nodup : order.Nodup
  lt_size {i : Nat} : i ∈ order → i < dag.size
  after {before rest : List Nat} {i p : Nat} : order = before ++ i :: rest →
    p ∈ dag.predecessorsOf i → p ∈ before

theorem sorted_nil (dag : DependencyGraph) : dag.Sorted [] where
  nodup := List.nodup_nil
  lt_size h := absurd h List.not_mem_nil
  after hsplit := by simp at hsplit

theorem Sorted.snoc (hs : dag.Sorted order) (hlt : i < dag.size) (hnew : i ∉ order)
    (hready : ∀ p ∈ dag.predecessorsOf i, p ∈ order) : dag.Sorted (order ++ [i]) where
  nodup := hs.nodup.append (List.nodup_singleton i) fun j hold hsingle => by
    rw [List.mem_singleton] at hsingle
    exact hnew (hsingle ▸ hold)
  lt_size {j} hmem := by
    rcases List.mem_append.1 hmem with hold | hlast
    · exact hs.lt_size hold
    · rwa [List.mem_singleton.1 hlast]
  after {before rest j p} hsplit hp := by
    rcases List.eq_nil_or_concat rest with rfl | ⟨rest, last, rfl⟩
    · obtain ⟨rfl, hone⟩ := List.append_inj' hsplit rfl
      obtain rfl : i = j := by simpa using hone
      exact hready p hp
    · have hsplit : order ++ [i] = (before ++ j :: rest) ++ [last] := by simpa using hsplit
      exact hs.after (List.append_inj' hsplit rfl).1 hp

/-! ## One query after the other -/

/-- How many queries `j` waits for that are not in the order yet. -/
def missing (dag : DependencyGraph) (order : List Nat) (j : Nat) : Nat :=
  (dag.predecessorsOf j).countP fun p => !order.contains p

theorem missing_eq_zero_iff : dag.missing order j = 0 ↔ ∀ p ∈ dag.predecessorsOf j, p ∈ order := by
  simp [missing, List.countP_eq_zero]

theorem missing_snoc (hw : dag.WellFormed) (hnew : i ∉ order) (j : Nat) :
    dag.missing order j =
      dag.missing (order ++ [i]) j + if j ∈ dag.successorsOf i then 1 else 0 := by
  have hlost : (!(order ++ [i]).contains i) = false := by simp
  have hkept : ∀ x, x ≠ i → (!order.contains x) = !(order ++ [i]).contains x := fun x hx => by
    simp [hx]
  simp only [missing, Batch.countP_eq_of_lost (hw.nodup_predecessorsOf j) hlost hkept,
    hw.mem_successorsOf_iff]
  simp [hnew]

/-- The queries in the queue and in the order are those that wait for nothing any more. -/
structure Eliminating (dag : DependencyGraph) (queue : List Nat) (indegree : Array Int)
    (order : List Nat) : Prop where
  sorted : dag.Sorted order
  nodup : (order ++ queue).Nodup
  count (j : Nat) : indegree[j]? =
    if j < dag.size then some (dag.missing order j : Int) else none
  mem_iff (j : Nat) : j ∈ order ++ queue ↔ indegree[j]? = some 0

theorem eliminating_start (dag : DependencyGraph) :
    Eliminating dag (roots dag.indegrees) dag.indegrees [] where
  sorted := sorted_nil dag
  nodup := Batch.roots_nodup dag.indegrees
  count j := by
    simp only [missing, List.contains_nil, Bool.not_false, List.countP_true]
    exact Batch.indegree_initial {} {} j
  mem_iff j := Batch.mem_roots_iff dag.indegrees j

namespace Eliminating

theorem missing_of_mem (he : Eliminating dag queue indegree order) (hmem : j ∈ order ++ queue) :
    j < dag.size ∧ dag.missing order j = 0 := by
  have hcount := (he.count j).symm.trans ((he.mem_iff j).1 hmem)
  split at hcount
  next hlt => exact ⟨hlt, by simpa using hcount⟩
  next => cases hcount

theorem next (he : Eliminating dag (i :: queue) indegree order) (hw : dag.WellFormed) :
    Eliminating dag (queue ++ ((dag.successorsOf i).foldl release (indegree, [])).2)
      ((dag.successorsOf i).foldl release (indegree, [])).1 (order ++ [i]) := by
  obtain ⟨hcounts, hfreed⟩ := foldl_release (hw.nodup_successorsOf i) indegree []
  have hnodup : (order ++ [i] ++ queue).Nodup := by simpa using he.nodup
  have hnew : i ∉ order := fun hold =>
    (List.nodup_append.1 he.nodup).2.2 i hold i List.mem_cons_self rfl
  have hfirst : i ∈ order ++ i :: queue := by simp
  have hsplit (j : Nat) : j ∈ order ++ i :: queue ↔ j ∈ order ++ [i] ++ queue := by simp
  obtain ⟨hlt, hready⟩ := he.missing_of_mem hfirst
  have hmissing := missing_snoc hw hnew
  -- A successor of the query was still waiting for it, so that it was not taken before.
  have hwaiting : ∀ s ∈ dag.successorsOf i, s ∉ order ++ i :: queue := fun s hs hmem => by
    have hnone_left := (he.missing_of_mem hmem).2
    have hone_more := hmissing s
    rw [if_pos hs] at hone_more
    omega
  have hmem_freed (s : Nat) : s ∈ ((dag.successorsOf i).foldl release (indegree, [])).2 ↔
      s ∈ dag.successorsOf i ∧ indegree[s]? = some 1 := by
    simp [hfreed]
  constructor
  case sorted => exact he.sorted.snoc hlt hnew (missing_eq_zero_iff.1 hready)
  case nodup =>
    rw [← List.append_assoc]
    refine hnodup.append ?_ fun s hold hlate => ?_
    · rw [hfreed]
      exact (hw.nodup_successorsOf i).filter _
    · exact hwaiting s ((hmem_freed s).1 hlate).1 ((hsplit s).2 hold)
  case count =>
    intro j
    rw [hcounts, he.count]
    have := hmissing j
    split
    next hmem =>
      rw [if_pos hmem] at this
      rw [if_pos (hw.successor_lt hmem), if_pos (hw.successor_lt hmem)]
      simp [this]
    next hother =>
      rw [if_neg hother] at this
      simp [this]
  case mem_iff =>
    intro j
    rw [← List.append_assoc, List.mem_append, ← hsplit, he.mem_iff, hmem_freed, hcounts]
    split
    next hmem =>
      have hbusy : indegree[j]? ≠ some 0 := fun hzero => hwaiting j hmem ((he.mem_iff j).2 hzero)
      cases h : indegree[j]? with
      | none => simp
      | some n =>
        rw [h] at hbusy
        have : n - 1 = 0 ↔ n = 1 := by omega
        simp_all
    next hother => simp [hother]

/-- A query that is in the queue or in the order exists. -/
theorem length_le (he : Eliminating dag queue indegree order) :
    order.length + queue.length ≤ dag.size := by
  have hwithin : order ++ queue ⊆ List.range dag.size := fun _ hmem =>
    List.mem_range.2 (he.missing_of_mem hmem).1
  simpa using (he.nodup.subperm hwithin).length_le

/-- The rounds go on until the queue is empty, or the bound is reached. -/
theorem rounds (he : Eliminating dag queue indegree order) (hw : dag.WellFormed) (bound : Nat) :
    ∃ left, Eliminating dag left (dag.eliminate bound queue indegree order).2
        (dag.eliminate bound queue indegree order).1 ∧
      (left = [] ∨ (dag.eliminate bound queue indegree order).1.length = order.length + bound) := by
  induction bound generalizing queue indegree order with
  | zero => exact ⟨queue, he, .inr rfl⟩
  | succ bound ih =>
    cases queue with
    | nil => exact ⟨[], he, .inl rfl⟩
    | cons i queue =>
      obtain ⟨left, he', hended⟩ := ih (he.next hw)
      refine ⟨left, he', hended.imp_right fun hlength => ?_⟩
      rw [List.length_append, List.length_singleton] at hlength
      exact hlength.trans (Nat.add_right_comm _ _ _)

end Eliminating

/-! ## Orders of all queries -/

/-- No list of different queries is longer than one with all of them. -/
theorem Sorted.mem_of_lt (hs : dag.Sorted order) (hlong : dag.size ≤ order.length)
    (hlt : i < dag.size) : i ∈ order := by
  have hwithin : order ⊆ List.range dag.size := fun j hmem => List.mem_range.2 (hs.lt_size hmem)
  have hall := hs.nodup.subperm hwithin |>.perm_of_length_le (by simpa using hlong)
  exact hall.mem_iff.2 (List.mem_range.2 hlt)

theorem topologicalOrder_eq_ok (hw : dag.WellFormed) {names : List String}
    (h : dag.topologicalOrder = .ok names) :
    ∃ order, names = order.map dag.nameOf ∧ dag.Sorted order ∧ ∀ i < dag.size, i ∈ order := by
  obtain ⟨-, ⟨hsorted, -, -, -⟩, -⟩ := (eliminating_start dag).rounds hw dag.size
  unfold topologicalOrder at h
  by_cases hshort : (dag.eliminate dag.size (roots dag.indegrees) dag.indegrees []).1.length <
    dag.size
  · simp [hshort] at h
  · simp only [hshort, if_false] at h
    exact ⟨_, (Except.ok.inj h).symm, hsorted, fun i hlt =>
      hsorted.mem_of_lt (Nat.le_of_not_lt hshort) hlt⟩

/-- All that a query depends on, over however many others, is before it. -/
theorem Sorted.mem_of_transGen (hs : dag.Sorted order) {before rest : List Nat} {i p : Nat}
    (hsplit : order = before ++ i :: rest) (hpath : Relation.TransGen dag.DependsOn i p) :
    p ∈ before := by
  induction hpath with
  | single hdepends => exact hs.after hsplit hdepends
  | @tail j _ _ hdepends ih =>
    obtain ⟨xs, ys, rfl⟩ := List.append_of_mem ih
    have hsplit : order = xs ++ j :: (ys ++ i :: rest) := by simpa using hsplit
    exact List.mem_append_left _ (hs.after hsplit hdepends)

/-- A query that depends on itself would have to come before itself. -/
theorem Sorted.not_transGen_self (hs : dag.Sorted order) (hmem : i ∈ order) :
    ¬ Relation.TransGen dag.DependsOn i i := by
  intro hcycle
  obtain ⟨before, rest, rfl⟩ := List.append_of_mem hmem
  have htwice := hs.mem_of_transGen rfl hcycle
  exact (List.nodup_append.1 hs.nodup).2.2 i htwice i List.mem_cons_self rfl

theorem Sorted.acyclic (hs : dag.Sorted order) (hall : ∀ i < dag.size, i ∈ order) :
    dag.Acyclic := by
  intro i hcycle
  obtain ⟨p, hdepends, -⟩ := Relation.TransGen.head'_iff.1 hcycle
  exact hs.not_transGen_self (hall i (lt_size_of_mem_predecessorsOf hdepends)) hcycle

end DependencyGraph
end PathQuery

import PathQuery.Proofs.Schedule.Order
import PathQuery.Proofs.Schedule.Requests

/-!
# Which queries are put in order

Queries are taken as long as there is one that waits for nothing.  Those that are left over then lie
on a cycle or depend on one, over however many others.

* `Blocked`: a query for which this is so;
* `Eliminating.finished`: when there have been enough rounds, the queue is empty;
* `Eliminating.mem_iff_not_blocked`: the queries that are taken are those that are not blocked;
* `topologicalOrder_complete`: an order is found exactly if no query depends on itself;
* `topologicalOrder_lists_blocked`: otherwise the blocked queries are reported, which are more than
  those on the cycles (`topologicalOrder_lists_tail`).
-/

namespace PathQuery
namespace DependencyGraph

open Relation

variable {dag : DependencyGraph} {queue order : List Nat} {indegree : Array Int} {i j : Nat}

/-- The query lies on a cycle, or depends on one. -/
def Blocked (dag : DependencyGraph) (j : Nat) : Prop :=
  ∃ c, ReflTransGen dag.DependsOn j c ∧ TransGen dag.DependsOn c c

theorem Blocked.lt_size (hb : dag.Blocked j) : j < dag.size := by
  obtain ⟨c, hpath, hcycle⟩ := hb
  obtain ⟨i, hdepends, -⟩ := TransGen.head'_iff.1 (TransGen.trans_right hpath hcycle)
  exact lt_size_of_mem_predecessorsOf hdepends

/-- What has been taken after so many rounds, and how many others each query still waits for. -/
def afterRounds (dag : DependencyGraph) (bound : Nat) : List Nat × Array Int :=
  dag.eliminate bound (roots dag.indegrees) dag.indegrees []

/-! ## The end of the elimination -/

namespace Eliminating

/-- One round more than there are queries left changes nothing. -/
theorem eliminate_succ (he : Eliminating dag queue indegree order) (hw : dag.WellFormed)
    {bound : Nat}
    (henough : dag.size ≤ order.length + bound) :
    dag.eliminate (bound + 1) queue indegree order = dag.eliminate bound queue indegree order := by
  induction bound generalizing queue indegree order with
  | zero =>
    have hnone_left : queue = [] := List.length_eq_zero_iff.1 (by have := he.length_le; omega)
    rw [hnone_left]
    rfl
  | succ bound ih =>
    cases queue with
    | nil => rfl
    | cons i queue =>
      apply ih (he.next hw)
      rw [List.length_append, List.length_singleton]
      omega

theorem eliminate_of_le (he : Eliminating dag queue indegree order) (hw : dag.WellFormed)
    {bound : Nat} (henough : dag.size ≤ bound) :
    dag.eliminate bound queue indegree order = dag.eliminate dag.size queue indegree order := by
  induction bound, henough using Nat.le_induction with
  | base => rfl
  | succ bound henough ih =>
    rw [he.eliminate_succ hw (henough.trans (Nat.le_add_left _ _)), ih]

theorem finished (he : Eliminating dag queue indegree order) (hw : dag.WellFormed) :
    Eliminating dag [] (dag.eliminate dag.size queue indegree order).2
      (dag.eliminate dag.size queue indegree order).1 := by
  obtain ⟨left, hlast, rfl | hall⟩ := he.rounds hw dag.size
  · exact hlast
  · have hnone_left : left = [] := List.length_eq_zero_iff.1 (by have := hlast.length_le; omega)
    rwa [hnone_left] at hlast

theorem nonneg (he : Eliminating dag queue indegree order) {n : Int} (h : indegree[j]? = some n) :
    0 ≤ n := by
  rw [he.count] at h
  split at h
  · cases h
    exact Int.natCast_nonneg _
  · cases h

/-- The queue is empty, so whoever waits for nothing has been taken. -/
theorem mem_iff_ready (he : Eliminating dag [] indegree order) (hj : j < dag.size) :
    j ∈ order ↔ ∀ p ∈ dag.predecessorsOf j, p ∈ order := by
  have hzero := he.mem_iff j
  rw [List.append_nil, he.count, if_pos hj] at hzero
  rw [hzero, ← missing_eq_zero_iff]
  simp

theorem waits_iff (he : Eliminating dag [] indegree order) :
    indegree[j]?.any (0 < ·) = true ↔ j < dag.size ∧ j ∉ order := by
  by_cases hj : j < dag.size
  · rw [he.mem_iff_ready hj, ← missing_eq_zero_iff, he.count, if_pos hj]
    simp [hj, Nat.pos_iff_ne_zero]
  · rw [he.count, if_neg hj]
    simp [hj]

theorem mem_iff_not_blocked (he : Eliminating dag [] indegree order) (hw : dag.WellFormed)
    (hj : j < dag.size) : j ∈ order ↔ ¬ dag.Blocked j := by
  constructor
  · rintro hmem ⟨c, hpath, hcycle⟩
    refine he.sorted.not_transGen_self ?_ hcycle
    rcases reflTransGen_iff_eq_or_transGen.1 hpath with rfl | hchain
    · exact hmem
    · obtain ⟨before, rest, hsplit⟩ := List.append_of_mem hmem
      rw [hsplit]
      exact List.mem_append_left _ (he.sorted.mem_of_transGen hsplit hchain)
  · intro hfree
    refine hw.induction_from (fun c hpath hcycle => hfree ⟨c, hpath, hcycle⟩)
      (fun k hk hready => ?_) hj
    exact (he.mem_iff_ready hk).2 hready

end Eliminating

/-! ## What is answered -/

theorem Sorted.size_le_length (hs : dag.Sorted order) :
    dag.size ≤ order.length ↔ ∀ j < dag.size, j ∈ order := by
  refine ⟨fun hlong j => hs.mem_of_lt hlong, fun hall => ?_⟩
  have hwithin : List.range dag.size ⊆ order := fun j hmem => hall j (List.mem_range.1 hmem)
  simpa using (List.nodup_range.subperm hwithin).length_le

/-- The order is that of the last round, or whoever waits then is reported. -/
theorem topologicalOrder_eq (hw : dag.WellFormed) : ∃ (order left : List Nat),
    dag.Sorted order ∧ left.Sublist (List.range dag.size) ∧
    (∀ j < dag.size, j ∈ order ↔ ¬ dag.Blocked j) ∧ (∀ j, j ∈ left ↔ dag.Blocked j) ∧
    dag.topologicalOrder = if order.length < dag.size
      then .error (.cyclicDependency (left.map dag.nameOf)) else .ok (order.map dag.nameOf) := by
  have he := (eliminating_start dag).finished hw
  refine ⟨_, _, he.sorted, List.filter_sublist, fun j => he.mem_iff_not_blocked hw, fun j => ?_,
    rfl⟩
  rw [List.mem_filter, List.mem_range, he.waits_iff, ← and_assoc, and_self]
  constructor
  · rintro ⟨hj, hout⟩
    exact not_not.1 fun hfree => hout ((he.mem_iff_not_blocked hw hj).2 hfree)
  · exact fun hb => ⟨hb.lt_size, fun hmem => (he.mem_iff_not_blocked hw hb.lt_size).1 hmem hb⟩

theorem Acyclic.exists_order (hacyclic : dag.Acyclic) (hw : dag.WellFormed) :
    ∃ order, dag.topologicalOrder = .ok (order.map dag.nameOf) ∧ dag.Sorted order ∧
      ∀ j < dag.size, j ∈ order := by
  obtain ⟨order, left, hsorted, -, hmem_iff, -, hresult⟩ := topologicalOrder_eq hw
  have hall : ∀ j < dag.size, j ∈ order := fun j hj =>
    (hmem_iff j hj).2 fun ⟨c, _, hcycle⟩ => hacyclic c hcycle
  refine ⟨order, ?_, hsorted, hall⟩
  rw [hresult, if_neg (Nat.not_lt.2 (hsorted.size_le_length.2 hall))]

theorem topologicalOrder_eq_error (hw : dag.WellFormed) (hcycle : TransGen dag.DependsOn i i) :
    ∃ left : List Nat,
      dag.topologicalOrder = .error (.cyclicDependency (left.map dag.nameOf)) ∧
      left.Sublist (List.range dag.size) ∧ ∀ j, j ∈ left ↔ dag.Blocked j := by
  obtain ⟨order, left, hsorted, hwithin, hmem_iff, hleft_iff, hresult⟩ := topologicalOrder_eq hw
  have hblocked : dag.Blocked i := ⟨i, .refl, hcycle⟩
  have hshort : order.length < dag.size := by
    by_contra hlong
    have hmem := hsorted.mem_of_lt (Nat.le_of_not_lt hlong) hblocked.lt_size
    exact (hmem_iff i hblocked.lt_size).1 hmem hblocked
  exact ⟨left, by rw [hresult, if_pos hshort], hwithin, hleft_iff⟩

/-! ## By name -/

variable {requests : List Request}

/-- Every query once, after all those on which it depends. -/
structure Arranges (requests : List Request) (order : List String) : Prop where
  nodup : order.Nodup
  mem_iff (name : String) : name ∈ order ↔ name ∈ queries requests
  after {before rest : List String} {s p : String} : order = before ++ s :: rest →
    Requires requests s p → p ∈ before

theorem Sorted.arranges (hsorted : (assemble requests).Sorted order)
    (hall : ∀ j < (assemble requests).size, j ∈ order) :
    Arranges requests (order.map (assemble requests).nameOf) where
  nodup := by
    have hw := (assemble_built requests).wellFormed
    refine hsorted.nodup.map_on fun i hi j hj hsame => ?_
    exact hw.nameOf_inj (hsorted.lt_size hi) (hsorted.lt_size hj) hsame
  mem_iff name := by
    rw [← names_assemble, ← map_nameOf_range, List.mem_map, List.mem_map]
    refine exists_congr fun j => and_congr_left fun _ => ?_
    exact ⟨fun hmem => List.mem_range.2 (hsorted.lt_size hmem),
      fun hmem => hall j (List.mem_range.1 hmem)⟩
  after {before rest s p} hsplit hrequires := by
    obtain ⟨first, last, hparts, rfl, hnames⟩ := List.map_eq_append_iff.1 hsplit
    obtain ⟨j, others, rfl, rfl, rfl⟩ := List.map_eq_cons_iff.1 hnames
    have hmem : j ∈ order := by simp [hparts]
    obtain ⟨i, hdepends, rfl⟩ := hrequires.exists_position rfl (hsorted.lt_size hmem)
    exact List.mem_map_of_mem (hsorted.after hparts hdepends)

/-- However many rounds are allowed, the elimination is over after as many as there are queries, and
no count falls below zero.  An order is found exactly if no query depends on itself, and every order
that is found is one of all queries. -/
theorem topologicalOrder_complete (requests : List Request) :
    (∀ bound ≥ (assemble requests).size,
      (assemble requests).afterRounds bound =
        (assemble requests).afterRounds (assemble requests).size) ∧
    (∀ (bound j : Nat) (n : Int),
      ((assemble requests).afterRounds bound).2[j]? = some n → 0 ≤ n) ∧
    ((∃ order, (assemble requests).topologicalOrder = .ok order) ↔
      ∀ name, ¬ TransGen (Requires requests) name name) ∧
    (∀ order, (assemble requests).topologicalOrder = .ok order → Arranges requests order) := by
  have hw := (assemble_built requests).wellFormed
  have hstart := eliminating_start (assemble requests)
  refine ⟨fun bound henough => hstart.eliminate_of_le hw henough, fun bound j n h => ?_, ?_,
    fun names h => ?_⟩
  · obtain ⟨left, he, -⟩ := hstart.rounds hw bound
    exact he.nonneg h
  · rw [← acyclic_assemble_iff]
    constructor
    · rintro ⟨names, h⟩
      obtain ⟨order, -, hsorted, hall⟩ := topologicalOrder_eq_ok hw h
      exact hsorted.acyclic hall
    · intro hacyclic
      obtain ⟨order, hresult, -⟩ := hacyclic.exists_order hw
      exact ⟨_, hresult⟩
  · obtain ⟨order, rfl, hsorted, hall⟩ := topologicalOrder_eq_ok hw h
    exact hsorted.arranges hall

theorem mem_names_blocked_iff {left : List Nat}
    (hleft_iff : ∀ j, j ∈ left ↔ (assemble requests).Blocked j) (name : String) :
    name ∈ left.map (assemble requests).nameOf ↔
      ∃ c, ReflTransGen (Requires requests) name c ∧ TransGen (Requires requests) c c := by
  have hw := (assemble_built requests).wellFormed
  simp only [List.mem_map, hleft_iff]
  constructor
  · rintro ⟨j, ⟨c, hpath, hcycle⟩, rfl⟩
    have hnamed (a b : Nat) (h : (assemble requests).DependsOn a b) :
        Requires requests ((assemble requests).nameOf a) ((assemble requests).nameOf b) :=
      (requires_iff requests _ _).2 ⟨a, b, h, rfl, rfl⟩
    exact ⟨(assemble requests).nameOf c, hpath.lift _ hnamed, hcycle.lift _ hnamed⟩
  · rintro ⟨c, hpath, hcycle⟩
    obtain ⟨j, hlt, rfl⟩ := exists_position_of_transGen (TransGen.trans_right hpath hcycle)
    rcases reflTransGen_iff_eq_or_transGen.1 hpath with rfl | hpath
    · exact ⟨j, ⟨j, .refl, (transGen_requires_self_iff hlt).1 hcycle⟩, rfl⟩
    · obtain ⟨i, hchain, rfl⟩ := (transGen_requires_iff hlt).1 hpath
      obtain ⟨k, -, hlast⟩ := TransGen.tail'_iff.1 hchain
      have hcycle := (transGen_requires_self_iff (hw.predecessor_lt hlast)).1 hcycle
      exact ⟨j, ⟨i, hchain.to_reflTransGen, hcycle⟩, rfl⟩

/-- If a query depends on itself, the blocked queries are reported, each once and in the order in
which they were added.  These are the queries on the cycles if no other query depends on one of
them. -/
theorem topologicalOrder_lists_blocked (requests : List Request) {name : String}
    (hcycle : TransGen (Requires requests) name name) :
    ∃ listed : List String,
      (assemble requests).topologicalOrder = .error (.cyclicDependency listed) ∧
      listed.Sublist (queries requests) ∧
      (∀ s, s ∈ listed ↔
        ∃ c, ReflTransGen (Requires requests) s c ∧ TransGen (Requires requests) c c) ∧
      ((∀ s c, Requires requests s c → TransGen (Requires requests) c c →
          TransGen (Requires requests) s s) →
        ∀ s, s ∈ listed ↔ TransGen (Requires requests) s s) := by
  have hw := (assemble_built requests).wellFormed
  obtain ⟨j, hlt, rfl⟩ := exists_position_of_transGen hcycle
  obtain ⟨left, hresult, hwithin, hleft_iff⟩ :=
    topologicalOrder_eq_error hw ((transGen_requires_self_iff hlt).1 hcycle)
  have hlisted_iff := mem_names_blocked_iff hleft_iff
  refine ⟨_, hresult, ?_, hlisted_iff, fun hclosed s => ?_⟩
  · rw [← names_assemble, ← map_nameOf_range]
    exact hwithin.map _
  · rw [hlisted_iff]
    constructor
    · rintro ⟨c, hpath, hcycle⟩
      induction hpath using ReflTransGen.head_induction_on with
      | refl => exact hcycle
      | head hrequires _ ih => exact hclosed _ _ hrequires ih
    · exact fun hcycle => ⟨s, .refl, hcycle⟩

/-- Two queries that depend on each other, one that depends on them, and one on which they
depend. -/
def knot : List Request :=
  let idle : Body := .procedure (.constant (.bool true))
  [.addQuery "a" idle, .addQuery "b" idle, .addQuery "c" idle, .addQuery "d" idle,
    .addDependency "a" "b", .addDependency "b" "a", .addDependency "c" "a", .addDependency "a" "d"]

theorem knot_cycle : TransGen (Requires knot) "a" "a" := by
  have hthere : Requires knot "a" "b" := ⟨knot.take 4, ⟨_, rfl⟩, by decide, by decide⟩
  have hback : Requires knot "b" "a" := ⟨knot.take 5, ⟨_, rfl⟩, by decide, by decide⟩
  exact .tail (.single hthere) hback

theorem topologicalOrder_lists_blocked_knot : TransGen (Requires knot) "a" "a" ∧
    ∃ listed : List String,
      (assemble knot).topologicalOrder = .error (.cyclicDependency listed) ∧
      listed.Sublist (queries knot) ∧
      (∀ s, s ∈ listed ↔ ∃ c, ReflTransGen (Requires knot) s c ∧ TransGen (Requires knot) c c) ∧
      ((∀ s c, Requires knot s c → TransGen (Requires knot) c c → TransGen (Requires knot) s s) →
        ∀ s, s ∈ listed ↔ TransGen (Requires knot) s s) :=
  ⟨knot_cycle, topologicalOrder_lists_blocked knot knot_cycle⟩

/-- A query that only depends on a cycle is reported with it. -/
theorem topologicalOrder_lists_tail : TransGen (Requires knot) "a" "a" ∧
    (assemble knot).topologicalOrder = .error (.cyclicDependency ["a", "b", "c"]) ∧
    ¬ TransGen (Requires knot) "c" "c" := by
  refine ⟨knot_cycle, by decide +kernel, fun hcycle => ?_⟩
  obtain ⟨p, -, ⟨earlier, hasked, -⟩⟩ := TransGen.tail'_iff.1 hcycle
  have hasked : Request.addDependency p "c" ∈ knot := hasked.subset (by simp)
  simp [knot] at hasked

end DependencyGraph
end PathQuery

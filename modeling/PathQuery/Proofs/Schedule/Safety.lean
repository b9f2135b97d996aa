import PathQuery.Proofs.Schedule.Drain
import PathQuery.Proofs.Schedule.History

/-!
# Safety of a batch

* `Batch.Safe`: what must never go wrong while the workers run a batch;
* `run_safe`: it goes wrong in no run, whatever the bodies do and in whatever order the workers
  make their steps.
-/

namespace PathQuery

/-! ## Events of one kind -/

/-- The query that was given to the workers. -/
def Event.handedOutQuery : Event → Option Nat
  | .handedOut i => some i
  | _ => none

def Event.startedQuery : Event → Option Nat
  | .started i => some i
  | _ => none

/-- The query whose body ended. -/
def Event.ranQuery : Event → Option Nat
  | .ran i _ _ => some i
  | _ => none

namespace Batch

variable {dag : DependencyGraph} {b b' : Batch} {i j : Nat} {env : SharedEnvironment}
  {supply : Supply} {history : List Event}

/-! ## Predecessors -/

theorem Consistent.indegree_of_lt (hc : Consistent dag b) (hlt : j < dag.size) :
    ∃ n, b.indegree[j]? = some n :=
  ⟨_, Array.getElem?_eq_getElem (hc.indegree_size.symm ▸ hlt)⟩

/-- A query that does not wait any more has all that it depends on. -/
theorem Consistent.predecessors_done (hc : Consistent dag b) {status : QueryStatus}
    (h : b.status[i]? = some status) (hmoved : status ≠ .pending) {p : Nat}
    (hp : p ∈ dag.predecessorsOf i) : b.isDone p = true := by
  obtain ⟨n, hn⟩ := hc.indegree_of_lt (DependencyGraph.lt_size_of_mem_predecessorsOf hp)
  have hn_zero : n = 0 := by
    by_contra hwaits
    exact hmoved (Option.some.inj (h.symm.trans ((hc.pending_iff hn).2 hwaits)))
  have hnone_left : b.waitsFor dag i = 0 := by
    have := hc.waitsFor_le hn
    omega
  have := List.countP_eq_zero.1 hnone_left p hp
  simpa using this

/-- What a query has published can be found in the environment. -/
theorem Run.result_of_isDone (hrun : Run dag env supply history b) (hw : dag.WellFormed)
    (h : b.isDone i = true) :
    ∃ value, .ran i (.ok value) (.ok ()) ∈ history ∧
      b.env.get (dag.nameOf i) = some value := by
  obtain ⟨value, hran⟩ := (hrun.published_iff hw i).1 (.inl h)
  exact ⟨value, hran, (hrun.result hw hran).2⟩

/-- The query whose body is started or has ended was in the hands of a worker. -/
theorem Step.phaseOf_of_body {events : List Event} (hstep : Step dag b events b')
    (h : .started i ∈ events ∨ ∃ outcome result, .ran i outcome result ∈ events) :
    ∃ phase, b.phaseOf i = some phase := by
  rcases h with hstarted | ⟨outcome, result, hran⟩
  · exact ⟨_, (hstep.tells hstarted).1⟩
  · obtain ⟨⟨body, hrunning⟩, -⟩ := hstep.tells hran
    exact ⟨_, hrunning⟩

/-! ## Counters -/

theorem Consistent.outstanding_pos (hc : Consistent dag b) {phase : Phase}
    (h : b.phaseOf i = some phase) : 0 < b.outstanding := by
  rw [hc.outstanding_eq]
  exact_mod_cast List.length_pos_of_mem (mem_queued_of_phaseOf h)

theorem Consistent.sinksRemaining_pos (hc : Consistent dag b) {phase : Phase}
    (h : b.phaseOf i = some phase) (hsink : dag.successorsOf i = []) : 0 < b.sinksRemaining := by
  have hhere : 0 < b.openSinks dag := by
    refine List.countP_pos_iff.2 ⟨i, List.mem_range.2 (hc.lt_size h), ?_⟩
    simp [hsink, isDone_of_active hc.toTracked h]
  rw [hc.sinksRemaining_eq]
  exact_mod_cast hhere

theorem Consistent.indegree_pos (hc : Consistent dag b) (hw : dag.WellFormed) {phase : Phase}
    (h : b.phaseOf i = some phase) (hj : j ∈ dag.successorsOf i) :
    ∃ n, b.indegree[j]? = some n ∧ 0 < n := by
  obtain ⟨n, hn⟩ := hc.indegree_of_lt (hw.successor_lt hj)
  have hhere : 0 < b.waitsFor dag j := by
    refine List.countP_pos_iff.2 ⟨i, (hw.mem_successorsOf_iff i j).1 hj, ?_⟩
    simp [isDone_of_active hc.toTracked h]
  have := hc.waitsFor_le hn
  exact ⟨n, hn, by omega⟩

/-! ## Safety -/

/-- What must hold at every moment of a batch. -/
structure Safe (dag : DependencyGraph) (history : List Event) (b : Batch) : Prop where
  /-- No query is given to the workers twice. -/
  handedOut_once : (history.filterMap Event.handedOutQuery).Nodup
  /-- No body is started twice. -/
  started_once : (history.filterMap Event.startedQuery).Nodup
  /-- No body ends twice. -/
  ran_once : (history.filterMap Event.ranQuery).Nodup
  /-- When a body is started, and when it ends, all that the query depends on is done, and the
  values can be found. -/
  predecessors_done {b' : Batch} {events : List Event} {i p : Nat} :
    Step dag b events b' →
    (.started i ∈ events ∨ ∃ outcome result, .ran i outcome result ∈ events) →
    p ∈ dag.predecessorsOf i →
    b.status[p]? = some .done ∧
      ∃ value, .ran p (.ok value) (.ok ()) ∈ history ∧ b.env.get (dag.nameOf p) = some value
  indegree_nonneg {j : Nat} {n : Int} : b.indegree[j]? = some n → 0 ≤ n
  outstanding_nonneg : 0 ≤ b.outstanding
  sinksRemaining_nonneg : 0 ≤ b.sinksRemaining
  /-- A query that is about to be counted off was counted. -/
  outstanding_pos {i : Nat} {phase : Phase} : b.phaseOf i = some phase → 0 < b.outstanding
  sinksRemaining_pos {i : Nat} {phase : Phase} :
    b.phaseOf i = some phase → dag.successorsOf i = [] → 0 < b.sinksRemaining
  /-- A query that has not been done is still waited for by each successor, which lists it once. -/
  indegree_pos {i j : Nat} {phase : Phase} :
    b.phaseOf i = some phase → j ∈ dag.successorsOf i →
    (dag.successorsOf i).count j = 1 ∧ ∃ n, b.indegree[j]? = some n ∧ 0 < n

theorem run_safe (hbuilt : dag.Built) (hrun : Run dag env supply history b) :
    Safe dag history b := by
  have hw := hbuilt.wellFormed
  have hc := hrun.consistent hw
  constructor
  case handedOut_once =>
    refine hrun.nodup_of_mark hw (k := 1) fun event i hfound => ?_
    cases event <;> simp_all [Event.handedOutQuery, Event.mark]
  case started_once =>
    refine hrun.nodup_of_mark hw (k := 2) fun event i hfound => ?_
    cases event <;> simp_all [Event.startedQuery, Event.mark]
  case ran_once =>
    refine hrun.nodup_of_mark hw (k := 3) fun event i hfound => ?_
    cases event <;> simp_all [Event.ranQuery, Event.mark]
  case predecessors_done =>
    intro b' events i p hstep hbody hp
    -- A worker has the query, so it is not pending, and then nothing is left that it waits for.
    obtain ⟨phase, h⟩ := hstep.phaseOf_of_body hbody
    have hstarted : phase.status ≠ .pending := by cases phase <;> simp [Phase.status]
    have hdone := hc.predecessors_done (hc.status_of_phaseOf h) hstarted hp
    exact ⟨beq_iff_eq.1 hdone, hrun.result_of_isDone hw hdone⟩
  case indegree_nonneg =>
    intro j n hn
    exact (Int.natCast_nonneg _).trans (hc.waitsFor_le hn)
  case outstanding_nonneg =>
    rw [hc.outstanding_eq]
    exact Int.natCast_nonneg _
  case sinksRemaining_nonneg =>
    rw [hc.sinksRemaining_eq]
    exact Int.natCast_nonneg _
  case outstanding_pos => exact fun h => hc.outstanding_pos h
  case sinksRemaining_pos => exact fun h hsink => hc.sinksRemaining_pos h hsink
  case indegree_pos =>
    intro i j phase h hj
    exact ⟨List.count_eq_one_of_mem (hw.nodup_successorsOf i) hj, hc.indegree_pos hw h hj⟩

end Batch

/-! ## A batch -/

/-- The trip needs the towns and the roads, the towns need the roads. -/
def trip : DependencyGraph where
  nodes := #[
    { name := "roads", body := some (.procedure (.constant (.bool true))), successors := [1, 2] },
    { name := "towns", body := some (.procedure (.shared "roads")), successors := [2],
      predecessors := [0] },
    { name := "trip", body := some (.procedure (.shared "towns")), predecessors := [1, 0] }]

/-- A dependency that is noted twice counts once. -/
theorem built_trip : trip.Built := by
  have hroads := DependencyGraph.Built.empty.addQuery "roads"
    (.procedure (.constant (.bool true))) rfl
  have htowns := hroads.addQuery "towns" (.procedure (.shared "roads")) rfl
  have htrip := htowns.addQuery "trip" (.procedure (.shared "towns")) rfl
  have hfirst := htrip.addDependency "towns" "roads" rfl
  have hsecond := hfirst.addDependency "trip" "towns" rfl
  have hthird := hsecond.addDependency "trip" "roads" rfl
  exact hthird.addDependency "trip" "towns" rfl

theorem sorted_trip : trip.topologicalOrder = .ok ["roads", "towns", "trip"] := by
  decide +kernel

theorem Batch.run_safe_trip : trip.Built ∧ ∃ history b,
    Batch.Run trip {} {} history b ∧ b.queued = [] ∧ Batch.Safe trip history b := by
  obtain ⟨history, b, -, hrun, hended, -⟩ :=
    schedule_eq_conclude built_trip.wellFormed {} {} {} sorted_trip
  exact ⟨built_trip, history, b, hrun, hended, Batch.run_safe built_trip hrun⟩

end PathQuery

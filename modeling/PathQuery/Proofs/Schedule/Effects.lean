import PathQuery.Proofs.Schedule.DependencyGraph
import PathQuery.Proofs.Schedule.Steps

/-!
# What the steps change

* `launch_eq`, `start_eq_running`, `start_eq_cancelled`, `settle_eq_of_ok`, `settle_eq_of_error`:
  the batch after a step, field by field;
* `Batch.freed`: the queries that become ready when another one is done;
* `handedOutBy_of_ok`, `handedOutBy_of_error`: a step hands out these and no others.
-/

namespace PathQuery
namespace Batch

variable {b : Batch} {dag : DependencyGraph} {i : Nat}

/-! ## Tasks and statuses -/

theorem phaseOf_eq_none_iff : b.phaseOf i = none ↔ i ∉ b.queued := by
  simp only [phaseOf, queued, Option.map_eq_none_iff, List.find?_eq_none, List.mem_map]
  grind

theorem mem_queued_of_phaseOf {phase : Phase} (h : b.phaseOf i = some phase) : i ∈ b.queued := by
  by_contra habsent
  rw [phaseOf_eq_none_iff.2 habsent] at h
  cases h

theorem phaseOf_setPhase (b : Batch) (i : Nat) (phase : Phase) (j : Nat) :
    (b.setPhase i phase).phaseOf j =
      if j = i then (b.phaseOf j).map fun _ => phase else b.phaseOf j := by
  unfold phaseOf setPhase
  induction b.tasks with
  | nil => simp
  | cons t tasks ih =>
    rw [List.map_cons, List.find?_cons, List.find?_cons]
    by_cases hi : t.query = i <;> by_cases hj : t.query = j <;> grind

theorem phaseOf_removeTask (b : Batch) (i j : Nat) :
    (b.removeTask i).phaseOf j = if j = i then none else b.phaseOf j := by
  unfold phaseOf removeTask
  induction b.tasks with
  | nil => simp
  | cons t tasks ih =>
    rw [List.filter_cons, List.find?_cons]
    by_cases hi : t.query = i <;> by_cases hj : t.query = j <;> grind

theorem phaseOf_spawn (b : Batch) (queries : List Nat) (j : Nat) :
    (b.spawn queries).phaseOf j =
      (b.phaseOf j).or (if j ∈ queries then some .queued else none) := by
  have hnew : ((queries.map fun q => (⟨q, .queued⟩ : Task)).find? (·.query == j)).map (·.phase) =
      if j ∈ queries then some .queued else none := by
    induction queries with
    | nil => simp
    | cons q queries ih =>
      rw [List.map_cons, List.find?_cons]
      by_cases hj : q = j <;> grind
  rw [phaseOf, spawn, List.find?_append, Option.map_or, hnew]
  rfl

theorem queued_setPhase (b : Batch) (i : Nat) (phase : Phase) :
    (b.setPhase i phase).queued = b.queued := by
  simp only [queued, setPhase, List.map_map]
  apply List.map_congr_left
  intro t _
  by_cases h : t.query = i <;> simp [h]

theorem queued_removeTask (b : Batch) (i : Nat) :
    (b.removeTask i).queued = b.queued.filter (· != i) := by
  simp [queued, removeTask, List.filter_map, Function.comp_def]

theorem queued_spawn (b : Batch) (queries : List Nat) :
    (b.spawn queries).queued = b.queued ++ queries := by
  simp [queued, spawn, Function.comp_def]

theorem status_setStatus (b : Batch) (i : Nat) (status : QueryStatus) (j : Nat) :
    (b.setStatus i status).status[j]? =
      if j = i then b.status[j]?.map fun _ => status else b.status[j]? := by
  simp only [setStatus, Array.getElem?_modify, eq_comm]

/-! ## Queries that become ready -/

def markReady (status : Array QueryStatus) (queries : List Nat) : Array QueryStatus :=
  queries.foldl (fun status i => status.modify i fun _ => .ready) status

theorem foldl_setStatus_ready (b : Batch) (queries : List Nat) :
    queries.foldl (fun b i => b.setStatus i .ready) b =
      { b with status := markReady b.status queries } := by
  unfold markReady
  induction queries generalizing b with
  | nil => rfl
  | cons q queries ih =>
    rw [List.foldl_cons, ih]
    rfl

theorem getElem?_markReady (status : Array QueryStatus) (queries : List Nat) (j : Nat) :
    (markReady status queries)[j]? =
      if j ∈ queries then status[j]?.map fun _ => .ready else status[j]? := by
  unfold markReady
  induction queries generalizing status with
  | nil => simp
  | cons q queries ih =>
    rw [List.foldl_cons, ih, Array.getElem?_modify]
    by_cases hq : j = q
    · simp [hq, Option.map_map, Function.comp_def]
    · simp [hq, Ne.symm hq]

theorem size_markReady (status : Array QueryStatus) (queries : List Nat) :
    (markReady status queries).size = status.size := by
  unfold markReady
  induction queries generalizing status with
  | nil => rfl
  | cons q queries ih => rw [List.foldl_cons, ih, Array.size_modify]

/-- The queries that become ready when `i` is done. -/
def freed (b : Batch) (dag : DependencyGraph) (i : Nat) : List Nat :=
  match b.failure with
  | some _ => []
  | none => (dag.successorsOf i).filter fun s => b.indegree[s]? == some 1

theorem freed_of_failure {e : EvalError} (h : b.failure = some e) : b.freed dag i = [] := by
  rw [freed, h]

theorem mem_freed_iff (h : b.failure = none) (j : Nat) :
    j ∈ b.freed dag i ↔ j ∈ dag.successorsOf i ∧ b.indegree[j]? = some 1 := by
  simp [freed, h]

theorem freed_nodup (hw : dag.WellFormed) (b : Batch) (i : Nat) : (b.freed dag i).Nodup := by
  unfold freed
  split
  · exact List.nodup_nil
  · exact (hw.nodup_successorsOf i).filter _

/-! ## The steps -/

theorem launch_eq : b.launch =
    { b with
      status := markReady b.status (DependencyGraph.roots b.indegree)
      tasks := (b.spawn (DependencyGraph.roots b.indegree)).tasks
      outstanding := b.outstanding + (DependencyGraph.roots b.indegree).length } := by
  unfold launch
  dsimp only
  rw [foldl_setStatus_ready]
  rfl

theorem start_eq_running (h : b.failure = none) : b.start i =
    { b with
      status := (b.setStatus i .running).status
      tasks := (b.setPhase i (.started ((b.bodies[i]?).bind id))).tasks
      bodies := b.bodies.modify i fun _ => none } := by
  unfold start
  split
  next hfailed => cases h.symm.trans hfailed
  next => rfl

theorem start_eq_cancelled {e : EvalError} (h : b.failure = some e) : b.start i =
    { b with
      status := (b.setStatus i .cancelled).status
      tasks := (b.removeTask i).tasks
      outstanding := b.outstanding - 1 } := by
  unfold start
  split
  next => rfl
  next hintact => cases h.symm.trans hintact

/-- The successors of a query that is done are counted down, unless the batch failed. -/
def countDown (b : Batch) (dag : DependencyGraph) (i : Nat) : Array Int :=
  match b.failure with
  | some _ => b.indegree
  | none => ((dag.successorsOf i).foldl DependencyGraph.release (b.indegree, [])).1

theorem countDown_of_failure {e : EvalError} (h : b.failure = some e) :
    b.countDown dag i = b.indegree := by
  rw [countDown, h]

theorem getElem?_countDown (hw : dag.WellFormed) (h : b.failure = none) (j : Nat) :
    (b.countDown dag i)[j]? =
      if j ∈ dag.successorsOf i then b.indegree[j]?.map (· - 1) else b.indegree[j]? := by
  rw [countDown, h]
  exact (DependencyGraph.foldl_release (hw.nodup_successorsOf i) b.indegree []).1 j

theorem size_countDown (b : Batch) (dag : DependencyGraph) (i : Nat) :
    (b.countDown dag i).size = b.indegree.size := by
  unfold countDown
  split
  · rfl
  · exact DependencyGraph.size_foldl_release _ _ _

theorem settleDone_eq (hw : dag.WellFormed) : b.settleDone dag i =
    { b with
      indegree := b.countDown dag i
      status := markReady (b.setStatus i .done).status (b.freed dag i)
      tasks := (b.spawn (b.freed dag i)).tasks
      outstanding := b.outstanding + (b.freed dag i).length
      sinksRemaining :=
        if (dag.successorsOf i).isEmpty then b.sinksRemaining - 1 else b.sinksRemaining } := by
  have hsinks : (if (dag.successorsOf i).isEmpty then
      { b.setStatus i .done with sinksRemaining := (b.setStatus i .done).sinksRemaining - 1 }
      else b.setStatus i .done) =
    { b.setStatus i .done with
      sinksRemaining :=
        if (dag.successorsOf i).isEmpty then b.sinksRemaining - 1 else b.sinksRemaining } := by
    split <;> rfl
  have hreleased := (DependencyGraph.foldl_release (hw.nodup_successorsOf i) b.indegree []).2
  unfold settleDone
  dsimp only
  rw [hsinks]
  split
  next e hfailed =>
    have hfailed : b.failure = some e := hfailed
    rw [countDown_of_failure hfailed, freed_of_failure hfailed]
    simp [setStatus, markReady, spawn]
  next hintact =>
    have hintact : b.failure = none := hintact
    have hfreed_eq : b.freed dag i =
        ((dag.successorsOf i).foldl DependencyGraph.release (b.indegree, [])).2 := by
      rw [hreleased, freed, hintact]
      rfl
    have hcountDown_eq : b.countDown dag i =
        ((dag.successorsOf i).foldl DependencyGraph.release (b.indegree, [])).1 := by
      rw [countDown, hintact]
    rw [foldl_setStatus_ready, hfreed_eq, hcountDown_eq]
    rfl

theorem settle_eq_of_ok (hw : dag.WellFormed) {body : Option Body}
    (h : b.phaseOf i = some (.executed body (.ok ()))) : b.settle dag i =
    { b with
      indegree := b.countDown dag i
      status := markReady (b.setStatus i .done).status (b.freed dag i)
      bodies := b.bodies.modify i fun _ => body
      tasks := ((b.removeTask i).spawn (b.freed dag i)).tasks
      outstanding := b.outstanding - 1 + (b.freed dag i).length
      sinksRemaining :=
        if (dag.successorsOf i).isEmpty then b.sinksRemaining - 1 else b.sinksRemaining } := by
  simp only [settle, h]
  rw [settleDone_eq hw]
  rfl

theorem settle_eq_of_error {body : Option Body} {e : EvalError}
    (h : b.phaseOf i = some (.executed body (.error e))) : b.settle dag i =
    { b with
      status := (b.setStatus i .failed).status
      bodies := b.bodies.modify i fun _ => body
      tasks := (b.removeTask i).tasks
      outstanding := b.outstanding - 1
      failure := b.failure.or (some (captured (dag.nameOf i) e)) } := by
  simp only [settle, h]
  rfl

/-! ## The queries after a step -/

section Start

theorem status_start_running (hintact : b.failure = none) (j : Nat) :
    (b.start i).status[j]? =
      if j = i then b.status[j]?.map fun _ => .running else b.status[j]? := by
  rw [start_eq_running hintact]
  exact status_setStatus b i .running j

theorem phaseOf_start_running (hintact : b.failure = none) (j : Nat) :
    (b.start i).phaseOf j =
      if j = i then (b.phaseOf j).map fun _ => .started ((b.bodies[i]?).bind id)
      else b.phaseOf j := by
  rw [start_eq_running hintact]
  exact phaseOf_setPhase b i _ j

theorem queued_start_running (hintact : b.failure = none) : (b.start i).queued = b.queued := by
  rw [start_eq_running hintact]
  exact queued_setPhase b i _

variable {e : EvalError}

theorem status_start_cancelled (hfailed : b.failure = some e) (j : Nat) :
    (b.start i).status[j]? =
      if j = i then b.status[j]?.map fun _ => .cancelled else b.status[j]? := by
  rw [start_eq_cancelled hfailed]
  exact status_setStatus b i .cancelled j

theorem phaseOf_start_cancelled (hfailed : b.failure = some e) (j : Nat) :
    (b.start i).phaseOf j = if j = i then none else b.phaseOf j := by
  rw [start_eq_cancelled hfailed]
  exact phaseOf_removeTask b i j

theorem queued_start_cancelled (hfailed : b.failure = some e) :
    (b.start i).queued = (b.removeTask i).queued := by
  rw [start_eq_cancelled hfailed]
  rfl

end Start

section Settle

variable {body : Option Body}

theorem status_settle_of_ok (hw : dag.WellFormed)
    (h : b.phaseOf i = some (.executed body (.ok ()))) (j : Nat) :
    (b.settle dag i).status[j]? =
      if j ∈ b.freed dag i then (b.setStatus i .done).status[j]?.map fun _ => .ready
      else (b.setStatus i .done).status[j]? := by
  rw [settle_eq_of_ok hw h]
  exact getElem?_markReady _ _ j

theorem phaseOf_settle_of_ok (hw : dag.WellFormed)
    (h : b.phaseOf i = some (.executed body (.ok ()))) (j : Nat) :
    (b.settle dag i).phaseOf j =
      (if j = i then none else b.phaseOf j).or
        (if j ∈ b.freed dag i then some .queued else none) := by
  rw [settle_eq_of_ok hw h, ← phaseOf_removeTask]
  exact phaseOf_spawn (b.removeTask i) _ j

theorem queued_settle_of_ok (hw : dag.WellFormed)
    (h : b.phaseOf i = some (.executed body (.ok ()))) :
    (b.settle dag i).queued = (b.removeTask i).queued ++ b.freed dag i := by
  rw [settle_eq_of_ok hw h, ← queued_spawn]
  rfl

variable {e : EvalError}

theorem status_settle_of_error (dag : DependencyGraph)
    (h : b.phaseOf i = some (.executed body (.error e))) (j : Nat) :
    (b.settle dag i).status[j]? =
      if j = i then b.status[j]?.map fun _ => .failed else b.status[j]? := by
  rw [settle_eq_of_error h]
  exact status_setStatus b i .failed j

theorem phaseOf_settle_of_error (dag : DependencyGraph)
    (h : b.phaseOf i = some (.executed body (.error e))) (j : Nat) :
    (b.settle dag i).phaseOf j = if j = i then none else b.phaseOf j := by
  rw [settle_eq_of_error h]
  exact phaseOf_removeTask b i j

theorem queued_settle_of_error (dag : DependencyGraph)
    (h : b.phaseOf i = some (.executed body (.error e))) :
    (b.settle dag i).queued = (b.removeTask i).queued := by
  rw [settle_eq_of_error h]
  rfl

/-! ## What a step hands out -/

theorem handedOutBy_of_ok (hw : dag.WellFormed)
    (h : b.phaseOf i = some (.executed body (.ok ()))) : b.handedOutBy dag i = b.freed dag i := by
  rw [handedOutBy, queued_settle_of_ok hw h, List.drop_left]

theorem handedOutBy_of_error (h : b.phaseOf i = some (.executed body (.error e))) :
    b.handedOutBy dag i = [] := by
  rw [handedOutBy, queued_settle_of_error dag h, List.drop_length]

end Settle

end Batch
end PathQuery

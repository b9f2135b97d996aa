import PathQuery.Proofs.Schedule.Effects

/-!
# The state of a batch between two steps

* `Batch.Tracked`: the queries in the hands of the workers are the ready and the running ones;
* `Batch.Counted`: the counters say how many queries are not done;
* `Batch.Consistent`: both;
* `Step.consistent`, `Run.consistent`: a step keeps this, so it holds throughout a run.
-/

namespace PathQuery

/-- The status of a query in the hands of a worker. -/
def Phase.status : Phase → QueryStatus
  | .queued => .ready
  | .started _ => .running
  | .executed _ _ => .running

def QueryStatus.isActive : QueryStatus → Bool
  | .ready => true
  | .running => true
  | _ => false

namespace Batch

def isDone (b : Batch) (i : Nat) : Bool :=
  b.status[i]? == some .done

/-- The number of queries that `j` depends on and that are not done. -/
def waitsFor (b : Batch) (dag : DependencyGraph) (j : Nat) : Nat :=
  (dag.predecessorsOf j).countP fun i => !b.isDone i

/-- The number of queries that are not done and on which nothing depends. -/
def openSinks (b : Batch) (dag : DependencyGraph) : Nat :=
  (List.range dag.size).countP fun i => (dag.successorsOf i).isEmpty && !b.isDone i

structure Tracked (b : Batch) : Prop where
  queued_nodup : b.queued.Nodup
  active (j : Nat) : (b.phaseOf j).map Phase.status = (b.status[j]?).filter QueryStatus.isActive
  outstanding_eq : b.outstanding = b.queued.length
  intact : b.failure = none → ∀ j : Nat, b.status[j]? ≠ some QueryStatus.failed ∧
    b.status[j]? ≠ some QueryStatus.cancelled
  failed : b.failure ≠ none → ∃ j : Nat, b.status[j]? = some .failed

/-- Once the batch has failed, queries are not counted down any more, so that they may wait for
more queries than are not done. -/
structure Counted (dag : DependencyGraph) (b : Batch) : Prop where
  status_size : b.status.size = dag.size
  indegree_size : b.indegree.size = dag.size
  sinksRemaining_eq : b.sinksRemaining = b.openSinks dag
  waitsFor_le {j : Nat} {n : Int} : b.indegree[j]? = some n → b.waitsFor dag j ≤ n
  waitsFor_eq {j : Nat} {n : Int} :
    b.failure = none → b.indegree[j]? = some n → b.waitsFor dag j = n
  pending_iff {j : Nat} {n : Int} :
    b.indegree[j]? = some n → (b.status[j]? = some .pending ↔ n ≠ 0)

structure Consistent (dag : DependencyGraph) (b : Batch) : Prop extends Tracked b, Counted dag b

variable {dag : DependencyGraph} {b b' : Batch} {i j : Nat}

/-! ## Queries in the hands of the workers -/

theorem Tracked.status_of_phaseOf (ht : Tracked b) {phase : Phase} (h : b.phaseOf i = some phase) :
    b.status[i]? = some phase.status := by
  have hactive := ht.active i
  rw [h] at hactive
  exact (Option.filter_eq_some_iff.1 hactive.symm).1

theorem Tracked.phaseOf_eq_none (ht : Tracked b) {status : QueryStatus}
    (h : b.status[i]? = some status) (hidle : status.isActive = false) : b.phaseOf i = none := by
  have hactive := ht.active i
  rw [h] at hactive
  simpa [Option.filter, hidle] using hactive

theorem length_queued_removeTask (ht : Tracked b) {phase : Phase} (h : b.phaseOf i = some phase) :
    ((b.removeTask i).queued.length : Int) = b.queued.length - 1 := by
  have hmem : i ∈ b.queued := mem_queued_of_phaseOf h
  have hpos : 0 < b.queued.length := List.length_pos_of_mem hmem
  rw [queued_removeTask, ← ht.queued_nodup.erase_eq_filter, List.length_erase_of_mem hmem]
  omega

theorem nodup_queued_removeTask (ht : Tracked b) : (b.removeTask i).queued.Nodup := by
  rw [queued_removeTask]
  exact ht.queued_nodup.filter _

theorem Tracked.start (ht : Tracked b) (h : b.phaseOf i = some .queued)
    (hintact : b.failure = none) :
    Tracked (b.start i) where
  queued_nodup := by
    rw [queued_start_running hintact]
    exact ht.queued_nodup
  outstanding_eq := by
    rw [queued_start_running hintact, start_eq_running hintact]
    exact ht.outstanding_eq
  active j := by
    rw [phaseOf_start_running hintact, status_start_running hintact]
    split
    next hsame =>
      rw [hsame, h, ht.status_of_phaseOf h]
      rfl
    next => exact ht.active j
  intact _ j := by
    rw [status_start_running hintact]
    split
    next => simp [Option.map_eq_some_iff]
    next => exact ht.intact hintact j
  failed htroubled := by
    rw [start_eq_running hintact] at htroubled
    exact (htroubled hintact).elim

theorem Tracked.cancel (ht : Tracked b) {e : EvalError} (h : b.phaseOf i = some .queued)
    (hfailed : b.failure = some e) : Tracked (b.start i) where
  queued_nodup := by
    rw [queued_start_cancelled hfailed]
    exact nodup_queued_removeTask ht
  outstanding_eq := by
    rw [queued_start_cancelled hfailed, length_queued_removeTask ht h, ← ht.outstanding_eq,
      start_eq_cancelled hfailed]
  active j := by
    rw [phaseOf_start_cancelled hfailed, status_start_cancelled hfailed]
    split
    next hsame =>
      rw [hsame, ht.status_of_phaseOf h]
      rfl
    next => exact ht.active j
  intact hintact := by
    rw [start_eq_cancelled hfailed] at hintact
    cases hfailed.symm.trans hintact
  failed _ := by
    -- The query that failed is in nobody's hands any more, so it is not the one that is cancelled.
    obtain ⟨j, hj⟩ := ht.failed (by simp [hfailed])
    refine ⟨j, ?_⟩
    rw [status_start_cancelled hfailed, if_neg, hj]
    rintro rfl
    cases hj.symm.trans (ht.status_of_phaseOf h)

/-- A worker gets on with its query. -/
theorem Tracked.setPhase (ht : Tracked b) {old new : Phase} (h : b.phaseOf i = some old)
    (hsame : new.status = old.status) : Tracked (b.setPhase i new) where
  queued_nodup := by
    rw [queued_setPhase]
    exact ht.queued_nodup
  outstanding_eq := by
    rw [queued_setPhase]
    exact ht.outstanding_eq
  active j := by
    rw [phaseOf_setPhase]
    split
    next hj =>
      rw [hj, h, Option.map_some, Option.map_some, hsame]
      exact (congrArg _ h).symm.trans (ht.active i)
    next => exact ht.active j
  intact := ht.intact
  failed := ht.failed

theorem Tracked.settle_of_error (ht : Tracked b) (dag : DependencyGraph) {body : Option Body}
    {e : EvalError} (h : b.phaseOf i = some (.executed body (.error e))) :
    Tracked (b.settle dag i) where
  queued_nodup := by
    rw [queued_settle_of_error dag h]
    exact nodup_queued_removeTask ht
  outstanding_eq := by
    rw [queued_settle_of_error dag h, length_queued_removeTask ht h, ← ht.outstanding_eq,
      settle_eq_of_error h]
  active j := by
    rw [phaseOf_settle_of_error dag h, status_settle_of_error dag h]
    split
    next hsame =>
      rw [hsame, ht.status_of_phaseOf h]
      rfl
    next => exact ht.active j
  intact hintact := by simp [settle_eq_of_error h] at hintact
  failed _ := by
    refine ⟨i, ?_⟩
    rw [status_settle_of_error dag h, if_pos rfl, ht.status_of_phaseOf h]
    rfl

/-! ## Queries that wait -/

theorem failure_of_mem_freed (h : j ∈ b.freed dag i) : b.failure = none := by
  cases hfailed : b.failure with
  | none => rfl
  | some e => simp [freed_of_failure hfailed] at h

theorem Counted.pending_of_mem_freed (hc : Counted dag b) (h : j ∈ b.freed dag i) :
    b.status[j]? = some .pending :=
  (hc.pending_iff ((mem_freed_iff (failure_of_mem_freed h) j).1 h).2).2 one_ne_zero

/-- The query that is done is not among those that it makes ready. -/
theorem Consistent.not_mem_freed (hc : Consistent dag b) {phase : Phase}
    (h : b.phaseOf i = some phase) : i ∉ b.freed dag i := fun hmem => by
  have hidle := hc.phaseOf_eq_none (hc.pending_of_mem_freed hmem) rfl
  cases h.symm.trans hidle

section Settle

variable {body : Option Body}

/-- What is done and what is freed are different queries. -/
theorem Consistent.status_settle (hc : Consistent dag b) (hw : dag.WellFormed)
    (h : b.phaseOf i = some (.executed body (.ok ()))) (j : Nat) :
    (b.settle dag i).status[j]? =
      if j = i then some .done
      else if j ∈ b.freed dag i then some .ready
      else b.status[j]? := by
  rw [status_settle_of_ok hw h, status_setStatus]
  by_cases hsame : j = i
  · subst hsame
    simp [hc.not_mem_freed h, hc.status_of_phaseOf h]
  · by_cases hmem : j ∈ b.freed dag i
    · simp [hsame, hmem, hc.pending_of_mem_freed hmem]
    · simp [hsame, hmem]

theorem Consistent.phaseOf_settle (hc : Consistent dag b) (hw : dag.WellFormed)
    (h : b.phaseOf i = some (.executed body (.ok ()))) (j : Nat) :
    (b.settle dag i).phaseOf j =
      if j = i then none
      else if j ∈ b.freed dag i then some .queued
      else b.phaseOf j := by
  rw [phaseOf_settle_of_ok hw h]
  by_cases hsame : j = i
  · subst hsame
    simp [hc.not_mem_freed h]
  · by_cases hmem : j ∈ b.freed dag i
    · simp [hsame, hmem, hc.phaseOf_eq_none (hc.pending_of_mem_freed hmem) rfl]
    · simp [hsame, hmem]

theorem Consistent.tracked_settle (hc : Consistent dag b) (hw : dag.WellFormed)
    (h : b.phaseOf i = some (.executed body (.ok ()))) : Tracked (b.settle dag i) where
  queued_nodup := by
    rw [queued_settle_of_ok hw h]
    refine (nodup_queued_removeTask hc.toTracked).append (freed_nodup hw b i) fun j hmem hmem' => ?_
    -- What is freed was pending, so no worker had it.
    rw [queued_removeTask] at hmem
    exact phaseOf_eq_none_iff.1 (hc.phaseOf_eq_none (hc.pending_of_mem_freed hmem') rfl)
      (List.mem_filter.1 hmem).1
  outstanding_eq := by
    rw [queued_settle_of_ok hw h, List.length_append, Int.natCast_add,
      length_queued_removeTask hc.toTracked h, ← hc.outstanding_eq, settle_eq_of_ok hw h]
  active j := by
    rw [hc.phaseOf_settle hw h, hc.status_settle hw h]
    split
    next => rfl
    next =>
      split
      next => rfl
      next => exact hc.active j
  intact hintact j := by
    rw [settle_eq_of_ok hw h] at hintact
    rw [hc.status_settle hw h]
    split
    next => simp
    next =>
      split
      next => simp
      next => exact hc.intact hintact j
  failed htroubled := by
    rw [settle_eq_of_ok hw h] at htroubled
    obtain ⟨j, hj⟩ := hc.failed htroubled
    refine ⟨j, ?_⟩
    rw [hc.status_settle hw h, if_neg, if_neg, hj]
    · intro hmem
      cases hj.symm.trans (hc.pending_of_mem_freed hmem)
    · rintro rfl
      cases hj.symm.trans (hc.status_of_phaseOf h)

end Settle

/-! ## Counters -/

theorem Counted.lt_of_status (hc : Counted dag b) {status : QueryStatus}
    (h : b.status[i]? = some status) : i < dag.size := by
  rw [← hc.status_size]
  exact (Array.getElem?_eq_some_iff.1 h).1

theorem Consistent.lt_size (hc : Consistent dag b) {phase : Phase} (h : b.phaseOf i = some phase) :
    i < dag.size :=
  hc.lt_of_status (hc.status_of_phaseOf h)

/-- The counters look at pending and at done queries only. -/
theorem Counted.of_same (hc : Counted dag b) (hsize : b'.status.size = b.status.size)
    (hindegree : b'.indegree = b.indegree) (hsinks : b'.sinksRemaining = b.sinksRemaining)
    (hfailure : b'.failure = none → b.failure = none)
    (hstatus : ∀ (j : Nat) (s : QueryStatus), s = .pending ∨ s = .done →
      (b'.status[j]? = some s ↔ b.status[j]? = some s)) : Counted dag b' := by
  have hdone : b'.isDone = b.isDone := by
    funext j
    rw [isDone, isDone, Bool.eq_iff_iff, beq_iff_eq, beq_iff_eq]
    exact hstatus j .done (.inr rfl)
  have hwaits (j : Nat) : b'.waitsFor dag j = b.waitsFor dag j := by rw [waitsFor, waitsFor, hdone]
  constructor
  case status_size => exact hsize.trans hc.status_size
  case indegree_size => exact hindegree ▸ hc.indegree_size
  case sinksRemaining_eq =>
    rw [hsinks, hc.sinksRemaining_eq, openSinks, openSinks, hdone]
  case waitsFor_le =>
    intro j n h
    rw [hwaits]
    exact hc.waitsFor_le (hindegree ▸ h)
  case waitsFor_eq =>
    intro j n hintact h
    rw [hwaits]
    exact hc.waitsFor_eq (hfailure hintact) (hindegree ▸ h)
  case pending_iff =>
    intro j n h
    rw [hstatus j .pending (.inl rfl)]
    exact hc.pending_iff (hindegree ▸ h)

/-- A query in the hands of a worker takes another status without being done. -/
theorem same_of_moved {old new : QueryStatus} (h : b.status[i]? = some old)
    (hactive : old.isActive = true)
    (hstatus : ∀ j : Nat, b'.status[j]? =
      if j = i then b.status[j]?.map fun _ => new else b.status[j]?)
    (hnew_pending : new ≠ .pending) (hnew_done : new ≠ .done) (j : Nat) (s : QueryStatus)
    (hs : s = .pending ∨ s = .done) :
    b'.status[j]? = some s ↔ b.status[j]? = some s := by
  rw [hstatus]
  split
  next hsame =>
    subst hsame
    rcases hs with rfl | rfl <;> cases old <;> simp_all [QueryStatus.isActive]
  next => rfl

theorem Consistent.start (hc : Consistent dag b) (h : b.phaseOf i = some .queued)
    (hintact : b.failure = none) : Consistent dag (b.start i) where
  toTracked := hc.toTracked.start h hintact
  toCounted := by
    have hsame := same_of_moved (hc.status_of_phaseOf h) rfl (status_start_running hintact)
      (by decide) (by decide)
    rw [start_eq_running hintact] at hsame ⊢
    exact hc.of_same (by simp [setStatus]) rfl rfl id hsame

theorem Consistent.cancel (hc : Consistent dag b) {e : EvalError} (h : b.phaseOf i = some .queued)
    (hfailed : b.failure = some e) : Consistent dag (b.start i) where
  toTracked := hc.toTracked.cancel h hfailed
  toCounted := by
    have hsame := same_of_moved (hc.status_of_phaseOf h) rfl (status_start_cancelled hfailed)
      (by decide) (by decide)
    rw [start_eq_cancelled hfailed] at hsame ⊢
    exact hc.of_same (by simp [setStatus]) rfl rfl id hsame

theorem Consistent.setPhase (hc : Consistent dag b) {old new : Phase}
    (h : b.phaseOf i = some old) (hsame : new.status = old.status) :
    Consistent dag (b.setPhase i new) where
  toTracked := hc.toTracked.setPhase h hsame
  toCounted := hc.toCounted.of_same rfl rfl rfl id fun _ _ _ => Iff.rfl

theorem Consistent.settle_of_error (hc : Consistent dag b) {body : Option Body} {e : EvalError}
    (h : b.phaseOf i = some (.executed body (.error e))) : Consistent dag (b.settle dag i) where
  toTracked := hc.toTracked.settle_of_error dag h
  toCounted := by
    have hsame := same_of_moved (hc.status_of_phaseOf h) rfl (status_settle_of_error dag h)
      (by decide) (by decide)
    rw [settle_eq_of_error h] at hsame ⊢
    exact hc.of_same (by simp [setStatus]) rfl rfl
      (fun hintact => (Option.or_eq_none_iff.1 hintact).1)
      hsame

/-- A property that one element loses and all others keep. -/
theorem countP_eq_of_lost {l : List Nat} (hnodup : l.Nodup) {p q : Nat → Bool} {a : Nat}
    (hlost : q a = false) (hkept : ∀ x, x ≠ a → p x = q x) :
    l.countP p = l.countP q + if a ∈ l ∧ p a = true then 1 else 0 := by
  induction l with
  | nil => simp
  | cons x l ih =>
    obtain ⟨hnew, hnodup⟩ := List.nodup_cons.1 hnodup
    rw [List.countP_cons, List.countP_cons, ih hnodup]
    by_cases hx : x = a
    · subst hx
      simp [hlost, hnew]
    · simp [hkept x hx, Ne.symm hx]
      omega

theorem isDone_of_active (ht : Tracked b) {phase : Phase} (h : b.phaseOf i = some phase) :
    b.isDone i = false := by
  rw [isDone, ht.status_of_phaseOf h]
  cases phase <;> rfl

section Settle

variable {body : Option Body}

theorem Consistent.isDone_settle (hc : Consistent dag b) (hw : dag.WellFormed)
    (h : b.phaseOf i = some (.executed body (.ok ()))) (j : Nat) :
    (b.settle dag i).isDone j = if j = i then true else b.isDone j := by
  rw [isDone, hc.status_settle hw h]
  split
  next => rfl
  next =>
    split
    next hmem => simp [isDone, hc.pending_of_mem_freed hmem]
    next => rfl

theorem Consistent.waitsFor_settle (hc : Consistent dag b) (hw : dag.WellFormed)
    (h : b.phaseOf i = some (.executed body (.ok ()))) (j : Nat) :
    b.waitsFor dag j =
      (b.settle dag i).waitsFor dag j + if j ∈ dag.successorsOf i then 1 else 0 := by
  have hlost : (!(b.settle dag i).isDone i) = false := by simp [hc.isDone_settle hw h]
  have hkept : ∀ x, x ≠ i → (!b.isDone x) = !(b.settle dag i).isDone x := fun x hx => by
    simp [hc.isDone_settle hw h, hx]
  simp only [waitsFor, countP_eq_of_lost (hw.nodup_predecessorsOf j) hlost hkept,
    isDone_of_active hc.toTracked h, hw.mem_successorsOf_iff, Bool.not_false, and_true]

theorem Consistent.openSinks_settle (hc : Consistent dag b) (hw : dag.WellFormed)
    (h : b.phaseOf i = some (.executed body (.ok ()))) :
    b.openSinks dag =
      (b.settle dag i).openSinks dag + if (dag.successorsOf i).isEmpty then 1 else 0 := by
  have hlt : i < dag.size := hc.lt_size h
  have hlost : ((dag.successorsOf i).isEmpty && !(b.settle dag i).isDone i) = false := by
    simp [hc.isDone_settle hw h]
  have hkept : ∀ x, x ≠ i → ((dag.successorsOf x).isEmpty && !b.isDone x) =
      ((dag.successorsOf x).isEmpty && !(b.settle dag i).isDone x) := fun x hx => by
    simp [hc.isDone_settle hw h, hx]
  simp only [openSinks, countP_eq_of_lost List.nodup_range hlost hkept, List.mem_range, hlt,
    isDone_of_active hc.toTracked h, Bool.not_false, Bool.and_true, true_and]

/-- Before a failure every successor is counted down. -/
theorem indegree_settle (hw : dag.WellFormed) (h : b.phaseOf i = some (.executed body (.ok ())))
    (hintact : b.failure = none) {n : Int} (hn : (b.settle dag i).indegree[j]? = some n) :
    ∃ m, b.indegree[j]? = some m ∧ n = m - if j ∈ dag.successorsOf i then 1 else 0 := by
  rw [settle_eq_of_ok hw h] at hn
  replace hn : (b.countDown dag i)[j]? = some n := hn
  rw [getElem?_countDown hw hintact] at hn
  split at hn
  next hmem =>
    obtain ⟨m, hm, rfl⟩ := Option.map_eq_some_iff.1 hn
    exact ⟨m, hm, by rw [if_pos hmem]⟩
  next hother => exact ⟨n, hn, by rw [if_neg hother, Int.sub_zero]⟩

theorem Consistent.waitsFor_settle_eq (hc : Consistent dag b) (hw : dag.WellFormed)
    (h : b.phaseOf i = some (.executed body (.ok ()))) (hintact : b.failure = none) {n : Int}
    (hn : (b.settle dag i).indegree[j]? = some n) : (b.settle dag i).waitsFor dag j = n := by
  obtain ⟨m, hm, rfl⟩ := indegree_settle hw h hintact hn
  have hbefore := hc.waitsFor_eq hintact hm
  have hwaits := hc.waitsFor_settle hw h j
  by_cases hmem : j ∈ dag.successorsOf i
  · rw [if_pos hmem] at hwaits ⊢
    omega
  · rw [if_neg hmem] at hwaits ⊢
    omega

/-- After a failure nothing is counted down any more. -/
theorem indegree_settle_of_failure (hw : dag.WellFormed)
    (h : b.phaseOf i = some (.executed body (.ok ()))) {e : EvalError}
    (hfailed : b.failure = some e) : (b.settle dag i).indegree = b.indegree := by
  rw [settle_eq_of_ok hw h]
  exact countDown_of_failure hfailed

theorem Consistent.waitsFor_settle_le (hc : Consistent dag b) (hw : dag.WellFormed)
    (h : b.phaseOf i = some (.executed body (.ok ()))) {n : Int}
    (hn : (b.settle dag i).indegree[j]? = some n) : (b.settle dag i).waitsFor dag j ≤ n := by
  cases hfailed : b.failure with
  | none => exact (hc.waitsFor_settle_eq hw h hfailed hn).le
  | some e =>
    rw [indegree_settle_of_failure hw h hfailed] at hn
    have hbefore := hc.waitsFor_le hn
    have hwaits := hc.waitsFor_settle hw h j
    omega

theorem Consistent.pending_iff_settle (hc : Consistent dag b) (hw : dag.WellFormed)
    (h : b.phaseOf i = some (.executed body (.ok ()))) {n : Int}
    (hn : (b.settle dag i).indegree[j]? = some n) :
    (b.settle dag i).status[j]? = some .pending ↔ n ≠ 0 := by
  have hrunning := hc.status_of_phaseOf h
  rw [hc.status_settle hw h]
  cases hfailed : b.failure with
  | some e =>
    -- Nothing is counted down and nothing is freed, and the query itself was not pending.
    rw [indegree_settle_of_failure hw h hfailed] at hn
    have hbefore := hc.pending_iff hn
    rw [freed_of_failure hfailed]
    split
    next hsame =>
      subst hsame
      simpa [hrunning, Phase.status] using hbefore
    next => simpa using hbefore
  | none =>
    have hnonneg := hc.waitsFor_settle_le hw h hn
    have hwaits := hc.waitsFor_settle hw h j
    obtain ⟨m, hm, rfl⟩ := indegree_settle hw h hfailed hn
    have hbefore := hc.pending_iff hm
    have hcounted := hc.waitsFor_eq hfailed hm
    by_cases hsame : j = i
    · subst hsame
      have hm_zero : m = 0 := by simpa [hrunning, Phase.status] using hbefore
      -- A query that waited for itself would now be waited for less than no time.
      have hnot_own : j ∉ dag.successorsOf j := fun hmem => by
        rw [if_pos hmem] at hnonneg
        omega
      simp [hnot_own, hm_zero]
    · rw [if_neg hsame]
      by_cases hmem : j ∈ dag.successorsOf i
      · -- A successor is freed just when it waited for this query only.
        rw [if_pos hmem] at hwaits ⊢
        by_cases hlast : m = 1
        · rw [if_pos ((mem_freed_iff hfailed j).2 ⟨hmem, hlast ▸ hm⟩)]
          simp [hlast]
        · rw [if_neg fun hfreed => hlast (Option.some.inj (hm.symm.trans
            ((mem_freed_iff hfailed j).1 hfreed).2)), hbefore]
          omega
      · rw [if_neg hmem, if_neg fun hfreed => hmem ((mem_freed_iff hfailed j).1 hfreed).1, hbefore]
        omega

theorem Consistent.counted_settle (hc : Consistent dag b) (hw : dag.WellFormed)
    (h : b.phaseOf i = some (.executed body (.ok ()))) : Counted dag (b.settle dag i) where
  status_size := by
    rw [settle_eq_of_ok hw h]
    exact (size_markReady _ _).trans (Array.size_modify.trans hc.status_size)
  indegree_size := by
    rw [settle_eq_of_ok hw h]
    exact (size_countDown b dag i).trans hc.indegree_size
  sinksRemaining_eq := by
    have hsinks := hc.sinksRemaining_eq
    rw [hc.openSinks_settle hw h] at hsinks
    rw [settle_eq_of_ok hw h] at hsinks ⊢
    dsimp only
    split
    next hsink => simp [hsink] at hsinks; omega
    next hsink => simpa [hsink] using hsinks
  waitsFor_le := hc.waitsFor_settle_le hw h
  waitsFor_eq hintact := by
    rw [settle_eq_of_ok hw h] at hintact
    exact hc.waitsFor_settle_eq hw h hintact
  pending_iff := hc.pending_iff_settle hw h

end Settle

/-! ## The start of a batch -/

section Launch

variable {env : SharedEnvironment} {supply : Supply}

theorem indegree_initial (env : SharedEnvironment) (supply : Supply) (j : Nat) :
    (initial dag env supply).indegree[j]? =
      if j < dag.size then some ((dag.predecessorsOf j).length : Int) else none := by
  change (dag.nodes.map _)[j]? = _
  rw [Array.getElem?_map]
  split
  next hlt => simp [DependencyGraph.predecessorsOf, Array.getElem?_eq_getElem hlt]
  next hge => simp [Array.getElem?_eq_none (Nat.le_of_not_lt hge)]

theorem mem_roots_iff (indegree : Array Int) (j : Nat) :
    j ∈ DependencyGraph.roots indegree ↔ indegree[j]? = some 0 := by
  simp only [DependencyGraph.roots, List.mem_filter, List.mem_range, beq_iff_eq,
    and_iff_right_iff_imp]
  exact fun h => (Array.getElem?_eq_some_iff.1 h).1

theorem roots_nodup (indegree : Array Int) : (DependencyGraph.roots indegree).Nodup :=
  List.nodup_range.filter _

theorem queued_launch :
    (initial dag env supply).launch.queued = DependencyGraph.roots dag.indegrees := by
  rw [launch_eq]
  exact queued_spawn (initial dag env supply) _

theorem phaseOf_launch (j : Nat) :
    (initial dag env supply).launch.phaseOf j =
      if j ∈ DependencyGraph.roots dag.indegrees then some .queued else none := by
  rw [launch_eq]
  exact phaseOf_spawn (initial dag env supply) _ j

theorem status_launch (j : Nat) :
    (initial dag env supply).launch.status[j]? =
      if j ∈ DependencyGraph.roots dag.indegrees then some .ready
      else if j < dag.size then some .pending else none := by
  have hstart : (initial dag env supply).status[j]? =
      if j < dag.size then some .pending else none := by
    change (dag.nodes.map _)[j]? = _
    rw [Array.getElem?_map]
    split
    next hlt => simp [Array.getElem?_eq_getElem hlt]
    next hge => simp [Array.getElem?_eq_none (Nat.le_of_not_lt hge)]
  rw [launch_eq]
  refine (getElem?_markReady _ (DependencyGraph.roots dag.indegrees) j).trans ?_
  rw [hstart]
  split
  next hroot =>
    have h := (mem_roots_iff dag.indegrees j).1 hroot
    have hlt : j < dag.size := by
      by_contra hge
      cases h.symm.trans ((indegree_initial env supply j).trans (if_neg hge))
    rw [if_pos hlt]
    rfl
  next => rfl

theorem not_isDone_launch (j : Nat) : (initial dag env supply).launch.isDone j = false := by
  rw [isDone, status_launch]
  split
  · rfl
  · split <;> rfl

theorem tracked_launch : Tracked (initial dag env supply).launch where
  queued_nodup := by
    rw [queued_launch]
    exact roots_nodup _
  active j := by
    rw [phaseOf_launch, status_launch]
    split
    · rfl
    · split <;> rfl
  outstanding_eq := by
    rw [queued_launch, launch_eq]
    exact Int.zero_add _
  intact _ j := by
    rw [status_launch]
    split
    · simp
    · split <;> simp
  failed htroubled := by
    rw [launch_eq] at htroubled
    exact (htroubled rfl).elim

theorem sinkCount_eq (dag : DependencyGraph) :
    sinkCount dag = (List.range dag.size).countP fun i => (dag.successorsOf i).isEmpty := by
  have hsame : dag.nodes.toList.map (·.successors.isEmpty) =
      (List.range dag.size).map fun i => (dag.successorsOf i).isEmpty := by
    apply List.ext_getElem?
    intro i
    rw [List.getElem?_map, List.getElem?_map, Array.getElem?_toList]
    by_cases hlt : i < dag.size
    · simp [DependencyGraph.successorsOf, Array.getElem?_eq_getElem hlt, hlt]
    · simp [Array.getElem?_eq_none (Nat.le_of_not_lt hlt), hlt]
  have hcounts := congrArg (List.countP id) hsame
  rw [List.countP_map, List.countP_map] at hcounts
  rw [sinkCount, ← List.countP_eq_length_filter]
  exact hcounts

theorem waitsFor_launch (j : Nat) :
    (initial dag env supply).launch.waitsFor dag j = (dag.predecessorsOf j).length := by
  simp only [waitsFor, not_isDone_launch, Bool.not_false, List.countP_true]

theorem counted_launch : Counted dag (initial dag env supply).launch := by
  have hindegree : (initial dag env supply).launch.indegree = dag.indegrees := by
    rw [launch_eq]
    rfl
  have hwaits {j : Nat} {n : Int} (h : (initial dag env supply).launch.indegree[j]? = some n) :
      j < dag.size ∧ ((initial dag env supply).launch.waitsFor dag j : Int) = n := by
    have hcounted := (hindegree ▸ h).symm.trans (indegree_initial env supply j)
    split at hcounted
    next hlt => exact ⟨hlt, by rw [waitsFor_launch]; exact (Option.some.inj hcounted).symm⟩
    next => cases hcounted
  constructor
  case status_size =>
    rw [launch_eq]
    exact (size_markReady _ _).trans Array.size_map
  case indegree_size =>
    rw [hindegree]
    exact Array.size_map
  case sinksRemaining_eq =>
    rw [openSinks]
    simp only [not_isDone_launch, Bool.not_false, Bool.and_true]
    rw [← sinkCount_eq, launch_eq]
    rfl
  case waitsFor_le => exact fun h => (hwaits h).2.le
  case waitsFor_eq => exact fun _ h => (hwaits h).2
  case pending_iff =>
    intro j n h
    have hroot : j ∈ DependencyGraph.roots dag.indegrees ↔ n = 0 := by
      rw [mem_roots_iff, ← hindegree, h, Option.some.injEq]
    rw [status_launch, if_pos (hwaits h).1]
    simp only [hroot]
    split <;> simp_all

theorem consistent_launch : Consistent dag (initial dag env supply).launch where
  toTracked := tracked_launch
  toCounted := counted_launch

end Launch

/-! ## Steps and runs -/

theorem Consistent.of_env (hc : Consistent dag b) (env : SharedEnvironment) (supply : Supply) :
    Consistent dag { b with env, supply } where
  queued_nodup := hc.queued_nodup
  active := hc.active
  outstanding_eq := hc.outstanding_eq
  intact := hc.intact
  failed := hc.failed
  status_size := hc.status_size
  indegree_size := hc.indegree_size
  sinksRemaining_eq := hc.sinksRemaining_eq
  waitsFor_le := hc.waitsFor_le
  waitsFor_eq := hc.waitsFor_eq
  pending_iff := hc.pending_iff

theorem Step.consistent {events : List Event} (hstep : Step dag b events b') (hw : dag.WellFormed)
    (hc : Consistent dag b) : Consistent dag b' := by
  cases hstep with
  | start hqueued hintact => exact hc.start hqueued hintact
  | cancel hqueued hfailed => exact hc.cancel hqueued hfailed
  | run hstarted =>
    refine Consistent.of_env (hc.setPhase hstarted ?_) _ _
    rfl
  | lack hstarted => exact hc.setPhase hstarted rfl
  | write => exact hc.of_env _ _
  | @settle i body result hexecuted =>
    cases result with
    | ok => exact ⟨hc.tracked_settle hw hexecuted, hc.counted_settle hw hexecuted⟩
    | error e => exact hc.settle_of_error hexecuted

theorem Run.consistent {env : SharedEnvironment} {supply : Supply} {history : List Event}
    (hrun : Run dag env supply history b) (hw : dag.WellFormed) : Consistent dag b := by
  induction hrun with
  | launch => exact consistent_launch
  | step _ hstep ih => exact hstep.consistent hw ih

end Batch
end PathQuery

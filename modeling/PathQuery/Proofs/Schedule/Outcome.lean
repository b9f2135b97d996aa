import PathQuery.Proofs.Schedule.Safety

/-!
# The end of a batch

* `Consistent.all_done`: without a failure, a batch that has come to rest has done everything;
* `status_conclude`: what the report says of one query;
* `Batch.Accounts`: what the report and the environment tell about the history;
* `run_outcome`: the collector does not wait for ever, nothing starts after a failure, and what is
  reported in the end is what happened;
* `panic_report_passed_on`: a body can name another query than its own.
-/

namespace PathQuery

theorem lookup_zip {α β : Type} [BEq α] [LawfulBEq α] {keys : List α} (hnodup : keys.Nodup)
    (values : List β) {i : Nat} {key : α} (h : keys[i]? = some key) :
    (keys.zip values).lookup key = values[i]? := by
  induction keys generalizing values i with
  | nil => simp at h
  | cons k keys ih =>
    obtain ⟨hnew, hnodup⟩ := List.nodup_cons.1 hnodup
    cases values with
    | nil => simp
    | cons v values =>
      cases i with
      | zero =>
        obtain rfl : k = key := by simpa using h
        simp
      | succ i =>
        have hlater : keys[i]? = some key := by simpa using h
        have hother : (key == k) = false :=
          beq_false_of_ne fun hsame => hnew (hsame ▸ List.mem_of_getElem? hlater)
        rw [List.zip_cons_cons, List.lookup_cons, hother]
        simpa using ih hnodup values hlater

/-! ## Results -/

/-- The query whose value was published, and the value. -/
def Event.result : Event → Option (Nat × Value)
  | .ran i (.ok value) (.ok ()) => some (i, value)
  | _ => none

theorem Event.result_eq_some_iff {event : Event} {i : Nat} {value : Value} :
    event.result = some (i, value) ↔ event = .ran i (.ok value) (.ok ()) := by
  constructor
  · intro h
    unfold Event.result at h
    split at h
    next =>
      obtain ⟨rfl, rfl⟩ := Prod.mk.inj (Option.some.inj h)
      rfl
    next => cases h
  · rintro rfl
    rfl

namespace Batch

variable {dag : DependencyGraph} {b b' : Batch} {i j : Nat} {env : SharedEnvironment}
  {supply : Supply} {history : List Event}

/-! ## Batches at rest -/

theorem queued_eq_nil_iff : b.queued = [] ↔ b.tasks = [] :=
  List.map_eq_nil_iff

theorem Tracked.outstanding_eq_zero_iff (ht : Tracked b) : b.outstanding = 0 ↔ b.tasks = [] := by
  rw [ht.outstanding_eq, ← queued_eq_nil_iff, ← List.length_eq_zero_iff]
  omega

theorem Tracked.not_active (ht : Tracked b) (hrest : b.tasks = []) {status : QueryStatus}
    (h : b.status[j]? = some status) : status.isActive = false := by
  have hactive := ht.active j
  rw [phaseOf_eq_none_iff.2 (by simp [queued, hrest]), h] at hactive
  simpa [Option.filter] using hactive

theorem Consistent.status_of_lt (hc : Consistent dag b) (hlt : j < dag.size) :
    ∃ status, b.status[j]? = some status :=
  ⟨_, Array.getElem?_eq_getElem (hc.status_size.symm ▸ hlt)⟩

/-- A query whose predecessors are all done is not left behind. -/
theorem Consistent.all_done (hc : Consistent dag b) (hw : dag.WellFormed) (hacyclic : dag.Acyclic)
    (hintact : b.failure = none) (hrest : b.tasks = []) : ∀ j < dag.size, b.isDone j = true := by
  -- With everything that it waits for done, the query was freed; and since no worker has it, it has
  -- ended, which without a failure it can do in one way only.
  refine hacyclic.induction hw fun j hlt hbefore => ?_
  obtain ⟨status, h⟩ := hc.status_of_lt hlt
  obtain ⟨n, hn⟩ := hc.indegree_of_lt hlt
  have hnone_left : b.waitsFor dag j = 0 := List.countP_eq_zero.2 fun p hp => by simp [hbefore p hp]
  have hn_zero : n = 0 := by
    have := hc.waitsFor_eq hintact hn
    omega
  have hstarted : b.status[j]? ≠ some .pending :=
    fun hpending => (hc.pending_iff hn).1 hpending hn_zero
  have hidle := hc.not_active hrest h
  have hunharmed := hc.intact hintact j
  rw [h] at hstarted hunharmed
  rw [isDone, h]
  cases status <;> simp_all [QueryStatus.isActive]

/-- Nobody is left waiting: the collector may go as soon as no query is in the hands of a
worker. -/
theorem Consistent.isFinished (hc : Consistent dag b) (hw : dag.WellFormed) (hacyclic : dag.Acyclic)
    (hrest : b.outstanding = 0) : b.isFinished = true := by
  cases hfailed : b.failure with
  | some e => simp [Batch.isFinished, hfailed, hrest]
  | none =>
    have hdone := hc.all_done hw hacyclic hfailed (hc.outstanding_eq_zero_iff.1 hrest)
    have hclosed : b.openSinks dag = 0 := List.countP_eq_zero.2 fun j hmem => by
      simp [hdone j (List.mem_range.1 hmem)]
    simp [Batch.isFinished, hc.sinksRemaining_eq, hclosed]

/-- As long as a query is in the hands of a worker, this worker can go on, and if it is to run a
body it can do so without a break. -/
theorem exists_unbroken_step (dag : DependencyGraph) (g : Graph) (h : b.tasks ≠ []) :
    ∃ events b', Silent events ∧ Step dag b events b' ∧
      ∀ i outcome result, .ran i outcome result ∈ events →
        ∃ own, b.phaseOf i = some (.started (some own)) ∧
          outcome = (own.run g b.env b.supply).1 ∧ b' = b.execute dag g i := by
  obtain ⟨task, tasks, hhere⟩ := List.exists_cons_of_ne_nil h
  have hmem : task.query ∈ b.queued := by simp [queued, hhere]
  obtain ⟨phase, hcurrent⟩ := Option.ne_none_iff_exists'.1 ((mem_queued_iff b task.query).1 hmem)
  cases phase with
  | queued =>
    cases hfailed : b.failure with
    | none => exact ⟨_, _, by simp [Silent], .start hcurrent hfailed, by simp⟩
    | some e => exact ⟨_, _, by simp [Silent], .cancel hcurrent hfailed, by simp⟩
  | started body =>
    obtain ⟨events, hsilent, hstep, hasked⟩ := Step.execute dag hcurrent g
    refine ⟨events, _, hsilent, hstep, fun i outcome result hran => ?_⟩
    obtain ⟨rfl, own, rfl, rfl⟩ := hasked i outcome result hran
    exact ⟨own, hcurrent, rfl, rfl⟩
  | executed body result => exact ⟨_, _, by simp [Silent], .settle hcurrent, by simp⟩

theorem exists_step (dag : DependencyGraph) (h : b.tasks ≠ []) :
    ∃ events b', Step dag b events b' := by
  obtain ⟨events, b', -, hstep, -⟩ := exists_unbroken_step dag {} h
  exact ⟨events, b', hstep⟩

/-- The same for workers that do as they are asked. -/
theorem RunUnder.exists_step {conduct : Conduct} {g : Graph}
    (hrun : RunUnder dag conduct env supply history b)
    (hunbroken : conduct.Unbroken dag g env supply) (h : b.tasks ≠ []) :
    ∃ events b', Silent events ∧ Step dag b events b' ∧
      RunUnder dag conduct env supply (history ++ events) b' := by
  obtain ⟨events, b', hsilent, hstep, hasked⟩ := exists_unbroken_step dag g h
  refine ⟨events, b', hsilent, hstep, hrun.step hstep fun i outcome result hran => ?_⟩
  obtain ⟨own, hstarted, rfl, rfl⟩ := hasked i outcome result hran
  exact hunbroken history b i own hrun.run hstarted

/-! ## Reports -/

theorem status_conclude (hw : dag.WellFormed) (hlt : i < dag.size) :
    (b.conclude dag.emptied).report.status (dag.nameOf i) = b.status[i]?.map finalStatus := by
  have hnamed := DependencyGraph.getElem?_names_of_lt hlt
  have hfound := lookup_zip hw.names_nodup (b.status.toList.map finalStatus) hnamed
  rw [ScheduleReport.status, conclude, DependencyGraph.names_emptied, hfound]
  simp

/-- In the end nothing waits, and nothing runs. -/
theorem Consistent.finalStatus_cases (hc : Consistent dag b) (hrest : b.tasks = [])
    (hlt : i < dag.size) :
    ∃ status, b.status[i]?.map finalStatus = some status ∧
      (status = .done ∨ status = .failed ∨ status = .cancelled) := by
  obtain ⟨status, h⟩ := hc.status_of_lt hlt
  have hidle := hc.not_active hrest h
  refine ⟨finalStatus status, by rw [h]; rfl, ?_⟩
  cases status <;> simp_all [QueryStatus.isActive, finalStatus]

theorem finalStatus_eq_done_iff {status : QueryStatus} :
    finalStatus status = .done ↔ status = .done := by
  cases status <;> simp [finalStatus]

/-! ## The environment in the end -/

theorem mem_results_iff {value : Value} :
    (i, value) ∈ history.filterMap Event.result ↔ .ran i (.ok value) (.ok ()) ∈ history := by
  simp only [List.mem_filterMap, Event.result_eq_some_iff, exists_eq_right]

theorem filterMap_entry_of_silent (dag : DependencyGraph) (hsilent : Silent history) :
    history.filterMap (Event.entry dag) =
      (history.filterMap Event.result).map fun r => (dag.nameOf r.1, r.2) := by
  rw [List.map_filterMap]
  refine List.filterMap_congr fun event hmem => ?_
  cases event with
  | wrote i name value => exact (hsilent i name value hmem).elim
  | ran i outcome result => cases outcome <;> cases result <;> rfl
  | handedOut => rfl
  | started => rfl
  | cancelled => rfl
  | settled => rfl

theorem Run.results_nodup (hrun : Run dag env supply history b) (hw : dag.WellFormed) :
    ((history.filterMap Event.result).map Prod.fst).Nodup := by
  rw [List.map_filterMap]
  refine hrun.nodup_of_mark hw (k := 3) fun event i hfound => ?_
  obtain ⟨⟨j, value⟩, hran, rfl⟩ := Option.map_eq_some_iff.1 hfound
  rw [Event.result_eq_some_iff.1 hran]
  rfl

/-! ## The account -/

/-- What the report and the environment tell about the history of a batch that has ended. -/
structure Accounts (dag : DependencyGraph) (env : SharedEnvironment) (history : List Event)
    (outcome : ScheduleOutcome) : Prop where
  /-- Every query has ended. -/
  ended {i : Nat} : i < dag.size →
    ∃ status, outcome.report.status (dag.nameOf i) = some status ∧
      (status = .done ∨ status = .failed ∨ status = .cancelled)
  failure_eq_none_iff : outcome.report.failure = none ↔
    ∀ i < dag.size, outcome.report.status (dag.nameOf i) = some .done
  /-- Only a query that was never started is cancelled. -/
  cancelled_iff {i : Nat} : i < dag.size →
    (outcome.report.status (dag.nameOf i) = some .cancelled ↔ .started i ∉ history)
  /-- The failure is the first error that was noted, and its query has failed.  It names this
  query, provided that the body did not itself answer with the report of a panic. -/
  first_failure {e : EvalError} : outcome.report.failure = some e →
    ∃ i cause before after, i < dag.size ∧
      history = before ++ .settled i (.error cause) :: after ∧
      (∀ j other, .settled j (.error other) ∉ before) ∧
      e = captured (dag.nameOf i) cause ∧
      outcome.report.status (dag.nameOf i) = some .failed ∧
      ((∀ query message result,
          .ran i (.error (.error (.queryPanicked query message))) result ∉ history) →
        e.failedQuery = some (dag.nameOf i))
  /-- What a query that is done depends on is done. -/
  closed {i p : Nat} : i < dag.size → outcome.report.status (dag.nameOf i) = some .done →
    p ∈ dag.predecessorsOf i → outcome.report.status (dag.nameOf p) = some .done
  /-- The environment holds what was there at the start and the values of the queries that are
  done, each under the name of its query, and nothing else. -/
  entries : ∃ results : List (Nat × Value),
    outcome.env.entries = env.entries ++ results.map (fun r => (dag.nameOf r.1, r.2)) ∧
    (results.map Prod.fst).Nodup ∧
    (∀ i value, (i, value) ∈ results → .ran i (.ok value) (.ok ()) ∈ history) ∧
    ∀ i < dag.size, outcome.report.status (dag.nameOf i) = some .done ↔
      ∃ value, (i, value) ∈ results
  /-- The value of a query that is done can be found under its name, which was free. -/
  result {i : Nat} : i < dag.size → outcome.report.status (dag.nameOf i) = some .done →
    env.get (dag.nameOf i) = none ∧
      ∃ value, .ran i (.ok value) (.ok ()) ∈ history ∧
        outcome.env.get (dag.nameOf i) = some value
  kept {name : String} {value : Value} :
    env.get name = some value → outcome.env.get name = some value
  /-- A query whose name was taken fails if it is started. -/
  taken {i : Nat} : .started i ∈ history → env.contains (dag.nameOf i) = true →
    outcome.report.status (dag.nameOf i) = some .failed

/-- The error of a query is put under its name, unless the body has named another one. -/
theorem Explained.failedQuery {cause : EvalError} (h : Explained dag history i cause)
    (hown : ∀ query message result,
      .ran i (.error (.error (.queryPanicked query message))) result ∉ history) :
    (captured (dag.nameOf i) cause).failedQuery = some (dag.nameOf i) := by
  cases cause with
  | queryPanicked query message =>
    rcases h query message rfl with hsame | ⟨result, hanswered⟩
    · exact congrArg some hsame
    · exact absurd hanswered (hown query message result)
  | _ => rfl

theorem failure_eq_some {event : Event} {e : EvalError} (h : event.failure dag = some e) :
    ∃ i cause, event = .settled i (.error cause) ∧ e = captured (dag.nameOf i) cause := by
  unfold Event.failure at h
  split at h
  next i cause => exact ⟨i, cause, rfl, (Option.some.inj h).symm⟩
  next => cases h

theorem Run.first_failure (hrun : Run dag env supply history b) (hw : dag.WellFormed)
    {e : EvalError} (h : b.failure = some e) :
    ∃ i cause before after, history = before ++ .settled i (.error cause) :: after ∧
      (∀ j other, .settled j (.error other) ∉ before) ∧ e = captured (dag.nameOf i) cause := by
  rw [hrun.failure hw] at h
  obtain ⟨before, event, after, hsplit, hfound, hnothing⟩ := List.findSome?_eq_some_iff.1 h
  obtain ⟨i, cause, rfl, hcaptured⟩ := failure_eq_some hfound
  refine ⟨i, cause, before, after, hsplit, fun j other hmem => ?_, hcaptured⟩
  cases hnothing _ hmem

theorem Run.accounts (hrun : Run dag env supply history b) (hw : dag.WellFormed)
    (hacyclic : dag.Acyclic) (hsilent : Silent history) (hrest : b.tasks = []) :
    Accounts dag env history (b.conclude dag.emptied) := by
  have hc := hrun.consistent hw
  have hdone_iff {i : Nat} (hlt : i < dag.size) :
      (b.conclude dag.emptied).report.status (dag.nameOf i) = some .done ↔ b.isDone i = true := by
    simp [status_conclude hw hlt, isDone, finalStatus_eq_done_iff]
  have hfailed_of {i : Nat} (hfailed : b.status[i]? = some .failed) :
      (b.conclude dag.emptied).report.status (dag.nameOf i) = some .failed := by
    rw [status_conclude hw (hc.lt_of_status hfailed), hfailed]
    rfl
  constructor
  case ended =>
    intro i hlt
    rw [status_conclude hw hlt]
    exact hc.finalStatus_cases hrest hlt
  case cancelled_iff =>
    intro i hlt
    obtain ⟨status, h⟩ := hc.status_of_lt hlt
    have hidle := hc.not_active hrest h
    rw [status_conclude hw hlt, h]
    constructor
    · intro hcancelled hstarted
      obtain ⟨_, hsame, hunderway⟩ := hrun.started hw hstarted
      obtain rfl := Option.some.inj (h.symm.trans hsame)
      rcases hunderway with rfl | rfl | rfl <;> simp [finalStatus] at hcancelled
    · intro hnever
      have hhalted (hunderway : status = .running ∨ status = .done ∨ status = .failed) : False :=
        hnever (hrun.started_mem hw h hunderway)
      cases status <;> simp_all [finalStatus]
  case failure_eq_none_iff =>
    constructor
    · intro hintact i hlt
      exact (hdone_iff hlt).2 (hc.all_done hw hacyclic hintact hrest i hlt)
    · intro hdone
      by_contra htroubled
      -- Behind every failure there is a query that has failed, and this one is not done.
      obtain ⟨j, hfailed⟩ := hc.failed htroubled
      cases (hfailed_of hfailed).symm.trans (hdone j (hc.lt_of_status hfailed))
  case first_failure =>
    intro e h
    obtain ⟨i, cause, before, after, hsplit, hnothing, rfl⟩ := hrun.first_failure hw h
    have hmem : .settled i (.error cause) ∈ history := by simp [hsplit]
    have hfailed := hrun.failed hw hmem
    exact ⟨i, cause, before, after, hc.lt_of_status hfailed, hsplit, hnothing, rfl,
      hfailed_of hfailed, ((hrun.explained hw).2 i cause hmem).failedQuery⟩
  case closed =>
    intro i p hlt hdone hp
    have hdone := beq_iff_eq.1 ((hdone_iff hlt).1 hdone)
    exact (hdone_iff (hw.predecessor_lt hp)).2 (hc.predecessors_done hdone (by decide) hp)
  case entries =>
    refine ⟨history.filterMap Event.result, ?_, hrun.results_nodup hw, fun i value hmem =>
      mem_results_iff.1 hmem, fun i hlt => ?_⟩
    · rw [← filterMap_entry_of_silent dag hsilent]
      exact hrun.entries hw
    · have hidle : b.phaseOf i = none := phaseOf_eq_none_iff.2 (by simp [queued, hrest])
      rw [hdone_iff hlt, ← published_of_idle hidle, hrun.published_iff hw]
      simp only [mem_results_iff]
  case result =>
    intro i hlt hdone
    obtain ⟨value, hran, hstored⟩ := hrun.result_of_isDone hw ((hdone_iff hlt).1 hdone)
    exact ⟨(hrun.result hw hran).1, value, hran, hstored⟩
  case kept => exact fun h => hrun.get_of_get hw h
  case taken =>
    intro i hstarted htaken
    obtain ⟨status, h, rfl | rfl | rfl⟩ := hrun.started hw hstarted
    · cases hc.not_active hrest h
    · obtain ⟨value, hran, -⟩ := hrun.result_of_isDone hw (i := i) (by rw [isDone, h]; rfl)
      simp [SharedEnvironment.contains, (hrun.result hw hran).1] at htaken
    · exact hfailed_of h

/-- The collector may go as soon as no worker has a query, and until then a worker can go on.
After a failure no query starts to run.  In the end the report and the environment tell what
happened. -/
theorem run_outcome (hbuilt : dag.Built) (hacyclic : dag.Acyclic)
    (hrun : Run dag env supply history b) (hsilent : Silent history) :
    (b.outstanding = 0 → b.isFinished = true) ∧
      (b.outstanding = 0 ↔ b.tasks = []) ∧
      (b.tasks ≠ [] → ∃ events b', Step dag b events b') ∧
      (∀ e, b.failure = some e → ∀ events b', Step dag b events b' →
        b'.failure = some e ∧
          ∀ i : Nat, b'.status[i]? = some .running → b.status[i]? = some .running) ∧
      (b.tasks = [] → Accounts dag env history (b.conclude dag.emptied)) := by
  have hw := hbuilt.wellFormed
  have hc := hrun.consistent hw
  refine ⟨hc.isFinished hw hacyclic, hc.outstanding_eq_zero_iff, exists_step dag, ?_,
    hrun.accounts hw hacyclic hsilent⟩
  intro e hfailed events b' hstep
  refine ⟨by rw [hstep.failure hw, hfailed]; rfl, fun i hrunning => ?_⟩
  rcases hstep.running hw hc hrunning with hbefore | hintact
  · exact hbefore
  · cases hfailed.symm.trans hintact

end Batch

theorem acyclic_trip : trip.Acyclic := by
  refine DependencyGraph.acyclic_of_lt fun j i h => ?_
  match j with
  | 0 => simp [DependencyGraph.DependsOn, DependencyGraph.predecessorsOf, trip] at h
  | 1 => simp [DependencyGraph.DependsOn, DependencyGraph.predecessorsOf, trip] at h; omega
  | 2 => simp [DependencyGraph.DependsOn, DependencyGraph.predecessorsOf, trip] at h; omega
  | j + 3 => simp [DependencyGraph.DependsOn, DependencyGraph.predecessorsOf, trip] at h

/-- A trip that has been planned before is not replaced: its query fails. -/
theorem Batch.run_outcome_trip : trip.Built ∧ trip.Acyclic ∧ ∃ history b,
    Batch.Run trip ⟨[("trip", .null)]⟩ {} history b ∧ Batch.Silent history ∧ b.tasks = [] ∧
      b.failure = some (.queryFailed "trip" (.duplicateResult "trip")) ∧
      b.isFinished = true ∧
      Batch.Accounts trip ⟨[("trip", .null)]⟩ history (b.conclude trip.emptied) := by
  obtain ⟨history, b, hsilent, hrun, hended, hsame⟩ :=
    schedule_eq_conclude built_trip.wellFormed {} ⟨[("trip", .null)]⟩ {} sorted_trip
  have hrest : b.tasks = [] := Batch.queued_eq_nil_iff.1 hended
  have hfailure : (schedule trip {} ⟨[("trip", .null)]⟩ {}).report.failure =
      some (.queryFailed "trip" (.duplicateResult "trip")) := by decide +kernel
  have houtcome := Batch.run_outcome built_trip acyclic_trip hrun hsilent
  rw [hsame] at hfailure
  exact ⟨built_trip, acyclic_trip, history, b, hrun, hsilent, hrest, hfailure,
    houtcome.1 (houtcome.2.1.2 hrest), houtcome.2.2.2.2 hrest⟩

/-- Passes on that something else panicked. -/
def passingOn : Procedure where
  act _ _ _ := .error (.error (.queryPanicked "map" "torn"))

/-- The plan passes on that a map was torn, and the trip waits for the plan. -/
def relay : DependencyGraph where
  nodes := #[
    { name := "plan", body := some (.procedure passingOn), successors := [1] },
    { name := "trip", body := some (.procedure (.shared "plan")), predecessors := [0] }]

theorem built_relay : relay.Built := by
  have hplan := DependencyGraph.Built.empty.addQuery "plan" (.procedure passingOn) rfl
  have htrip := hplan.addQuery "trip" (.procedure (.shared "plan")) rfl
  exact htrip.addDependency "trip" "plan" rfl

theorem acyclic_relay : relay.Acyclic := by
  refine DependencyGraph.acyclic_of_lt fun j i h => ?_
  match j with
  | 0 => simp [DependencyGraph.DependsOn, DependencyGraph.predecessorsOf, relay] at h
  | 1 => simp [DependencyGraph.DependsOn, DependencyGraph.predecessorsOf, relay] at h; omega
  | j + 2 => simp [DependencyGraph.DependsOn, DependencyGraph.predecessorsOf, relay] at h

theorem sorted_relay : relay.topologicalOrder = .ok ["plan", "trip"] := by
  decide +kernel

/-- The failure names what is no query of the batch; and a query whose name was taken has not
failed, since it was never started. -/
theorem Batch.panic_report_passed_on : relay.Built ∧ relay.Acyclic ∧ ∃ history b,
    Batch.Run relay ⟨[("trip", .null)]⟩ {} history b ∧ Batch.Silent history ∧ b.tasks = [] ∧
      (b.conclude relay.emptied).report.failure.bind EvalError.failedQuery = some "map" ∧
      (b.conclude relay.emptied).report.status "map" = none ∧
      (b.conclude relay.emptied).report.status "plan" = some .failed ∧
      (b.conclude relay.emptied).report.status "trip" = some .cancelled := by
  obtain ⟨history, b, hsilent, hrun, hended, hsame⟩ :=
    schedule_eq_conclude built_relay.wellFormed {} ⟨[("trip", .null)]⟩ {}
      sorted_relay
  refine ⟨built_relay, acyclic_relay, history, b, hrun, hsilent,
    Batch.queued_eq_nil_iff.1 hended, ?_⟩
  rw [← hsame]
  decide +kernel

end PathQuery

import PathQuery.Proofs.Schedule.Outcome

/-!
# Who has the bodies

As long as a batch runs its nodes are empty.  The body of a query leaves the table of the bodies
when the query starts, goes through the hands of a worker, and comes back when the outcome is noted;
in the end the nodes are filled from the table.

* `Body.Descends`: what a body can become by being run;
* `Batch.bodyOf`: the body of a query, wherever it is at the moment;
* `Batch.handsBack`: workers hand back the body that they have run;
* `Run.bodyOf_of_not_ran`: until a body has run, the query has the one that it was given;
* `Step.bodyOf`, `RunUnder.bodyOf`: no step loses a body or mixes it up with another one;
* `DependencyGraph.Rescheduled`: a batch after any number of runs;
* `rescheduled_whole`: it is the batch that it was, and no query is ever without a body.
-/

namespace PathQuery

/-! ## Bodies -/

/-- The second body is the first one after some runs. -/
inductive Body.Descends (body : Body) : Body → Prop where
  | refl : Descends body body
  | run {body' : Body} (g : Graph) (env : SharedEnvironment) (supply : Supply) :
      Descends body body' → Descends body (body'.run g env supply).2.1

theorem Body.Descends.trans {body body' body'' : Body} (h : body.Descends body')
    (h' : body'.Descends body'') : body.Descends body'' := by
  induction h' with
  | refl => exact h
  | run g env supply _ ih => exact ih.run g env supply

def DependencyGraph.bodyOf (dag : DependencyGraph) (i : Nat) : Option Body :=
  (dag.nodes[i]?).bind (·.body)

namespace Batch

variable {dag : DependencyGraph} {b b' : Batch} {i j : Nat} {env : SharedEnvironment}
  {supply : Supply} {history events : List Event}

/-- A worker has the body from the start of the query until the outcome is noted. -/
def bodyOf (b : Batch) (i : Nat) : Option Body :=
  match b.phaseOf i with
  | some (.started body) => body
  | some (.executed body _) => body
  | _ => (b.bodies[i]?).bind id

theorem bodyOf_of_started {body : Option Body} (h : b.phaseOf i = some (.started body)) :
    b.bodyOf i = body := by
  rw [bodyOf, h]

theorem bodyOf_of_executed {body : Option Body} {result : Except EvalError Unit}
    (h : b.phaseOf i = some (.executed body result)) : b.bodyOf i = body := by
  rw [bodyOf, h]

theorem bodyOf_of_queued (h : b.phaseOf i = some .queued) :
    b.bodyOf i = (b.bodies[i]?).bind id := by
  rw [bodyOf, h]

theorem bodyOf_of_idle (h : b.phaseOf i = none) : b.bodyOf i = (b.bodies[i]?).bind id := by
  rw [bodyOf, h]

theorem bodyOf_congr (hphase : b'.phaseOf i = b.phaseOf i) (hbody : b'.bodies[i]? = b.bodies[i]?) :
    b'.bodyOf i = b.bodyOf i := by
  rw [bodyOf, bodyOf, hphase, hbody]

/-! ## Steps -/

/-- A body that ends comes back as its run has left it. -/
def handsBack : Conduct := fun _ b i _ b' =>
  ∃ body g env supply result, b.phaseOf i = some (.started (some body)) ∧
    b'.phaseOf i = some (.executed (some (Body.run body g env supply).2.1) result)

theorem unbroken_handsBack (dag : DependencyGraph) (g : Graph) (env : SharedEnvironment)
    (supply : Supply) : handsBack.Unbroken dag g env supply := by
  intro history b i body _ hstarted
  have hexecuted : (b.execute dag g i).phaseOf i =
      some (.executed (some (body.run g b.env b.supply).2.1)
        (publish b.env (dag.nameOf i) (body.run g b.env b.supply).1).1) := by
    rw [execute, hstarted]
    refine (phaseOf_setPhase b i _ i).trans ?_
    rw [if_pos rfl, hstarted]
    rfl
  exact ⟨body, g, b.env, b.supply, _, hstarted, hexecuted⟩

theorem bodies_settle (hw : dag.WellFormed) {body : Option Body} {result : Except EvalError Unit}
    (h : b.phaseOf i = some (.executed body result)) :
    (b.settle dag i).bodies = b.bodies.modify i fun _ => body := by
  cases result with
  | ok => rw [settle_eq_of_ok hw h]
  | error e => rw [settle_eq_of_error h]

theorem Step.size_bodies (hstep : Step dag b events b') (hw : dag.WellFormed) :
    b'.bodies.size = b.bodies.size := by
  cases hstep with
  | start hqueued hintact => simp [start_eq_running hintact]
  | cancel hqueued hfailed => simp [start_eq_cancelled hfailed]
  | run hstarted => rfl
  | lack hstarted => rfl
  | write => rfl
  | settle hexecuted => rw [bodies_settle hw hexecuted, Array.size_modify]

/-- What a worker has noted is back in the batch; what it has not got it leaves alone. -/
theorem Consistent.bodyOf_settle (hc : Consistent dag b) (hw : dag.WellFormed)
    (hsize : b.bodies.size = dag.size) {body : Option Body} {result : Except EvalError Unit}
    (h : b.phaseOf i = some (.executed body result)) (j : Nat) :
    (b.settle dag i).bodyOf j = b.bodyOf j := by
  have hleaves := hc.leaves_settle hw h
  have hbodies : (b.settle dag i).bodies[j]? =
      if i = j then b.bodies[j]?.map fun _ => body else b.bodies[j]? := by
    rw [bodies_settle hw h, Array.getElem?_modify]
  by_cases hsame : j = i
  · subst hsame
    have hlt : j < b.bodies.size := hsize.symm ▸ hc.lt_size h
    rw [bodyOf_of_idle hleaves.own, hbodies, if_pos rfl, bodyOf_of_executed h,
      Array.getElem?_eq_getElem hlt]
    rfl
  · rw [if_neg (Ne.symm hsame)] at hbodies
    rcases hleaves.others j hsame with hphase | ⟨hidle, hqueued⟩
    · exact bodyOf_congr hphase hbodies
    · rw [bodyOf_of_queued hqueued, bodyOf_of_idle hidle, hbodies]

/-- A query keeps its body until the body has run. -/
theorem Step.bodyOf_of_not_ran (hstep : Step dag b events b') (hw : dag.WellFormed)
    (hc : Consistent dag b) (hsize : b.bodies.size = dag.size)
    (hunran : ∀ outcome result, .ran j outcome result ∉ events) {body : Body}
    (h : b.bodyOf j = some body) : b'.bodyOf j = some body := by
  rw [← h]
  cases hstep with
  | @start i hqueued hintact =>
    have hphase := phaseOf_start_running (i := i) hintact j
    have hbodies : (b.start i).bodies[j]? =
        if i = j then b.bodies[j]?.map fun _ => none else b.bodies[j]? := by
      rw [start_eq_running hintact, Array.getElem?_modify]
    by_cases hsame : j = i
    · subst hsame
      rw [if_pos rfl, hqueued] at hphase
      exact (bodyOf_of_started hphase).trans (bodyOf_of_queued hqueued).symm
    · rw [if_neg hsame] at hphase
      rw [if_neg (Ne.symm hsame)] at hbodies
      exact bodyOf_congr hphase hbodies
  | @cancel i e hqueued hfailed =>
    have hphase := phaseOf_start_cancelled (i := i) hfailed j
    have hbodies : (b.start i).bodies[j]? = b.bodies[j]? := by rw [start_eq_cancelled hfailed]
    by_cases hsame : j = i
    · subst hsame
      rw [if_pos rfl] at hphase
      rw [bodyOf_of_idle hphase, bodyOf_of_queued hqueued, hbodies]
    · exact bodyOf_congr (hphase.trans (if_neg hsame)) hbodies
  | @run i own rest outcome result env supply hstarted hpublication =>
    have hsame : j ≠ i := fun hsame => hunran outcome result (hsame ▸ List.mem_singleton_self _)
    exact bodyOf_congr ((phaseOf_setPhase b i _ j).trans (if_neg hsame)) rfl
  | @lack i hstarted =>
    by_cases hsame : j = i
    · subst hsame
      cases (bodyOf_of_started hstarted).symm.trans h
    · exact bodyOf_congr ((phaseOf_setPhase b i _ j).trans (if_neg hsame)) rfl
  | write => rfl
  | settle hexecuted => exact hc.bodyOf_settle hw hsize hexecuted j

/-- Every query keeps its body, up to one run of it. -/
theorem Step.bodyOf (hstep : Step dag b events b') (hw : dag.WellFormed) (hc : Consistent dag b)
    (hsize : b.bodies.size = dag.size)
    (hback : ∀ i outcome result, .ran i outcome result ∈ events → handsBack history b i outcome b')
    {body : Body} (h : b.bodyOf j = some body) :
    ∃ rest, b'.bodyOf j = some rest ∧ body.Descends rest := by
  by_cases hran : ∃ outcome result, .ran j outcome result ∈ events
  · -- The body that the worker has is the one that it was given, so what it hands back descends
    -- from it.
    obtain ⟨outcome, result, hmem⟩ := hran
    obtain ⟨own, g, env', supply', result', hstarted, hexecuted⟩ := hback j outcome result hmem
    obtain rfl := Option.some.inj ((bodyOf_of_started hstarted).symm.trans h)
    exact ⟨_, bodyOf_of_executed hexecuted, Body.Descends.refl.run g env' supply'⟩
  · push Not at hran
    exact ⟨body, hstep.bodyOf_of_not_ran hw hc hsize hran h, .refl⟩

/-! ## Runs -/

theorem bodyOf_launch (j : Nat) :
    (initial dag env supply).launch.bodyOf j = dag.bodyOf j := by
  have hbodies : (initial dag env supply).launch.bodies = dag.nodes.map (·.body) := by
    rw [launch_eq]
    rfl
  have hhere : (initial dag env supply).launch.bodyOf j =
      ((initial dag env supply).launch.bodies[j]?).bind id := by
    by_cases hroot : j ∈ DependencyGraph.roots dag.indegrees
    · exact bodyOf_of_queued ((phaseOf_launch j).trans (if_pos hroot))
    · exact bodyOf_of_idle ((phaseOf_launch j).trans (if_neg hroot))
  rw [hhere, hbodies, Array.getElem?_map, DependencyGraph.bodyOf]
  cases dag.nodes[j]? <;> rfl

theorem Run.size_bodies (hrun : Run dag env supply history b) (hw : dag.WellFormed) :
    b.bodies.size = dag.size := by
  induction hrun with
  | launch =>
    rw [launch_eq]
    exact Array.size_map
  | step _ hstep ih => exact (hstep.size_bodies hw).trans ih

/-- What a worker starts is the body that the query was given. -/
theorem Run.bodyOf_of_not_ran (hrun : Run dag env supply history b) (hw : dag.WellFormed)
    (hunran : ∀ outcome result, .ran j outcome result ∉ history) {body : Body}
    (h : dag.bodyOf j = some body) : b.bodyOf j = some body := by
  induction hrun with
  | launch => exact (bodyOf_launch j).trans h
  | step hrun hstep ih =>
    refine hstep.bodyOf_of_not_ran hw (hrun.consistent hw) (hrun.size_bodies hw) ?_ (ih ?_)
    · exact fun outcome result hnow => hunran outcome result (List.mem_append_right _ hnow)
    · exact fun outcome result hearlier => hunran outcome result (List.mem_append_left _ hearlier)

theorem RunUnder.bodyOf (hrun : RunUnder dag handsBack env supply history b) (hw : dag.WellFormed)
    {body : Body} (h : dag.bodyOf j = some body) :
    ∃ rest, b.bodyOf j = some rest ∧ body.Descends rest := by
  induction hrun with
  | launch => exact ⟨body, (bodyOf_launch j).trans h, .refl⟩
  | step hrun hstep hback ih =>
    obtain ⟨rest, hhere, hdescends⟩ := ih
    obtain ⟨rest', hhere', hdescends'⟩ :=
      hstep.bodyOf hw (hrun.run.consistent hw) (hrun.run.size_bodies hw) hback hhere
    exact ⟨rest', hhere', hdescends.trans hdescends'⟩

end Batch

/-! ## Batches that are run again -/

namespace DependencyGraph

variable {dag dag' : DependencyGraph}

theorem Built.exists_body (hbuilt : dag.Built) :
    ∀ i < dag.size, ∃ body, dag.bodyOf i = some body := by
  induction hbuilt with
  | empty => exact fun i hlt => (Nat.not_lt_zero i hlt).elim
  | @addQuery dag dag' name body _ hadded ih =>
    obtain ⟨-, rfl⟩ := addQuery_eq_ok_iff.1 hadded
    intro i hlt
    simp only [size, Array.size_push] at hlt
    simp only [bodyOf, Array.getElem?_push]
    split
    next hlast => exact ⟨body, rfl⟩
    next => exact ih i (by unfold size; omega)
  | addDependency _ _ _ hadded ih =>
    obtain ⟨s, p, -, -, rfl⟩ := addDependency_eq_ok hadded
    split
    next => exact ih
    next =>
      intro i hlt
      simp only [size, link, Array.size_modify] at hlt
      obtain ⟨body, hhere⟩ := ih i hlt
      refine ⟨body, ?_⟩
      rw [← hhere]
      simp only [bodyOf, link, Array.getElem?_modify]
      cases _ : dag.nodes[i]? <;> split <;> split <;> simp_all

end DependencyGraph

namespace Batch

variable {dag : DependencyGraph} {b : Batch} {env : SharedEnvironment} {supply : Supply}

/-- Every node gets a body again, and nothing else changes. -/
theorem emptied_putBack {bodies : Array (Option Body)} (hsize : bodies.size = dag.size) :
    (putBack dag.emptied bodies).emptied = dag.emptied := by
  unfold DependencyGraph.size at hsize
  refine congrArg DependencyGraph.mk (Array.ext ?_ ?_)
  · simp [DependencyGraph.emptied, putBack, hsize]
  intro i _ _
  simp [DependencyGraph.emptied, putBack]

theorem bodyOf_putBack {bodies : Array (Option Body)} (hsize : bodies.size = dag.size) (i : Nat) :
    (putBack dag.emptied bodies).bodyOf i = (bodies[i]?).bind id := by
  unfold DependencyGraph.size at hsize
  by_cases hlt : i < bodies.size
  · simp [DependencyGraph.bodyOf, DependencyGraph.emptied, putBack, hlt, hsize ▸ hlt]
  · simp [DependencyGraph.bodyOf, DependencyGraph.emptied, putBack, hlt]

end Batch

namespace DependencyGraph

/-- What becomes of a batch by being run again and again.  A scheduler can refuse it because of a
cyclic dependency or for lack of workers; else the run goes on until no worker has a query, whatever
the bodies answer. -/
inductive Rescheduled (dag : DependencyGraph) : DependencyGraph → Prop where
  | new : Rescheduled dag dag
  | cyclic {dag' : DependencyGraph} (s : Scheduler) (g : Graph) (env : SharedEnvironment)
      (supply : Supply) {e : EvalError} :
      Rescheduled dag dag' → dag'.topologicalOrder = .error e →
      Rescheduled dag (s.run dag' g env supply).dag
  | unstaffed {dag' : DependencyGraph} (s : Scheduler) (g : Graph) (env : SharedEnvironment)
      (supply : Supply) {order : List String} {reason : String} :
      Rescheduled dag dag' → dag'.topologicalOrder = .ok order →
      s.startWorkers s.config = .error reason → Rescheduled dag (s.run dag' g env supply).dag
  | ran {dag' : DependencyGraph} {order : List String} {env : SharedEnvironment} {supply : Supply}
      {history : List Event} {b : Batch} :
      Rescheduled dag dag' → dag'.topologicalOrder = .ok order →
      Batch.RunUnder dag' Batch.handsBack env supply history b → b.tasks = [] →
      Rescheduled dag (b.conclude dag'.emptied).dag

variable {dag dag' : DependencyGraph}

/-- What a scheduler with a single worker makes of the batch is one of these. -/
theorem Rescheduled.run (h : dag.Rescheduled dag') (hw : dag'.WellFormed) (s : Scheduler)
    (g : Graph) (env : SharedEnvironment) (supply : Supply) :
    dag.Rescheduled (s.run dag' g env supply).dag := by
  cases hsorted : dag'.topologicalOrder with
  | error e => exact h.cyclic s g env supply hsorted
  | ok order =>
    cases hstaffed : s.startWorkers s.config with
    | error reason => exact h.unstaffed s g env supply hsorted hstaffed
    | ok =>
      obtain ⟨history, b, -, hrun, hended, hsame⟩ := s.run_eq_conclude_under hstaffed hw g
        (Batch.unbroken_handsBack dag' g env supply) hsorted
      rw [hsame]
      exact h.ran hsorted hrun (Batch.queued_eq_nil_iff.1 hended)

/-- Names and dependencies are kept, and every query has its own body back. -/
theorem Rescheduled.kept (h : dag.Rescheduled dag') (hw : dag.WellFormed)
    (hwhole : ∀ i < dag.size, ∃ body, dag.bodyOf i = some body) :
    dag'.emptied = dag.emptied ∧ ∀ i < dag.size, ∃ body rest, dag.bodyOf i = some body ∧
      dag'.bodyOf i = some rest ∧ body.Descends rest := by
  induction h with
  | new =>
    refine ⟨rfl, fun i hlt => ?_⟩
    obtain ⟨body, hhere⟩ := hwhole i hlt
    exact ⟨body, body, hhere, hhere, .refl⟩
  | cyclic s g env supply _ hcyclic ih =>
    simpa only [Scheduler.run, hcyclic, Scheduler.refuse] using ih
  | unstaffed s g env supply _ hsorted hreason ih =>
    simpa only [Scheduler.run, hsorted, hreason, Scheduler.refuse] using ih
  | @ran dag' order env supply history b _ _ hrun hrest ih =>
    obtain ⟨hsame, hheld⟩ := ih
    have hw' := hw.of_emptied_eq hsame
    have hsize := hrun.run.size_bodies hw'
    refine ⟨(Batch.emptied_putBack hsize).trans hsame, fun i hlt => ?_⟩
    obtain ⟨body, before, hhere, hbefore, hdescends⟩ := hheld i hlt
    obtain ⟨after, hafter, hdescends'⟩ := hrun.bodyOf hw' hbefore
    -- No worker has a body any more, so that all of them are put back.
    have hidle : b.phaseOf i = none := Batch.phaseOf_eq_none_iff.2 (by simp [Batch.queued, hrest])
    rw [Batch.bodyOf_of_idle hidle] at hafter
    exact ⟨body, after, hhere, (Batch.bodyOf_putBack hsize i).trans hafter,
      hdescends.trans hdescends'⟩

/-- After any number of runs a batch has the names, the dependencies and the order that it had,
every query has its own body, and in no further run is there a query that has none. -/
theorem rescheduled_whole (hbuilt : dag.Built) (h : dag.Rescheduled dag') :
    dag'.names = dag.names ∧ dag'.successorsOf = dag.successorsOf ∧
      dag'.predecessorsOf = dag.predecessorsOf ∧ dag'.topologicalOrder = dag.topologicalOrder ∧
      (∀ i < dag.size, ∃ body rest, dag.bodyOf i = some body ∧ dag'.bodyOf i = some rest ∧
        body.Descends rest) ∧
      ∀ env supply history b, Batch.RunUnder dag' Batch.handsBack env supply history b →
        ∀ i, b.phaseOf i ≠ some (.started none) := by
  obtain ⟨hsame, hheld⟩ := h.kept hbuilt.wellFormed hbuilt.exists_body
  refine ⟨eq_of_emptied_eq names_emptied hsame, eq_of_emptied_eq successorsOf_emptied hsame,
    eq_of_emptied_eq predecessorsOf_emptied hsame, eq_of_emptied_eq topologicalOrder_emptied hsame,
    hheld, fun env supply history b hrun i hstarted => ?_⟩
  -- A query that a worker has started has a body, before the run and thus in it.
  have hw := hbuilt.wellFormed.of_emptied_eq hsame
  have hlt : i < dag.size := by
    rw [← eq_of_emptied_eq size_emptied hsame]
    exact (hrun.run.consistent hw).lt_size hstarted
  obtain ⟨-, before, -, hbefore, -⟩ := hheld i hlt
  obtain ⟨rest, hhere, -⟩ := hrun.bodyOf hw hbefore
  cases (Batch.bodyOf_of_started hstarted).symm.trans hhere

/-- The trip after a run in which all went well, one for which there were no workers, and one in
which its name was taken. -/
def tripAgain : DependencyGraph :=
  let idle : Scheduler := { startWorkers := fun _ => .error "no threads" }
  let once := (PathQuery.schedule trip {} {} {}).dag
  (PathQuery.schedule (idle.run once {} {} {}).dag {} ⟨[("trip", .null)]⟩ {}).dag

theorem rescheduled_tripAgain : trip.Rescheduled tripAgain := by
  have hw {dag : DependencyGraph} (h : trip.Rescheduled dag) : dag.WellFormed :=
    built_trip.wellFormed.of_emptied_eq (h.kept built_trip.wellFormed built_trip.exists_body).1
  have honce := Rescheduled.new.run built_trip.wellFormed {} {} {} {}
  have hrefused := honce.run (hw honce) { startWorkers := fun _ => .error "no threads" } {} {} {}
  exact hrefused.run (hw hrefused) {} {} _ {}

theorem rescheduled_whole_tripAgain : trip.Built ∧ trip.Rescheduled tripAgain ∧
    tripAgain.names = ["roads", "towns", "trip"] ∧
    (∀ i < 3, ∃ body rest, trip.bodyOf i = some body ∧ tripAgain.bodyOf i = some rest ∧
      body.Descends rest) ∧
    ∀ env supply history b, Batch.RunUnder tripAgain Batch.handsBack env supply history b →
      ∀ i, b.phaseOf i ≠ some (.started none) := by
  obtain ⟨hnames, -, -, -, hown, hnever⟩ := rescheduled_whole built_trip rescheduled_tripAgain
  exact ⟨built_trip, rescheduled_tripAgain, hnames, hown, hnever⟩

end DependencyGraph

end PathQuery

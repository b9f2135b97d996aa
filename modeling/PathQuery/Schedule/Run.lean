import PathQuery.Config.Basic
import PathQuery.Schedule.Batch

/-!
# Reports

* `ScheduleReport`: how every query of a batch ended, and the first failure;
* `Batch.conclude`: what is reported of a batch that has ended, and its bodies put back;
* `Scheduler.run`: runs a batch, and hands it back ready to be run again;
* `schedule`: the same when there is nothing in the way of workers.
-/

namespace PathQuery

structure ScheduleReport where
  statuses : List (String × QueryStatus)
  failure : Option EvalError
  deriving Repr

namespace ScheduleReport

def status (r : ScheduleReport) (name : String) : Option QueryStatus :=
  r.statuses.lookup name

def result (r : ScheduleReport) : Except EvalError Unit :=
  match r.failure with
  | some e => .error e
  | none => .ok ()

end ScheduleReport

/-- The report, the batch with its bodies put back, the results and the rest of the supply. -/
structure ScheduleOutcome where
  report : ScheduleReport
  dag : DependencyGraph
  env : SharedEnvironment
  supply : Supply

namespace Batch

/-- A query that was never started is cancelled. -/
def finalStatus : QueryStatus → QueryStatus
  | .pending => .cancelled
  | .ready => .cancelled
  | other => other

/-- Fills the nodes again. -/
def putBack (dag : DependencyGraph) (bodies : Array (Option Body)) : DependencyGraph :=
  ⟨dag.nodes.zipWith (fun node body => { node with body }) bodies⟩

/-- What is reported once the workers are done.  The nodes of `dag` have been without their bodies
since the start. -/
def conclude (b : Batch) (dag : DependencyGraph) : ScheduleOutcome where
  report :=
    { statuses := dag.names.zip (b.status.toList.map finalStatus)
      failure := b.failure }
  dag := putBack dag b.bodies
  env := b.env
  supply := b.supply

end Batch

/-- Who runs batches. -/
structure Scheduler where
  config : SchedulerConfig := {}
  /-- Starts workers with these settings, or says why there are none. -/
  startWorkers : SchedulerConfig → Except String Unit := fun _ => .ok ()

namespace Scheduler

/-- Nothing is started, and the batch stays as it is. -/
def refuse (dag : DependencyGraph) (e : EvalError) (env : SharedEnvironment) (supply : Supply) :
    ScheduleOutcome where
  report := { statuses := dag.names.map (·, .pending), failure := some e }
  dag := dag
  env := env
  supply := supply

/-- A batch with cyclic dependencies is refused as a whole, and so is every batch if there are no
workers.  Else the bodies leave the batch for as long as it runs. -/
def run (s : Scheduler) (dag : DependencyGraph) (g : Graph) (env : SharedEnvironment)
    (supply : Supply) : ScheduleOutcome :=
  match dag.topologicalOrder with
  | .error e => refuse dag e env supply
  | .ok _ =>
    match s.startWorkers s.config with
    | .error reason => refuse dag (.workerPool reason) env supply
    | .ok () =>
      let b := (Batch.initial dag env supply).launch
      let dag := dag.emptied
      (Batch.drain dag g dag.size b.queued b).conclude dag

end Scheduler

def schedule (dag : DependencyGraph) (g : Graph) (env : SharedEnvironment) (supply : Supply) :
    ScheduleOutcome :=
  ({} : Scheduler).run dag g env supply

end PathQuery

import PathQuery.Schedule.DependencyGraph

/-!
# Running a batch

Workers take queries that are ready, run their bodies and publish the results.  What happens to one
query is cut into three steps, each of which no other worker can interrupt:

* `Batch.start`: the query takes its body, or is cancelled because another one has failed;
* `Batch.execute`: the body runs and its result is published under the query's name;
* `Batch.settle`: the outcome is noted, and queries that waited only for this one become ready.

Any interleaving of the steps of different queries can happen.  `Batch.runTask` makes the three
steps of one query in a row, as a single worker does.
-/

namespace PathQuery

inductive QueryStatus where
  | pending
  | ready
  | running
  | done
  | failed
  | cancelled
  deriving DecidableEq, Repr

def QueryStatus.toText : QueryStatus → String
  | .pending => "pending"
  | .ready => "ready"
  | .running => "running"
  | .done => "done"
  | .failed => "failed"
  | .cancelled => "cancelled"

/-- How far a query that was handed to the workers has got. -/
inductive Phase where
  | queued
  | started (body : Option Body)
  | executed (body : Option Body) (result : Except EvalError Unit)

structure Task where
  query : Nat
  phase : Phase

structure Batch where
  /-- For every query the number of queries that it still waits for. -/
  indegree : Array Int
  status : Array QueryStatus
  /-- The bodies that are not in the hands of a worker. -/
  bodies : Array (Option Body)
  /-- The queries in the hands of the workers. -/
  tasks : List Task
  /-- How many queries were handed out and are not finished. -/
  outstanding : Int
  /-- How many of the queries on which nothing depends are not done. -/
  sinksRemaining : Int
  /-- The first failure. -/
  failure : Option EvalError
  env : SharedEnvironment
  supply : Supply

namespace Batch

/-! ## Helpers -/

def setStatus (b : Batch) (i : Nat) (status : QueryStatus) : Batch :=
  { b with status := b.status.modify i fun _ => status }

def setPhase (b : Batch) (i : Nat) (phase : Phase) : Batch :=
  { b with tasks := b.tasks.map fun t => if t.query = i then ⟨i, phase⟩ else t }

def removeTask (b : Batch) (i : Nat) : Batch :=
  { b with tasks := b.tasks.filter (·.query != i) }

/-- Hands queries to the workers. -/
def spawn (b : Batch) (queries : List Nat) : Batch :=
  { b with tasks := b.tasks ++ queries.map (⟨·, .queued⟩) }

def phaseOf (b : Batch) (i : Nat) : Option Phase :=
  (b.tasks.find? (·.query == i)).map (·.phase)

/-! ## The start of a batch -/

def sinkCount (dag : DependencyGraph) : Nat :=
  (dag.nodes.toList.filter (·.successors.isEmpty)).length

/-- Everything waits, and nothing was handed out yet.  The bodies are taken from the nodes, which
are left without them (`DependencyGraph.emptied`). -/
def initial (dag : DependencyGraph) (env : SharedEnvironment) (supply : Supply) : Batch where
  indegree := dag.indegrees
  status := dag.nodes.map fun _ => .pending
  bodies := dag.nodes.map (·.body)
  tasks := []
  outstanding := 0
  sinksRemaining := sinkCount dag
  failure := none
  env := env
  supply := supply

/-- Hands out the queries that depend on nothing. -/
def launch (b : Batch) : Batch :=
  let ready := DependencyGraph.roots b.indegree
  let b := ready.foldl (fun b i => b.setStatus i .ready) b
  { b.spawn ready with outstanding := b.outstanding + ready.length }

/-! ## Steps -/

/-- After a failure no query is started any more. -/
def start (b : Batch) (i : Nat) : Batch :=
  match b.failure with
  | some _ =>
    let b := (b.setStatus i .cancelled).removeTask i
    { b with outstanding := b.outstanding - 1 }
  | none =>
    let body := (b.bodies[i]?).bind id
    let b := (b.setStatus i .running).setPhase i (.started body)
    { b with bodies := b.bodies.modify i fun _ => none }

/-- What a batch reports when a query is abandoned. -/
def panicError (name : String) (message : Option String) : EvalError :=
  .queryPanicked name (message.getD "non-string panic payload")

/-- Publishes a value under a name that has none. -/
def publish (env : SharedEnvironment) (name : String) (outcome : Except Failure Value) :
    Except EvalError Unit × SharedEnvironment :=
  match outcome with
  | .ok value =>
    match env.insertNew name value with
    | .ok env => (.ok (), env)
    | .error e => (.error e, env)
  | .error (.error e) => (.error e, env)
  | .error (.panic message) => (.error (panicError name message), env)
  | .error .exhausted => (.error (panicError name none), env)

def execute (b : Batch) (dag : DependencyGraph) (g : Graph) (i : Nat) : Batch :=
  let name := dag.nameOf i
  match b.phaseOf i with
  | some (.started (some body)) =>
    let (outcome, body, supply) := body.run g b.env b.supply
    let (result, env) := publish b.env name outcome
    { b.setPhase i (.executed (some body) result) with env, supply }
  | some (.started none) =>
    b.setPhase i (.executed none (.error (.unknownQuery (name ++ " (no body)"))))
  | _ => b

/-- The failure that a batch reports for the error of one query. -/
def captured (name : String) : EvalError → EvalError
  | .queryPanicked query message => .queryPanicked query message
  | e => .queryFailed name e

/-- The queries that become ready when a query is done are handed out, unless the batch failed. -/
def settleDone (b : Batch) (dag : DependencyGraph) (i : Nat) : Batch :=
  let successors := dag.successorsOf i
  let b := b.setStatus i .done
  let b := if successors.isEmpty then { b with sinksRemaining := b.sinksRemaining - 1 } else b
  match b.failure with
  | some _ => b
  | none =>
    let (indegree, ready) := successors.foldl DependencyGraph.release (b.indegree, [])
    let b := ready.foldl (fun b s => b.setStatus s .ready) { b with indegree }
    { b.spawn ready with outstanding := b.outstanding + ready.length }

/-- Only the first failure is kept. -/
def settleFailed (b : Batch) (dag : DependencyGraph) (i : Nat) (e : EvalError) : Batch :=
  let b := b.setStatus i .failed
  { b with failure := b.failure.or (some (captured (dag.nameOf i) e)) }

def settle (b : Batch) (dag : DependencyGraph) (i : Nat) : Batch :=
  match b.phaseOf i with
  | some (.executed body result) =>
    let b := b.removeTask i
    let b :=
      { b with bodies := b.bodies.modify i fun _ => body, outstanding := b.outstanding - 1 }
    match result with
    | .ok () => b.settleDone dag i
    | .error e => b.settleFailed dag i e
  | _ => b

/-! ## One worker -/

def runTask (b : Batch) (dag : DependencyGraph) (g : Graph) (i : Nat) : Batch :=
  let b := b.start i
  match b.phaseOf i with
  | none => b
  | some _ => (b.execute dag g i).settle dag i

/-- The queries that are handed out but not started, in the order of their numbers' handing out. -/
def queued (b : Batch) : List Nat :=
  b.tasks.map (·.query)

/-- A worker takes what it has made ready itself before what was handed out earlier, the latest
first.  No query is handed out twice, which bounds the number of rounds. -/
def drain (dag : DependencyGraph) (g : Graph) : Nat → List Nat → Batch → Batch
  | 0, _, b => b
  | _, [], b => b
  | bound + 1, i :: waiting, b =>
    let after := b.runTask dag g i
    let freed := after.queued.filter fun q => !(b.queued.contains q)
    drain dag g bound (freed.reverse ++ waiting) after

/-- The collector waits until this holds. -/
def isFinished (b : Batch) : Bool :=
  b.sinksRemaining == 0 || (b.failure.isSome && b.outstanding == 0)

end Batch

end PathQuery

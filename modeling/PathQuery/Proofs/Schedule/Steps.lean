import PathQuery.Schedule.Run

/-!
# Interleavings of a batch

The workers make the three steps of each query in any order that the phases allow, and the bodies
that run meanwhile can answer anything: what a body answers may depend on the environment at every
moment since it was started.

* `Event`: what can be seen of a step;
* `Batch.Step`: one step of one worker;
* `Batch.Run`: what the workers can make of a batch, with the history of the events;
* `Batch.RunUnder`: the runs in which something more is asked of the bodies;
* `Batch.Tells`, `Step.tells`: what the events of a step tell about it;
* `Batch.Silent`: the histories in which only the workers write the environment;
* `Step.execute`: a body that runs by itself makes one of these steps.
-/

namespace PathQuery

/-- What can be seen of a running batch. -/
inductive Event where
  /-- The query was given to the workers. -/
  | handedOut (i : Nat)
  | started (i : Nat)
  | cancelled (i : Nat)
  /-- The body of the query ended so, and this came of publishing its value. -/
  | ran (i : Nat) (outcome : Except Failure Value) (result : Except EvalError Unit)
  /-- The body of the query added an entry to the environment by itself. -/
  | wrote (i : Nat) (name : String) (value : Value)
  /-- The outcome of the query was noted. -/
  | settled (i : Nat) (result : Except EvalError Unit)

namespace Batch

/-- The queries that are handed out when the outcome of `i` is noted: their tasks stand behind
those that were there. -/
def handedOutBy (b : Batch) (dag : DependencyGraph) (i : Nat) : List Nat :=
  (b.settle dag i).queued.drop (b.removeTask i).queued.length

inductive Step (dag : DependencyGraph) : Batch → List Event → Batch → Prop where
  | start {b : Batch} {i : Nat} :
      b.phaseOf i = some .queued → b.failure = none → Step dag b [.started i] (b.start i)
  | cancel {b : Batch} {i : Nat} {e : EvalError} :
      b.phaseOf i = some .queued → b.failure = some e → Step dag b [.cancelled i] (b.start i)
  /-- The body answers, and its value is published.  It may leave any other body to be run the next
  time, and may have taken from the supply. -/
  | run {b : Batch} {i : Nat} {body rest : Body} {outcome : Except Failure Value}
      {result : Except EvalError Unit} {env : SharedEnvironment} {supply : Supply} :
      b.phaseOf i = some (.started (some body)) →
      publish b.env (dag.nameOf i) outcome = (result, env) →
      Step dag b [.ran i outcome result]
        { b.setPhase i (.executed (some rest) result) with env, supply }
  /-- There was no body to be run. -/
  | lack {b : Batch} {i : Nat} :
      b.phaseOf i = some (.started none) →
      Step dag b []
        (b.setPhase i
          (.executed none (.error (.unknownQuery (dag.nameOf i ++ " (no body)")))))
  | write {b : Batch} {i : Nat} {body : Body} {name : String} {value : Value}
      {env : SharedEnvironment} :
      b.phaseOf i = some (.started (some body)) → b.env.insertNew name value = .ok env →
      Step dag b [.wrote i name value] { b with env }
  | settle {b : Batch} {i : Nat} {body : Option Body} {result : Except EvalError Unit} :
      b.phaseOf i = some (.executed body result) →
      Step dag b (.settled i result :: (b.handedOutBy dag i).map .handedOut) (b.settle dag i)

/-- The batch starts with the queries that depend on nothing. -/
inductive Run (dag : DependencyGraph) (env : SharedEnvironment) (supply : Supply) :
    List Event → Batch → Prop where
  | launch :
      Run dag env supply ((initial dag env supply).launch.queued.map .handedOut)
        (initial dag env supply).launch
  | step {history events : List Event} {b b' : Batch} :
      Run dag env supply history b → Step dag b events b' →
      Run dag env supply (history ++ events) b'

/-- What is asked of a step in which a body ends: the history and the batch before it, the query,
the outcome of its body, and the batch after it. -/
abbrev Conduct := List Event → Batch → Nat → Except Failure Value → Batch → Prop

/-- The same with bodies that do as they are asked. -/
inductive RunUnder (dag : DependencyGraph) (conduct : Conduct) (env : SharedEnvironment)
    (supply : Supply) : List Event → Batch → Prop where
  | launch :
      RunUnder dag conduct env supply
        ((initial dag env supply).launch.queued.map .handedOut) (initial dag env supply).launch
  | step {history events : List Event} {b b' : Batch} :
      RunUnder dag conduct env supply history b → Step dag b events b' →
      (∀ i outcome result, .ran i outcome result ∈ events → conduct history b i outcome b') →
      RunUnder dag conduct env supply (history ++ events) b'

theorem RunUnder.run {dag : DependencyGraph} {conduct : Conduct} {env : SharedEnvironment}
    {supply : Supply} {history : List Event} {b : Batch}
    (hrun : RunUnder dag conduct env supply history b) : Run dag env supply history b := by
  induction hrun with
  | launch => exact .launch
  | step _ hstep _ ih => exact ih.step hstep

/-- What an event tells about the step in which it is seen. -/
def Tells (dag : DependencyGraph) (b b' : Batch) : Event → Prop
  | .handedOut j => ∃ i, j ∈ b.handedOutBy dag i ∧ b' = b.settle dag i
  | .started i => b.phaseOf i = some .queued ∧ b.failure = none ∧ b' = b.start i
  | .cancelled i => b.phaseOf i = some .queued ∧ b.failure ≠ none ∧ b' = b.start i
  | .ran i outcome result => (∃ body, b.phaseOf i = some (.started body)) ∧
      publish b.env (dag.nameOf i) outcome = (result, b'.env)
  | .wrote _ name value => b.env.insertNew name value = .ok b'.env
  | .settled i result => (∃ body, b.phaseOf i = some (.executed body result)) ∧
      b' = b.settle dag i

theorem Step.tells {dag : DependencyGraph} {b b' : Batch} {events : List Event}
    (hstep : Step dag b events b') {event : Event} (h : event ∈ events) : Tells dag b b' event := by
  cases hstep with
  | start hqueued hintact =>
    obtain rfl := List.mem_singleton.1 h
    exact ⟨hqueued, hintact, rfl⟩
  | cancel hqueued hfailed =>
    obtain rfl := List.mem_singleton.1 h
    exact ⟨hqueued, by simp [hfailed], rfl⟩
  | run hstarted hpublication =>
    obtain rfl := List.mem_singleton.1 h
    exact ⟨⟨_, hstarted⟩, hpublication⟩
  | lack => cases h
  | write _ hstored =>
    obtain rfl := List.mem_singleton.1 h
    exact hstored
  | settle hexecuted =>
    rcases List.mem_cons.1 h with rfl | hlater
    · exact ⟨⟨_, hexecuted⟩, rfl⟩
    · obtain ⟨j, hmem, rfl⟩ := List.mem_map.1 hlater
      exact ⟨_, hmem, rfl⟩

/-- No body added an entry by itself. -/
def Silent (history : List Event) : Prop :=
  ∀ i name value, Event.wrote i name value ∉ history

theorem Silent.append {history events : List Event} (h : Silent history) (h' : Silent events) :
    Silent (history ++ events) := fun i name value hmem =>
  (List.mem_append.1 hmem).elim (h i name value) (h' i name value)

/-- Running a body without a break is one of the steps, and the body writes nothing itself. -/
theorem Step.execute (dag : DependencyGraph) {b : Batch} {i : Nat} {body : Option Body}
    (h : b.phaseOf i = some (.started body)) (g : Graph) :
    ∃ events, Silent events ∧ Step dag b events (b.execute dag g i) ∧
      ∀ j outcome result, .ran j outcome result ∈ events →
        j = i ∧ ∃ own, body = some own ∧ outcome = (own.run g b.env b.supply).1 := by
  rw [Batch.execute, h]
  cases body with
  | none => exact ⟨[], by simp [Silent], .lack h, by simp⟩
  | some body =>
    let outcome := (body.run g b.env b.supply).1
    refine ⟨[.ran i outcome (publish b.env (dag.nameOf i) outcome).1], by simp [Silent],
      .run h (Prod.eta _).symm, ?_⟩
    intro j outcome' result hran
    obtain ⟨rfl, rfl, -⟩ := Event.ran.inj (List.mem_singleton.1 hran)
    exact ⟨rfl, body, rfl, rfl⟩

/-- A worker that runs bodies without a break does as it is asked. -/
def Conduct.Unbroken (conduct : Conduct) (dag : DependencyGraph) (g : Graph)
    (env : SharedEnvironment) (supply : Supply) : Prop :=
  ∀ (history : List Event) (b : Batch) (i : Nat) (body : Body),
    Run dag env supply history b → b.phaseOf i = some (.started (some body)) →
      conduct history b i (body.run g b.env b.supply).1 (b.execute dag g i)

end Batch

end PathQuery

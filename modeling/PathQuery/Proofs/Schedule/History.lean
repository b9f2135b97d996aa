import Mathlib.Data.List.Basic
import PathQuery.Proofs.Schedule.Progress

/-!
# What a batch remembers of its history

* `Run.entries`: the environment holds what was published, behind what was there at the start;
* `Run.published_iff`, `Run.result`: a query is done exactly when its body's value was published,
  under a name that was free until then;
* `Run.failure`: the failure of a batch is the first error that was noted;
* `Run.failed`, `Run.started`, `Run.started_mem`: how the queries of noted errors end, and those
  that were started;
* `Run.explained`: whose panic an error speaks of.
-/

namespace PathQuery

/-! ## Publishing -/

namespace SharedEnvironment

theorem get_append (env env' : SharedEnvironment) {added : List (String × Value)}
    (h : env'.entries = env.entries ++ added) (name : String) :
    env'.get name = (env.get name).or (added.lookup name) := by
  rw [get, h, List.lookup_append]
  rfl

theorem insertNew_eq_ok_iff {env env' : SharedEnvironment} {name : String} {value : Value} :
    env.insertNew name value = .ok env' ↔
      env.get name = none ∧ env' = ⟨env.entries ++ [(name, value)]⟩ := by
  unfold insertNew contains
  cases env.get name <;> simp [eq_comm]

theorem get_insertNew {env env' : SharedEnvironment} {name : String} {value : Value}
    (h : env.insertNew name value = .ok env') : env'.get name = some value := by
  obtain ⟨hfree, rfl⟩ := insertNew_eq_ok_iff.1 h
  rw [get_append env _ rfl, hfree]
  simp

end SharedEnvironment

/-! ## Events -/

/-- What an event adds to the environment. -/
def Event.entry (dag : DependencyGraph) : Event → Option (String × Value)
  | .ran i (.ok value) (.ok ()) => some (dag.nameOf i, value)
  | .wrote _ name value => some (name, value)
  | _ => none

/-- The failure that a batch would report for an event. -/
def Event.failure (dag : DependencyGraph) : Event → Option EvalError
  | .settled i (.error e) => some (Batch.captured (dag.nameOf i) e)
  | _ => none

theorem filterMap_entry_handedOut (dag : DependencyGraph) (queries : List Nat) :
    (queries.map Event.handedOut).filterMap (Event.entry dag) = [] := by
  simp [Event.entry]

theorem findSome?_failure_handedOut (dag : DependencyGraph) (queries : List Nat) :
    (queries.map Event.handedOut).findSome? (Event.failure dag) = none := by
  simp [Event.failure]

namespace Batch

variable {dag : DependencyGraph} {b b' : Batch} {i : Nat} {events : List Event}

/-- A value is stored under a free name, or nothing is.  An error that speaks of the panic of
another query is one with which the body itself answered. -/
theorem publish_cases {env env' : SharedEnvironment} {name : String}
    {outcome : Except Failure Value} {result : Except EvalError Unit}
    (h : publish env name outcome = (result, env')) :
    (∃ value, outcome = .ok value ∧ result = .ok () ∧ env.insertNew name value = .ok env') ∨
      ∃ e, result = .error e ∧ env' = env ∧
        ∀ query message, e = .queryPanicked query message →
          query = name ∨ outcome = .error (.error e) := by
  unfold publish at h
  split at h
  next value =>
    split at h
    next hstored =>
      obtain ⟨rfl, rfl⟩ := Prod.mk.inj h
      exact .inl ⟨value, rfl, rfl, hstored⟩
    next e htaken =>
      obtain ⟨rfl, rfl⟩ := Prod.mk.inj h
      refine .inr ⟨e, rfl, rfl, ?_⟩
      rintro query message rfl
      unfold SharedEnvironment.insertNew at htaken
      split at htaken <;> cases htaken
  next e =>
    obtain ⟨rfl, rfl⟩ := Prod.mk.inj h
    exact .inr ⟨e, rfl, rfl, fun _ _ _ => .inr rfl⟩
  next message =>
    obtain ⟨rfl, rfl⟩ := Prod.mk.inj h
    exact .inr ⟨_, rfl, rfl, fun _ _ hsame => .inl (by cases hsame; rfl)⟩
  next =>
    obtain ⟨rfl, rfl⟩ := Prod.mk.inj h
    exact .inr ⟨_, rfl, rfl, fun _ _ hsame => .inl (by cases hsame; rfl)⟩

/-! ## The environment -/

theorem Step.entries (hstep : Step dag b events b') (hw : dag.WellFormed) :
    b'.env.entries = b.env.entries ++ events.filterMap (Event.entry dag) := by
  cases hstep with
  | start hqueued hintact =>
    rw [start_eq_running hintact]
    simp [Event.entry]
  | cancel hqueued hfailed =>
    rw [start_eq_cancelled hfailed]
    simp [Event.entry]
  | run hstarted hpublication =>
    rcases publish_cases hpublication with ⟨value, rfl, rfl, hstored⟩ | ⟨e, rfl, rfl, -⟩
    · obtain ⟨-, rfl⟩ := SharedEnvironment.insertNew_eq_ok_iff.1 hstored
      simp [Event.entry]
    · simp [Event.entry]
  | lack => simp [setPhase]
  | write _ hstored =>
    obtain ⟨-, rfl⟩ := SharedEnvironment.insertNew_eq_ok_iff.1 hstored
    simp [Event.entry]
  | @settle i body result hexecuted =>
    cases result with
    | error e =>
      rw [handedOutBy_of_error hexecuted, settle_eq_of_error hexecuted]
      simp [Event.entry]
    | ok =>
      rw [handedOutBy_of_ok hw hexecuted, settle_eq_of_ok hw hexecuted, List.filterMap_cons,
        filterMap_entry_handedOut]
      simp [Event.entry]

theorem Step.get_of_get (hstep : Step dag b events b') (hw : dag.WellFormed) {name : String}
    {value : Value} (h : b.env.get name = some value) : b'.env.get name = some value := by
  rw [SharedEnvironment.get_append b.env b'.env (hstep.entries hw), h]
  rfl

theorem Step.result (hstep : Step dag b events b') {value : Value}
    (h : .ran i (.ok value) (.ok ()) ∈ events) :
    b.env.get (dag.nameOf i) = none ∧ b'.env.get (dag.nameOf i) = some value := by
  obtain ⟨-, hpublication⟩ := hstep.tells h
  rcases publish_cases hpublication with ⟨_, hsame, -, hstored⟩ | ⟨e, hfailed, -⟩
  · cases hsame
    exact ⟨(SharedEnvironment.insertNew_eq_ok_iff.1 hstored).1,
      SharedEnvironment.get_insertNew hstored⟩
  · cases hfailed

/-! ## Queries with a result -/

/-- The value of the query's body is in the environment. -/
def Published (b : Batch) (i : Nat) : Prop :=
  b.isDone i = true ∨ ∃ body, b.phaseOf i = some (.executed body (.ok ()))

theorem published_of_idle (h : b.phaseOf i = none) : b.Published i ↔ b.isDone i = true := by
  simp [Published, h]

/-- A result is published when a body answers it, and at no other time. -/
theorem Step.published_iff (hstep : Step dag b events b') (hw : dag.WellFormed)
    (hc : Consistent dag b) (j : Nat) :
    b'.Published j ↔ b.Published j ∨ ∃ value, .ran j (.ok value) (.ok ()) ∈ events := by
  obtain ⟨mark, hturn, hmarks_eq⟩ := hstep.turn hw hc j
  have hmarked : (∃ value, .ran j (.ok value) (.ok ()) ∈ events) → mark = some 3 := by
    rintro ⟨value, hmem⟩
    have hpos : 0 < marks events j 3 := List.countP_pos_iff.2 ⟨_, hmem, by simp [Event.mark]⟩
    by_contra hother
    simp [hmarks_eq, hother] at hpos
  -- In the turns that are not marked so, nothing is published and no body has ended with a value.
  simp only [Published, isDone]
  generalize b.status[j]? = s, b.phaseOf j = p, b'.status[j]? = s', b'.phaseOf j = p' at hturn ⊢
  cases hturn with
  | run hevents_eq hpublication =>
    subst hevents_eq
    rcases publish_cases hpublication with ⟨value, rfl, rfl, -⟩ | ⟨e, rfl, -, -⟩ <;> simp
  | finish => simp
  | _ => simpa using fun value hmem => absurd (hmarked ⟨value, hmem⟩) (by simp)

/-! ## Failures -/

theorem Step.failure (hstep : Step dag b events b') (hw : dag.WellFormed) :
    b'.failure = b.failure.or (events.findSome? (Event.failure dag)) := by
  cases hstep with
  | start hqueued hintact => simp [start_eq_running hintact, Event.failure]
  | cancel hqueued hfailed => simp [start_eq_cancelled hfailed, Event.failure]
  | run => simp [setPhase, Event.failure]
  | lack => simp [setPhase]
  | write => simp [Event.failure]
  | @settle i body result hexecuted =>
    cases result with
    | error e =>
      rw [handedOutBy_of_error hexecuted, settle_eq_of_error hexecuted]
      rfl
    | ok =>
      rw [handedOutBy_of_ok hw hexecuted, settle_eq_of_ok hw hexecuted, List.findSome?_cons]
      simp only [Event.failure, findSome?_failure_handedOut, Option.or_none]

theorem Step.started (hstep : Step dag b events b') (hc : Consistent dag b)
    (h : .started i ∈ events) : b'.status[i]? = some .running := by
  obtain ⟨hqueued, hintact, rfl⟩ := hstep.tells h
  rw [status_start_running hintact, if_pos rfl, hc.status_of_phaseOf hqueued]
  rfl

/-- What is to be noted of a query comes from its body, or from its having none. -/
theorem Step.executed (hstep : Step dag b events b') (hw : dag.WellFormed) (hc : Consistent dag b)
    {body : Option Body} {result : Except EvalError Unit}
    (h : b'.phaseOf i = some (.executed body result)) :
    b.phaseOf i = some (.executed body result) ∨
      (∃ outcome env, .ran i outcome result ∈ events ∧
        publish b.env (dag.nameOf i) outcome = (result, env)) ∨
      b.phaseOf i = some (.started none) ∧
        result = .error (.unknownQuery (dag.nameOf i ++ " (no body)")) := by
  obtain ⟨mark, hturn, -⟩ := hstep.turn hw hc i
  rw [h] at hturn
  generalize b.status[i]? = s, b.phaseOf i = p, b'.status[i]? = s' at hturn ⊢
  cases hturn with
  | rest => exact .inl rfl
  | run hevents_eq hpublication =>
    exact .inr (.inl ⟨_, _, hevents_eq ▸ List.mem_singleton_self _, hpublication⟩)
  | lack => exact .inr (.inr ⟨rfl, rfl⟩)

theorem Step.failed (hstep : Step dag b events b') (hc : Consistent dag b) {e : EvalError}
    (h : .settled i (.error e) ∈ events) : b'.status[i]? = some .failed := by
  obtain ⟨⟨body, hexecuted⟩, rfl⟩ := hstep.tells h
  rw [status_settle_of_error dag hexecuted, if_pos rfl, hc.status_of_phaseOf hexecuted]
  rfl

/-! ## Runs -/

variable {env : SharedEnvironment} {supply : Supply} {history : List Event}

theorem Run.entries (hrun : Run dag env supply history b) (hw : dag.WellFormed) :
    b.env.entries = env.entries ++ history.filterMap (Event.entry dag) := by
  induction hrun with
  | launch => rw [filterMap_entry_handedOut, List.append_nil, launch_eq]; rfl
  | step _ hstep ih => rw [hstep.entries hw, ih, List.filterMap_append, List.append_assoc]

/-- An entry that was there at the start is never replaced. -/
theorem Run.get_of_get (hrun : Run dag env supply history b) (hw : dag.WellFormed) {name : String}
    {value : Value} (h : env.get name = some value) : b.env.get name = some value := by
  rw [SharedEnvironment.get_append env b.env (hrun.entries hw), h]
  rfl

theorem Run.published_iff (hrun : Run dag env supply history b) (hw : dag.WellFormed) (i : Nat) :
    b.Published i ↔ ∃ value, .ran i (.ok value) (.ok ()) ∈ history := by
  induction hrun with
  | launch =>
    simp [Published, not_isDone_launch, phaseOf_launch]
  | step hrun hstep ih =>
    rw [hstep.published_iff hw (hrun.consistent hw), ih]
    simp [List.mem_append, exists_or]

/-- A result that was published under a name stays there, and the name was free at the start. -/
theorem Run.result (hrun : Run dag env supply history b) (hw : dag.WellFormed) {value : Value}
    (h : .ran i (.ok value) (.ok ()) ∈ history) :
    env.get (dag.nameOf i) = none ∧ b.env.get (dag.nameOf i) = some value := by
  induction hrun with
  | launch => simp at h
  | step hrun hstep ih =>
    rcases List.mem_append.1 h with hearlier | hnow
    · exact ⟨(ih hearlier).1, hstep.get_of_get hw (ih hearlier).2⟩
    · have hstored := hstep.result hnow
      refine ⟨?_, hstored.2⟩
      -- A name that was taken at the start would still have been taken now.
      by_contra htaken
      obtain ⟨other, hbefore⟩ := Option.ne_none_iff_exists'.1 htaken
      cases hstored.1.symm.trans (hrun.get_of_get hw hbefore)

/-- The failure of a batch is the first one that was noted. -/
theorem Run.failure (hrun : Run dag env supply history b) (hw : dag.WellFormed) :
    b.failure = history.findSome? (Event.failure dag) := by
  induction hrun with
  | launch => rw [findSome?_failure_handedOut, launch_eq]; rfl
  | step _ hstep ih => rw [hstep.failure hw, ih, List.findSome?_append]

theorem Run.failed (hrun : Run dag env supply history b) (hw : dag.WellFormed) {e : EvalError}
    (h : .settled i (.error e) ∈ history) : b.status[i]? = some .failed := by
  induction hrun with
  | launch => simp at h
  | step hrun hstep ih =>
    have hc := hrun.consistent hw
    rcases List.mem_append.1 h with hearlier | hnow
    · exact hstep.status_of_final hw hc (ih hearlier) (.inr (.inl rfl))
    · exact hstep.failed hc hnow

/-- A query that was started is running, done or failed. -/
theorem Run.started (hrun : Run dag env supply history b) (hw : dag.WellFormed)
    (h : .started i ∈ history) :
    ∃ status, b.status[i]? = some status ∧
      (status = .running ∨ status = .done ∨ status = .failed) := by
  induction hrun with
  | launch => simp at h
  | @step history events b b' hrun hstep ih =>
    have hc := hrun.consistent hw
    rcases List.mem_append.1 h with hearlier | hnow
    · -- Only a query that has not been started can be cancelled.
      obtain ⟨status, hbefore, hunderway⟩ := ih hearlier
      obtain ⟨mark, hturn, -⟩ := hstep.turn hw hc i
      rw [hbefore] at hturn
      generalize b.phaseOf i = p, b'.status[i]? = s', b'.phaseOf i = p' at hturn ⊢
      cases hturn <;> simp_all
    · exact ⟨.running, hstep.started hc hnow, .inl rfl⟩

/-- A query that runs or has run was started. -/
theorem Run.started_mem (hrun : Run dag env supply history b) (hw : dag.WellFormed)
    {status : QueryStatus} (h : b.status[i]? = some status)
    (hunderway : status = .running ∨ status = .done ∨ status = .failed) : .started i ∈ history := by
  induction hrun generalizing status with
  | launch =>
    rw [status_launch] at h
    split at h
    next => cases h; simp at hunderway
    next => split at h <;> cases h; simp at hunderway
  | @step history events b b' hrun hstep ih =>
    obtain ⟨mark, hturn, hmarks_eq⟩ := hstep.turn hw (hrun.consistent hw) i
    -- Either this step starts the query, or it was under way before.
    by_cases hmark : mark = some 2
    · have hpos : 0 < Batch.marks events i 2 := by simp [hmarks_eq, hmark]
      obtain ⟨event, hmem, hmarked⟩ := List.countP_pos_iff.1 hpos
      have hstarted : event = .started i := by cases event <;> simp_all [Event.mark]
      exact List.mem_append_right _ (hstarted ▸ hmem)
    · have hbefore : ∃ status, b.status[i]? = some status ∧
          (status = .running ∨ status = .done ∨ status = .failed) := by
        rw [h] at hturn
        generalize b.status[i]? = s, b.phaseOf i = p, b'.phaseOf i = p' at hturn ⊢
        cases hturn <;> simp_all
      obtain ⟨status, hbefore, hunderway⟩ := hbefore
      exact List.mem_append_left _ (ih hbefore hunderway)

/-- An error speaks of the panic of the query itself, unless the body answered with it. -/
def Explained (dag : DependencyGraph) (history : List Event) (i : Nat) (e : EvalError) : Prop :=
  ∀ query message, e = .queryPanicked query message →
    query = dag.nameOf i ∨ ∃ result, .ran i (.error (.error e)) result ∈ history

theorem Explained.append {history : List Event} {e : EvalError} (h : Explained dag history i e)
    (events : List Event) : Explained dag (history ++ events) i e := by
  intro query message hpanicked
  rcases h query message hpanicked with hsame | ⟨result, hmem⟩
  · exact .inl hsame
  · exact .inr ⟨result, List.mem_append_left _ hmem⟩

theorem explained_of_publish {history : List Event} {env' : SharedEnvironment}
    {outcome : Except Failure Value} {e : EvalError}
    (hpublication : publish b.env (dag.nameOf i) outcome = (.error e, env'))
    (hran : .ran i outcome (.error e) ∈ history) : Explained dag history i e := by
  intro query message hpanicked
  rcases publish_cases hpublication with ⟨_, _, hstored, _⟩ | ⟨_, hsame, _, hnames⟩
  · cases hstored
  · cases hsame
    rcases hnames query message hpanicked with hown | hanswered
    · exact .inl hown
    · exact .inr ⟨_, hanswered ▸ hran⟩

/-- Errors are explained as soon as they arise, and remain so until they are noted. -/
theorem Run.explained (hrun : Run dag env supply history b) (hw : dag.WellFormed) :
    (∀ i body e, b.phaseOf i = some (.executed body (.error e)) → Explained dag history i e) ∧
      ∀ i e, .settled i (.error e) ∈ history → Explained dag history i e := by
  induction hrun with
  | launch =>
    refine ⟨fun i body e h => ?_, by simp⟩
    rw [phaseOf_launch] at h
    split at h <;> cases h
  | @step history events b b' hrun hstep ih =>
    constructor
    · intro i body e h
      rcases hstep.executed hw (hrun.consistent hw) h with
        hbefore | ⟨outcome, env', hran, hpublication⟩ | ⟨-, hlacking⟩
      · exact (ih.1 i body e hbefore).append events
      · exact explained_of_publish hpublication (List.mem_append_right _ hran)
      · intro query message hpanicked
        cases hlacking.symm.trans (congrArg Except.error hpanicked)
    · intro i e h
      rcases List.mem_append.1 h with hearlier | hnow
      · exact (ih.2 i e hearlier).append events
      · obtain ⟨⟨body, hbefore⟩, -⟩ := hstep.tells hnow
        exact (ih.1 i body e hbefore).append events

end Batch
end PathQuery

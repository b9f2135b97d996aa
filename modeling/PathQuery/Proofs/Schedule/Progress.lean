import PathQuery.Proofs.Schedule.Invariant

/-!
# The way of a query through a batch

* `Batch.Turn`, `Step.turn`: all that a step can do with one query;
* `Step.running`, `Step.status_of_final`: which statuses are taken, and which are kept;
* `Batch.stage`, `Step.stage`: a query never goes back;
* `Run.nodup_of_mark`: what takes a query to a certain stage happens to it at most once.
-/

namespace PathQuery

/-! ## Stages -/

def Phase.stage : Phase → Nat
  | .queued => 1
  | .started _ => 2
  | .executed _ _ => 3

theorem Phase.stage_pos (phase : Phase) : 0 < phase.stage := by
  cases phase <;> simp [Phase.stage]

theorem Phase.stage_lt (phase : Phase) : phase.stage < 4 := by
  cases phase <;> simp [Phase.stage]

/-- The query that an event takes to another stage, and this stage. -/
def Event.mark : Event → Option (Nat × Nat)
  | .handedOut i => some (i, 1)
  | .started i => some (i, 2)
  | .cancelled i => some (i, 4)
  | .ran i _ _ => some (i, 3)
  | .wrote _ _ _ => none
  | .settled i _ => some (i, 4)

namespace Batch

variable {dag : DependencyGraph} {b b' : Batch} {i j : Nat} {events : List Event}

/-- A query waits, is ready, runs, has run and is finished, in this order. -/
def stage (b : Batch) (i : Nat) : Nat :=
  match b.phaseOf i with
  | some phase => phase.stage
  | none => if b.status[i]? = some .pending then 0 else 4

theorem stage_of_phaseOf {phase : Phase} (h : b.phaseOf i = some phase) :
    b.stage i = phase.stage := by
  rw [stage, h]

/-- How often the events take a query to a stage. -/
def marks (events : List Event) (i k : Nat) : Nat :=
  events.countP fun event => event.mark == some (i, k)

theorem marks_append (events events' : List Event) (i k : Nat) :
    marks (events ++ events') i k = marks events i k + marks events' i k :=
  List.countP_append

theorem marks_singleton {event : Event} {n : Nat} (h : event.mark = some (i, n)) (j k : Nat) :
    marks [event] j k = if i = j ∧ n = k then 1 else 0 := by
  simp [marks, h]

theorem marks_handedOut (queries : List Nat) (i k : Nat) :
    marks (queries.map .handedOut) i k = if k = 1 then queries.count i else 0 := by
  rw [marks, List.countP_map]
  split
  next hone =>
    subst hone
    apply List.countP_congr
    simp [Event.mark]
  next hother =>
    rw [List.countP_eq_zero]
    simp [Event.mark, Ne.symm hother]

/-! ## Turns -/

/-- What a step does with one query: its status and its phase before and after, and the stage that
it is taken to. -/
inductive Turn (dag : DependencyGraph) (b : Batch) (events : List Event) (j : Nat) :
    Option QueryStatus → Option Phase → Option QueryStatus → Option Phase → Option Nat → Prop where
  | rest {status : Option QueryStatus} {phase : Option Phase} :
      Turn dag b events j status phase status phase none
  | free : Turn dag b events j (some .pending) none (some .ready) (some .queued) (some 1)
  | start {body : Option Body} : b.failure = none →
      Turn dag b events j (some .ready) (some .queued) (some .running) (some (.started body))
        (some 2)
  | cancel : Turn dag b events j (some .ready) (some .queued) (some .cancelled) none (some 4)
  | run {body rest : Option Body} {outcome : Except Failure Value}
      {result : Except EvalError Unit} {env : SharedEnvironment} :
      events = [.ran j outcome result] → publish b.env (dag.nameOf j) outcome = (result, env) →
      Turn dag b events j (some .running) (some (.started body)) (some .running)
        (some (.executed rest result)) (some 3)
  -- No event tells of it, and so nothing is marked.
  | lack {rest : Option Body} :
      Turn dag b events j (some .running) (some (.started none)) (some .running)
        (some (.executed rest (.error (.unknownQuery (dag.nameOf j ++ " (no body)"))))) none
  | finish {body : Option Body} :
      Turn dag b events j (some .running) (some (.executed body (.ok ()))) (some .done) none
        (some 4)
  | fail {body : Option Body} {e : EvalError} :
      Turn dag b events j (some .running) (some (.executed body (.error e))) (some .failed) none
        (some 4)

/-- The turn of a query in a step, with the marks that the events of the step set for it. -/
def TakesTurn (dag : DependencyGraph) (b : Batch) (events : List Event) (b' : Batch) (j : Nat) :
    Prop :=
  ∃ mark, Turn dag b events j b.status[j]? (b.phaseOf j) b'.status[j]? (b'.phaseOf j) mark ∧
    ∀ k, marks events j k = if mark = some k then 1 else 0

theorem takesTurn {s s' : Option QueryStatus} {p p' : Option Phase} {mark : Option Nat}
    (hturn : Turn dag b events j s p s' p' mark) (hstatus : b.status[j]? = s)
    (hphase : b.phaseOf j = p) (hstatus' : b'.status[j]? = s') (hphase' : b'.phaseOf j = p')
    (hmarks_eq : ∀ k, marks events j k = if mark = some k then 1 else 0) :
    TakesTurn dag b events b' j := by
  subst hstatus hphase hstatus' hphase'
  exact ⟨mark, hturn, hmarks_eq⟩

theorem takesTurn_rest (hstatus : b'.status[j]? = b.status[j]?)
    (hphase : b'.phaseOf j = b.phaseOf j) (hquiet : ∀ k, marks events j k = 0) :
    TakesTurn dag b events b' j :=
  takesTurn .rest rfl rfl hstatus hphase (by simpa using hquiet)

theorem marks_own {event : Event} {n : Nat} (h : event.mark = some (j, n)) (k : Nat) :
    marks [event] j k = if some n = some k then 1 else 0 := by
  simp [marks_singleton h]

theorem marks_other {event : Event} {n : Nat} (h : event.mark = some (i, n)) (hother : j ≠ i)
    (k : Nat) : marks [event] j k = 0 := by
  rw [marks_singleton h, if_neg fun hsame => hother hsame.1.symm]

/-- The queries that a step frees were pending, the query that is done had run. -/
theorem Consistent.turn_settle (hc : Consistent dag b) (hw : dag.WellFormed)
    {body : Option Body} (h : b.phaseOf i = some (.executed body (.ok ()))) (j : Nat) :
    TakesTurn dag b (.settled i (.ok ()) :: (b.freed dag i).map .handedOut) (b.settle dag i) j := by
  have hstatus := hc.status_settle hw h j
  have hphase := hc.phaseOf_settle hw h j
  have hmarks_eq (k : Nat) :
      marks (.settled i (.ok ()) :: (b.freed dag i).map .handedOut) j k =
        (if i = j ∧ 4 = k then 1 else 0) + if k = 1 then (b.freed dag i).count j else 0 := by
    rw [← marks_handedOut, ← List.singleton_append, marks_append, marks_singleton rfl]
  by_cases hsame : j = i
  · subst hsame
    rw [if_pos rfl] at hstatus hphase
    have hnew : (b.freed dag j).count j = 0 := List.count_eq_zero.2 (hc.not_mem_freed h)
    exact takesTurn .finish (hc.status_of_phaseOf h) h hstatus hphase fun k => by
      simp [hmarks_eq, hnew]
  · rw [if_neg hsame] at hstatus hphase
    by_cases hmem : j ∈ b.freed dag i
    · rw [if_pos hmem] at hstatus hphase
      have hpending := hc.pending_of_mem_freed hmem
      have honce : (b.freed dag i).count j = 1 := List.count_eq_one_of_mem (freed_nodup hw b i) hmem
      exact takesTurn .free hpending (hc.phaseOf_eq_none hpending rfl) hstatus hphase fun k => by
        simp [hmarks_eq, honce, Ne.symm hsame, eq_comm]
    · rw [if_neg hmem] at hstatus hphase
      exact takesTurn_rest hstatus hphase fun k => by
        simp [hmarks_eq, List.count_eq_zero.2 hmem, Ne.symm hsame]

theorem Step.turn (hstep : Step dag b events b') (hw : dag.WellFormed) (hc : Consistent dag b)
    (j : Nat) : TakesTurn dag b events b' j := by
  cases hstep with
  | @start i hqueued hintact =>
    have hstatus := status_start_running (i := i) hintact j
    have hphase := phaseOf_start_running (i := i) hintact j
    by_cases hsame : j = i
    · subst hsame
      have hready := hc.status_of_phaseOf hqueued
      rw [if_pos rfl, hready] at hstatus
      rw [if_pos rfl, hqueued] at hphase
      exact takesTurn (.start hintact) hready hqueued hstatus hphase (marks_own rfl)
    · rw [if_neg hsame] at hstatus hphase
      exact takesTurn_rest hstatus hphase (marks_other rfl hsame)
  | @cancel i e hqueued hfailed =>
    have hstatus := status_start_cancelled (i := i) hfailed j
    have hphase := phaseOf_start_cancelled (i := i) hfailed j
    by_cases hsame : j = i
    · subst hsame
      have hready := hc.status_of_phaseOf hqueued
      rw [if_pos rfl, hready] at hstatus
      rw [if_pos rfl] at hphase
      exact takesTurn .cancel hready hqueued hstatus hphase (marks_own rfl)
    · rw [if_neg hsame] at hstatus hphase
      exact takesTurn_rest hstatus hphase (marks_other rfl hsame)
  | @run i body rest outcome result env supply hstarted hpublication =>
    have hphase := phaseOf_setPhase b i (.executed (some rest) result) j
    by_cases hsame : j = i
    · subst hsame
      have hrunning := hc.status_of_phaseOf hstarted
      rw [if_pos rfl, hstarted] at hphase
      exact takesTurn (.run rfl hpublication) hrunning hstarted hrunning hphase (marks_own rfl)
    · rw [if_neg hsame] at hphase
      exact takesTurn_rest rfl hphase (marks_other rfl hsame)
  | @lack i hstarted =>
    have hphase := phaseOf_setPhase b i
      (.executed none (.error (.unknownQuery (dag.nameOf i ++ " (no body)")))) j
    by_cases hsame : j = i
    · subst hsame
      have hrunning := hc.status_of_phaseOf hstarted
      rw [if_pos rfl, hstarted] at hphase
      exact takesTurn .lack hrunning hstarted hrunning hphase fun _ => rfl
    · rw [if_neg hsame] at hphase
      exact takesTurn_rest rfl hphase fun _ => rfl
  | write => exact takesTurn_rest rfl rfl fun _ => rfl
  | @settle i body result hexecuted =>
    cases result with
    | ok =>
      rw [handedOutBy_of_ok hw hexecuted]
      exact hc.turn_settle hw hexecuted j
    | error e =>
      have hstatus := status_settle_of_error dag hexecuted j
      have hphase := phaseOf_settle_of_error dag hexecuted j
      rw [handedOutBy_of_error hexecuted]
      by_cases hsame : j = i
      · subst hsame
        have hrunning := hc.status_of_phaseOf hexecuted
        rw [if_pos rfl, hrunning] at hstatus
        rw [if_pos rfl] at hphase
        exact takesTurn .fail hrunning hexecuted hstatus hphase (marks_own rfl)
      · rw [if_neg hsame] at hstatus hphase
        exact takesTurn_rest hstatus hphase (marks_other rfl hsame)

/-! ## Statuses -/

/-- A query that is done, has failed or was cancelled stays so. -/
theorem Step.status_of_final (hstep : Step dag b events b') (hw : dag.WellFormed)
    (hc : Consistent dag b) {status : QueryStatus} (h : b.status[j]? = some status)
    (hlast : status = .done ∨ status = .failed ∨ status = .cancelled) :
    b'.status[j]? = some status := by
  obtain ⟨mark, hturn, -⟩ := hstep.turn hw hc j
  rw [h] at hturn
  -- From here on only the turn tells about the two states.
  generalize b.phaseOf j = p, b'.status[j]? = s', b'.phaseOf j = p' at hturn ⊢
  cases hturn <;> simp_all

/-- A query starts to run only as long as the batch has not failed. -/
theorem Step.running (hstep : Step dag b events b') (hw : dag.WellFormed) (hc : Consistent dag b)
    (h : b'.status[j]? = some .running) : b.status[j]? = some .running ∨ b.failure = none := by
  obtain ⟨mark, hturn, -⟩ := hstep.turn hw hc j
  rw [h] at hturn
  generalize b.status[j]? = s, b.phaseOf j = p, b'.phaseOf j = p' at hturn ⊢
  cases hturn <;> simp_all

/-- A step takes a query to the stage that it marks, from below. -/
theorem Step.stage (hstep : Step dag b events b') (hw : dag.WellFormed) (hc : Consistent dag b)
    (j : Nat) :
    b.stage j ≤ b'.stage j ∧
      ∀ k, Batch.marks events j k ≤ 1 ∧
        (0 < Batch.marks events j k → b.stage j < k ∧ k ≤ b'.stage j) := by
  obtain ⟨mark, hturn, hmarks_eq⟩ := hstep.turn hw hc j
  rw [Batch.stage, Batch.stage]
  generalize b.status[j]? = s, b.phaseOf j = p, b'.status[j]? = s', b'.phaseOf j = p' at hturn ⊢
  refine ⟨by cases hturn <;> simp [Phase.stage], fun k => ?_⟩
  rw [hmarks_eq]
  cases hturn <;> simp [Phase.stage] <;> grind

/-! ## Runs -/

variable {env : SharedEnvironment} {supply : Supply} {history : List Event}

/-- A stage that a query has not reached was never marked. -/
theorem Run.marks (hrun : Run dag env supply history b) (hw : dag.WellFormed) (i k : Nat) :
    Batch.marks history i k ≤ 1 ∧ (b.stage i < k → Batch.marks history i k = 0) := by
  induction hrun with
  | launch =>
    rw [marks_handedOut, queued_launch]
    have honce := List.nodup_iff_count_le_one.1 (roots_nodup dag.indegrees) i
    refine ⟨by split <;> omega, fun hbelow => ?_⟩
    split
    next hone =>
      refine List.count_eq_zero.2 fun hroot => ?_
      rw [stage_of_phaseOf ((phaseOf_launch i).trans (if_pos hroot)), hone] at hbelow
      exact absurd hbelow (by simp [Phase.stage])
    next => rfl
  | @step history events b b' hrun hstep ih =>
    have ⟨hle, hreaches⟩ := hstep.stage hw (hrun.consistent hw) i
    have ⟨honce, hreaches⟩ := hreaches k
    rw [marks_append]
    constructor
    · -- A stage that is marked now was not reached before, hence not marked before.
      by_contra htwice
      have := ih.2 (hreaches (by omega)).1
      omega
    · intro hbelow
      have hquiet : Batch.marks events i k = 0 := by
        by_contra hpos
        have := hreaches (Nat.pos_of_ne_zero hpos)
        omega
      have := ih.2 (hle.trans_lt hbelow)
      omega

/-- What takes a query to a certain stage happens to it at most once. -/
theorem Run.nodup_of_mark (hrun : Run dag env supply history b) (hw : dag.WellFormed) {k : Nat}
    {f : Event → Option Nat}
    (h : ∀ event i, f event = some i → event.mark = some (i, k)) :
    (history.filterMap f).Nodup := by
  rw [List.nodup_iff_count_le_one]
  intro i
  have honce := (hrun.marks hw i k).1
  refine le_trans ?_ honce
  rw [List.count_filterMap]
  refine List.countP_mono_left fun event _ hfound => ?_
  rw [beq_iff_eq] at hfound ⊢
  exact h event i hfound

end Batch
end PathQuery

import PathQuery.Proofs.Schedule.Progress

/-!
# A single worker

* `RunUnder.runTask`: a worker that makes the three steps of a query in a row takes part in a run;
* `RunUnder.drain`: working off the queue takes the run to its end, within as many rounds as there
  are queries;
* `Scheduler.run_eq_conclude_under`, `schedule_eq_conclude`: what is reported of a batch without
  cyclic dependencies is what an ended run reports.
-/

namespace PathQuery
namespace Batch

variable {dag : DependencyGraph} {env : SharedEnvironment} {supply : Supply} {b b' : Batch}
  {i j : Nat} {history : List Event} {conduct : Conduct} {g : Graph}

/-- The queries other than `i` stay with the workers, and new ones are only queued. -/
structure Leaves (b b' : Batch) (i : Nat) : Prop where
  own : b'.phaseOf i = none
  others : ∀ j ≠ i, b'.phaseOf j = b.phaseOf j ∨ b.phaseOf j = none ∧ b'.phaseOf j = some .queued

theorem phaseOf_execute (dag : DependencyGraph) {body : Option Body}
    (h : b.phaseOf i = some (.started body)) (g : Graph) :
    (∃ rest result, (b.execute dag g i).phaseOf i = some (.executed rest result)) ∧
      ∀ j ≠ i, (b.execute dag g i).phaseOf j = b.phaseOf j := by
  have hmoved (phase : Phase) : (b.setPhase i phase).phaseOf i = some phase := by
    rw [phaseOf_setPhase, if_pos rfl, h]
    rfl
  have hkept (phase : Phase) (j : Nat) (hother : j ≠ i) :
      (b.setPhase i phase).phaseOf j = b.phaseOf j := by
    rw [phaseOf_setPhase, if_neg hother]
  unfold execute
  rw [h]
  cases body with
  | none => exact ⟨⟨_, _, hmoved _⟩, hkept _⟩
  | some body => exact ⟨⟨_, _, hmoved _⟩, hkept _⟩

theorem Consistent.leaves_settle (hc : Consistent dag b) (hw : dag.WellFormed) {body : Option Body}
    {result : Except EvalError Unit} (h : b.phaseOf i = some (.executed body result)) :
    Leaves b (b.settle dag i) i := by
  cases result with
  | error e =>
    have hphase := phaseOf_settle_of_error dag h
    exact ⟨(hphase i).trans (if_pos rfl), fun j hother => .inl ((hphase j).trans (if_neg hother))⟩
  | ok =>
    refine ⟨(hc.phaseOf_settle hw h i).trans (if_pos rfl), fun j hother => ?_⟩
    rw [hc.phaseOf_settle hw h, if_neg hother]
    split
    next hmem => exact .inr ⟨hc.phaseOf_eq_none (hc.pending_of_mem_freed hmem) rfl, rfl⟩
    next => exact .inl rfl

/-- A query that was queued is worked off without a break. -/
theorem RunUnder.runTask (hrun : RunUnder dag conduct env supply history b) (hw : dag.WellFormed)
    (hunbroken : conduct.Unbroken dag g env supply) (h : b.phaseOf i = some .queued) :
    ∃ events, Silent events ∧
      RunUnder dag conduct env supply (history ++ events) (b.runTask dag g i) ∧
      Leaves b (b.runTask dag g i) i ∧ ∀ j, b.stage j ≤ (b.runTask dag g i).stage j := by
  cases hfailed : b.failure with
  | some e =>
    have hphase := phaseOf_start_cancelled (i := i) hfailed
    have hown := (hphase i).trans (if_pos rfl)
    have htask : b.runTask dag g i = b.start i := by
      simp only [Batch.runTask, hown]
    have hstep : Step dag b [.cancelled i] (b.start i) := .cancel h hfailed
    rw [htask]
    exact ⟨[.cancelled i], by simp [Silent], hrun.step hstep (by simp),
      ⟨hown, fun j hother => .inl ((hphase j).trans (if_neg hother))⟩,
      fun j => (hstep.stage hw (hrun.run.consistent hw) j).1⟩
  | none =>
    have hphase := phaseOf_start_running (i := i) hfailed
    have hstarted : (b.start i).phaseOf i = some (.started ((b.bodies[i]?).bind id)) := by
      rw [hphase, if_pos rfl, h]
      rfl
    have htask : b.runTask dag g i = ((b.start i).execute dag g i).settle dag i := by
      simp only [Batch.runTask, hstarted]
    have hstart : Step dag b [.started i] (b.start i) := .start h hfailed
    obtain ⟨events, hsilent, hexecute, hasked⟩ := Step.execute dag hstarted g
    obtain ⟨⟨rest, result, hexecuted⟩, hkept⟩ := phaseOf_execute dag hstarted g
    have hsettle : Step dag _ _ _ := .settle hexecuted
    have hrun₁ := hrun.step hstart (by simp)
    have hrun₂ := hrun₁.step hexecute fun j outcome result hran => by
      obtain ⟨rfl, own, hbody, rfl⟩ := hasked j outcome result hran
      exact hunbroken _ _ _ own hrun₁.run (hstarted.trans (by rw [hbody]))
    have hleaves := (hrun₂.run.consistent hw).leaves_settle hw hexecuted
    refine ⟨[.started i] ++ events ++ (.settled i result ::
      (((b.start i).execute dag g i).handedOutBy dag i).map .handedOut), ?_, ?_, ?_, ?_⟩
    · exact (Silent.append (by simp [Silent]) hsilent).append (by simp [Silent])
    · rw [htask]
      simpa only [List.append_assoc] using hrun₂.step hsettle (by simp)
    · rw [htask]
      refine ⟨hleaves.own, fun j hother => ?_⟩
      have hsame : ((b.start i).execute dag g i).phaseOf j = b.phaseOf j :=
        (hkept j hother).trans ((hphase j).trans (if_neg hother))
      exact hsame ▸ hleaves.others j hother
    · intro j
      rw [htask]
      calc b.stage j ≤ (b.start i).stage j := (hstart.stage hw (hrun.run.consistent hw) j).1
        _ ≤ ((b.start i).execute dag g i).stage j :=
          (hexecute.stage hw (hrun₁.run.consistent hw) j).1
        _ ≤ (((b.start i).execute dag g i).settle dag i).stage j :=
          (hsettle.stage hw (hrun₂.run.consistent hw) j).1

/-! ## The queue -/

/-- The number of queries that are not finished. -/
def unfinished (b : Batch) (dag : DependencyGraph) : Nat :=
  (List.range dag.size).countP fun j => b.stage j < 4

theorem unfinished_lt (hc : Consistent dag b) {phase : Phase} (h : b.phaseOf i = some phase)
    (hleft : b'.phaseOf i = none) (hle : ∀ j, b.stage j ≤ b'.stage j) :
    b'.unfinished dag < b.unfinished dag := by
  have hbefore : b.stage i < 4 := (stage_of_phaseOf h).trans_lt phase.stage_lt
  -- A query that no worker has is at the first or at the last stage, and it does not go back.
  have hafter : 4 ≤ b'.stage i := by
    have hstarted : 0 < b.stage i := phase.stage_pos.trans_eq (stage_of_phaseOf h).symm
    have hpos : 0 < b'.stage i := hstarted.trans_le (hle i)
    have hidle : b'.stage i = if b'.status[i]? = some .pending then 0 else 4 := by rw [stage, hleft]
    split at hidle <;> omega
  have hfewer : b'.unfinished dag ≤
      (List.range dag.size).countP fun j => decide (b.stage j < 4) && j != i := by
    refine List.countP_mono_left fun j _ hbelow => ?_
    simp only [decide_eq_true_eq, Bool.and_eq_true, bne_iff_ne] at hbelow ⊢
    refine ⟨(hle j).trans_lt hbelow, ?_⟩
    rintro rfl
    omega
  have hone : b.unfinished dag =
      ((List.range dag.size).countP fun j => decide (b.stage j < 4) && j != i) + 1 := by
    rw [unfinished, countP_eq_of_lost List.nodup_range (a := i)
      (q := fun j => decide (b.stage j < 4) && j != i) (by simp) (fun j hother => by simp [hother]),
      if_pos]
    simp only [List.mem_range, decide_eq_true_eq]
    exact ⟨hc.lt_size h, hbefore⟩
  omega

theorem Consistent.queued_eq_nil (hc : Consistent dag b) (hnone_left : b.unfinished dag = 0) :
    b.queued = [] := by
  refine List.eq_nil_iff_forall_not_mem.2 fun i hmem => ?_
  obtain ⟨phase, h⟩ := Option.ne_none_iff_exists'.1 fun hidle => phaseOf_eq_none_iff.1 hidle hmem
  have := List.countP_eq_zero.1 hnone_left i (List.mem_range.2 (hc.lt_size h))
  rw [stage_of_phaseOf h] at this
  simp [phase.stage_lt] at this

/-- The queue holds the queries that are in the hands of the workers, each of them once. -/
structure Queue (b : Batch) (waiting : List Nat) : Prop where
  nodup : waiting.Nodup
  mem_iff (j : Nat) : j ∈ waiting ↔ j ∈ b.queued
  quiet : ∀ j phase, b.phaseOf j = some phase → phase = .queued

theorem mem_queued_iff (b : Batch) (j : Nat) : j ∈ b.queued ↔ b.phaseOf j ≠ none :=
  (not_iff_comm.1 phaseOf_eq_none_iff.symm).symm

theorem Queue.next {waiting : List Nat} (hqueue : Queue b (i :: waiting)) (ht' : Tracked b')
    (hleaves : Leaves b b' i) :
    Queue b' ((b'.queued.filter fun q => !(b.queued.contains q)).reverse ++ waiting) := by
  obtain ⟨hgone, hnodup⟩ := List.nodup_cons.1 hqueue.nodup
  have hown : i ∉ b'.queued := phaseOf_eq_none_iff.1 hleaves.own
  have hmem_filter (j : Nat) : j ∈ (b'.queued.filter fun q => !(b.queued.contains q)).reverse ↔
      j ∈ b'.queued ∧ j ∉ b.queued := by
    simp [List.mem_filter]
  have hkept : ∀ j ∈ waiting, j ∈ b'.queued := fun j hmem => by
    have hbefore : j ∈ b.queued := (hqueue.mem_iff j).1 (List.mem_cons_of_mem i hmem)
    rw [mem_queued_iff] at hbefore ⊢
    have hother : j ≠ i := fun hsame => hgone (hsame ▸ hmem)
    rcases hleaves.others j hother with hsame | ⟨hidle, -⟩
    · rwa [hsame]
    · exact (hbefore hidle).elim
  -- The queries that were freed go to the front; those that waited before keep their order.
  constructor
  case nodup =>
    refine List.Nodup.append (List.nodup_reverse.2 (ht'.queued_nodup.filter _)) hnodup ?_
    intro j hnew hold
    exact ((hmem_filter j).1 hnew).2 ((hqueue.mem_iff j).1 (List.mem_cons_of_mem i hold))
  case mem_iff =>
    intro j
    rw [List.mem_append, hmem_filter]
    constructor
    · rintro (⟨hmem, -⟩ | hmem)
      · exact hmem
      · exact hkept j hmem
    · intro hmem
      by_cases hbefore : j ∈ b.queued
      · rcases List.mem_cons.1 ((hqueue.mem_iff j).2 hbefore) with rfl | hmem
        · exact (hown ‹_›).elim
        · exact .inr hmem
      · exact .inl ⟨hmem, hbefore⟩
  case quiet =>
    intro j phase h
    have hother : j ≠ i := fun hsame => by
      rw [hsame, hleaves.own] at h
      cases h
    rcases hleaves.others j hother with hsame | ⟨-, hqueued⟩
    · exact hqueue.quiet j phase (hsame ▸ h)
    · exact Option.some.inj (h.symm.trans hqueued)

/-- With a round for every unfinished query, the queue is worked off. -/
theorem RunUnder.drain (hw : dag.WellFormed) (hunbroken : conduct.Unbroken dag g env supply)
    (bound : Nat) (waiting : List Nat) (b : Batch) {history : List Event}
    (hrun : RunUnder dag conduct env supply history b) (hsilent : Silent history)
    (hqueue : Queue b waiting) (henough : b.unfinished dag ≤ bound) :
    ∃ history, Silent history ∧
      RunUnder dag conduct env supply history (b.drain dag g bound waiting) ∧
      (b.drain dag g bound waiting).queued = [] := by
  have hc := hrun.run.consistent hw
  -- Every round finishes one query at least, so that the bound is never met too early.
  induction bound generalizing waiting b history with
  | zero => exact ⟨history, hsilent, hrun, hc.queued_eq_nil (Nat.le_zero.1 henough)⟩
  | succ bound ih =>
    cases waiting with
    | nil =>
      exact ⟨history, hsilent, hrun, List.eq_nil_iff_forall_not_mem.2 fun j hmem =>
        List.not_mem_nil ((hqueue.mem_iff j).2 hmem)⟩
    | cons i waiting =>
      have hmem := (hqueue.mem_iff i).1 List.mem_cons_self
      obtain ⟨phase, h⟩ := Option.ne_none_iff_exists'.1 ((mem_queued_iff b i).1 hmem)
      obtain rfl := hqueue.quiet i phase h
      obtain ⟨events, hquiet, hrun', hleaves, hle⟩ := hrun.runTask hw hunbroken h
      have hc' := hrun'.run.consistent hw
      have hfewer := unfinished_lt hc h hleaves.own hle
      exact ih _ _ hrun' (hsilent.append hquiet) (hqueue.next hc'.toTracked hleaves) (by omega) hc'

theorem queue_launch : Queue (initial dag env supply).launch
    (initial dag env supply).launch.queued where
  nodup := tracked_launch.queued_nodup
  mem_iff _ := Iff.rfl
  quiet j phase h := by
    rw [phaseOf_launch] at h
    split at h
    next => exact (Option.some.inj h).symm
    next => cases h

/-! ## Workers read names and dependencies only -/

theorem execute_emptied (b : Batch) (dag : DependencyGraph) (g : Graph) (i : Nat) :
    b.execute dag.emptied g i = b.execute dag g i := by
  unfold execute
  rw [DependencyGraph.nameOf_emptied]

theorem settle_emptied (b : Batch) (dag : DependencyGraph) (i : Nat) :
    b.settle dag.emptied i = b.settle dag i := by
  unfold settle settleDone settleFailed
  simp only [DependencyGraph.nameOf_emptied, DependencyGraph.successorsOf_emptied]

theorem runTask_emptied (b : Batch) (dag : DependencyGraph) (g : Graph) (i : Nat) :
    b.runTask dag.emptied g i = b.runTask dag g i := by
  unfold runTask
  simp only [execute_emptied, settle_emptied]

/-- The bodies that run are those that the batch took at its start. -/
theorem drain_emptied (dag : DependencyGraph) (g : Graph) (bound : Nat) (waiting : List Nat)
    (b : Batch) : drain dag.emptied g bound waiting b = drain dag g bound waiting b := by
  induction bound generalizing waiting b with
  | zero => rfl
  | succ bound ih =>
    cases waiting with
    | nil => rfl
    | cons i waiting =>
      rw [drain, drain, runTask_emptied]
      exact ih _ _

end Batch

section Scheduler

variable {dag : DependencyGraph} {env : SharedEnvironment} {supply : Supply} {order : List String}

/-- What a scheduler with workers reports is what some run reports at its end, in which no body
writes the environment and the bodies do as they are asked. -/
theorem Scheduler.run_eq_conclude_under (s : Scheduler)
    (hstaffed : s.startWorkers s.config = .ok ()) (hw : dag.WellFormed) (g : Graph)
    {conduct : Batch.Conduct} (hunbroken : conduct.Unbroken dag g env supply)
    (hsorted : dag.topologicalOrder = .ok order) :
    ∃ history b, Batch.Silent history ∧ Batch.RunUnder dag conduct env supply history b ∧
      b.queued = [] ∧ s.run dag g env supply = b.conclude dag.emptied := by
  let b := (Batch.initial dag env supply).launch
  have hsilent : Batch.Silent (b.queued.map .handedOut) := by simp [Batch.Silent]
  have henough : b.unfinished dag ≤ dag.size := List.countP_le_length.trans (by simp)
  have hstart : Batch.RunUnder dag conduct env supply (b.queued.map .handedOut) b := .launch
  obtain ⟨history, hsilent, hrun, hdone⟩ :=
    hstart.drain hw hunbroken dag.size b.queued b hsilent Batch.queue_launch henough
  refine ⟨history, _, hsilent, hrun, hdone, ?_⟩
  simp only [run, hsorted, hstaffed, DependencyGraph.size_emptied, Batch.drain_emptied, b]

theorem schedule_eq_conclude_under (hw : dag.WellFormed) (g : Graph) {conduct : Batch.Conduct}
    (hunbroken : conduct.Unbroken dag g env supply) (hsorted : dag.topologicalOrder = .ok order) :
    ∃ history b, Batch.Silent history ∧ Batch.RunUnder dag conduct env supply history b ∧
      b.queued = [] ∧ schedule dag g env supply = b.conclude dag.emptied :=
  Scheduler.run_eq_conclude_under {} rfl hw g hunbroken hsorted

theorem schedule_eq_conclude (hw : dag.WellFormed) (g : Graph) (env : SharedEnvironment)
    (supply : Supply) (hsorted : dag.topologicalOrder = .ok order) :
    ∃ history b, Batch.Silent history ∧ Batch.Run dag env supply history b ∧ b.queued = [] ∧
      schedule dag g env supply = b.conclude dag.emptied := by
  have hunbroken : Batch.Conduct.Unbroken (fun _ _ _ _ _ => True) dag g env supply :=
    fun _ _ _ _ _ _ => trivial
  obtain ⟨history, b, hsilent, hrun, hrest⟩ :=
    schedule_eq_conclude_under hw g hunbroken hsorted
  exact ⟨history, b, hsilent, hrun.run, hrest⟩

end Scheduler

end PathQuery

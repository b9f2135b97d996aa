import PathQuery.Proofs.Schedule.Bodies

/-!
# What a query finds

* `Run.of_started`: the moment at which a query that runs was started;
* `Run.found_at_start`: at that moment, the values of all queries on which it depends were there;
* `Run.get_iff`: if no body writes by itself, the environment holds the values of the queries and
  what was there before, and nothing else;
* `Run.intact`: if all bodies answer values under free names, the batch does not fail.
-/

namespace PathQuery
namespace Batch

variable {dag : DependencyGraph} {b b' : Batch} {i j : Nat} {env : SharedEnvironment}
  {supply : Supply} {history events : List Event}

/-! ## The start of a query -/

/-- Whoever starts a query does nothing else in this step. -/
theorem Step.eq_of_started (hstep : Step dag b events b') (h : .started i ∈ events) :
    events = [.started i] ∧ b.phaseOf i = some .queued := by
  cases hstep with
  | start hqueued hintact =>
    obtain rfl := Event.started.inj (List.mem_singleton.1 h)
    exact ⟨rfl, hqueued⟩
  | _ => simp at h

theorem Run.of_started (hrun : Run dag env supply history b) (hw : dag.WellFormed)
    {body : Option Body} (h : b.phaseOf i = some (.started body)) :
    ∃ before after b₀, history = before ++ .started i :: after ∧
      Run dag env supply before b₀ ∧ b₀.phaseOf i = some .queued := by
  induction hrun generalizing body with
  | launch =>
    rw [phaseOf_launch] at h
    split at h <;> cases h
  | @step history events b b' hrun hstep ih =>
    -- Either the query was started in this step, or it was running before.
    by_cases hnow : .started i ∈ events
    · obtain ⟨rfl, hqueued⟩ := hstep.eq_of_started hnow
      exact ⟨history, [], b, rfl, hrun, hqueued⟩
    · obtain ⟨mark, hturn, hmarks_eq⟩ := hstep.turn hw (hrun.consistent hw) i
      have hearlier : b.phaseOf i = some (.started body) := by
        have hunmarked : Batch.marks events i 2 = 0 := List.countP_eq_zero.2 fun event hmem => by
          cases event <;> simp [Event.mark]
          rintro rfl
          exact hnow hmem
        rw [h] at hturn
        generalize b.status[i]? = s, b.phaseOf i = p, b'.status[i]? = s' at hturn ⊢
        cases hturn with
        | rest => rfl
        | start => simp [hmarks_eq] at hunmarked
      obtain ⟨before, after, b₀, rfl, hrun₀, hqueued⟩ := ih hearlier
      exact ⟨before, after ++ events, b₀, by simp, hrun₀, hqueued⟩

theorem Run.not_ran_of_started (hrun : Run dag env supply history b) (hw : dag.WellFormed)
    {body : Option Body} (h : b.phaseOf i = some (.started body)) (outcome : Except Failure Value)
    (result : Except EvalError Unit) : .ran i outcome result ∉ history := by
  intro hmem
  have hunmarked : Batch.marks history i 3 = 0 :=
    (hrun.marks hw i 3).2 (by simp [stage_of_phaseOf h, Phase.stage])
  have := List.countP_eq_zero.1 hunmarked _ hmem
  simp [Event.mark] at this

/-- The body in the hands of a worker is the one that the query was given. -/
theorem Run.eq_of_started (hrun : Run dag env supply history b) (hw : dag.WellFormed)
    {body : Option Body} (h : b.phaseOf i = some (.started body)) {own : Body}
    (hhere : dag.bodyOf i = some own) : body = some own :=
  (bodyOf_of_started h).symm.trans (hrun.bodyOf_of_not_ran hw (hrun.not_ran_of_started hw h) hhere)

/-! ## What was there at the start -/

theorem Consistent.done_of_depends (hc : Consistent dag b) {status : QueryStatus}
    (h : b.status[i]? = some status) (hmoved : status ≠ .pending) {p : Nat}
    (hpath : Relation.TransGen dag.DependsOn i p) : b.isDone p = true := by
  induction hpath with
  | single hdepends => exact hc.predecessors_done h hmoved hdepends
  | tail _ hdepends ih => exact hc.predecessors_done (beq_iff_eq.1 ih) (by decide) hdepends

/-- The environment after a part of the history. -/
def envAfter (dag : DependencyGraph) (env : SharedEnvironment) (history : List Event) :
    SharedEnvironment :=
  ⟨env.entries ++ history.filterMap (Event.entry dag)⟩

theorem Run.env_eq (hrun : Run dag env supply history b) (hw : dag.WellFormed) :
    b.env = envAfter dag env history :=
  congrArg SharedEnvironment.mk (hrun.entries hw)

/-- What was there is not replaced. -/
theorem get_envAfter_append {x : String} {v : Value} {later : List Event}
    (h : (envAfter dag env history).get x = some v) :
    (envAfter dag env (history ++ later)).get x = some v := by
  have hentries : (envAfter dag env (history ++ later)).entries =
      (envAfter dag env history).entries ++ later.filterMap (Event.entry dag) := by
    simp [envAfter]
  rw [SharedEnvironment.get_append _ _ hentries, h]
  rfl

/-- A query that runs was started when everything on which it depends had been published. -/
theorem Run.found_at_start (hrun : Run dag env supply history b) (hw : dag.WellFormed)
    {body : Option Body} (h : b.phaseOf i = some (.started body)) :
    ∃ before after, history = before ++ .started i :: after ∧
      ∀ p, Relation.TransGen dag.DependsOn i p → ∃ value,
        .ran p (.ok value) (.ok ()) ∈ before ∧
        (envAfter dag env before).get (dag.nameOf p) = some value := by
  obtain ⟨before, after, b₀, hsplit, hrun₀, hqueued⟩ := hrun.of_started hw h
  refine ⟨before, after, hsplit, fun p hpath => ?_⟩
  have hc := hrun₀.consistent hw
  have hdone := hc.done_of_depends (hc.status_of_phaseOf hqueued) (by decide) hpath
  rw [← hrun₀.env_eq hw]
  exact hrun₀.result_of_isDone hw hdone

/-! ## What is there in the end -/

theorem Run.get_iff (hrun : Run dag env supply history b) (hw : dag.WellFormed)
    (hsilent : Silent history) (x : String) (v : Value) :
    b.env.get x = some v ↔
      env.get x = some v ∨ ∃ i, dag.nameOf i = x ∧ .ran i (.ok v) (.ok ()) ∈ history := by
  constructor
  · intro h
    rw [SharedEnvironment.get_append env b.env (hrun.entries hw),
      filterMap_entry_of_silent dag hsilent] at h
    rcases Option.or_eq_some_iff.1 h with hbefore | ⟨-, hadded⟩
    · exact .inl hbefore
    · obtain ⟨_, _, hentries, -⟩ := List.lookup_eq_some_iff.1 hadded
      have hmem : (x, v) ∈ (history.filterMap Event.result).map fun r => (dag.nameOf r.1, r.2) := by
        simp [hentries]
      obtain ⟨⟨i, value⟩, hresult, hsame⟩ := List.mem_map.1 hmem
      cases hsame
      exact .inr ⟨i, rfl, mem_results_iff.1 hresult⟩
  · rintro (hbefore | ⟨i, rfl, hran⟩)
    · exact hrun.get_of_get hw hbefore
    · exact (hrun.result hw hran).2

/-- If every query has a body, and no body ends otherwise than with a value under a free name. -/
theorem Run.intact (hrun : Run dag env supply history b) (hw : dag.WellFormed)
    (hwhole : ∀ i < dag.size, ∃ body, dag.bodyOf i = some body)
    (hgood : ∀ i outcome result, .ran i outcome result ∈ history → result = .ok ()) :
    b.failure = none ∧ ∀ i body result, b.phaseOf i = some (.executed body result) →
      result = .ok () := by
  induction hrun with
  | launch =>
    refine ⟨by rw [launch_eq]; rfl, fun i body result h => ?_⟩
    rw [phaseOf_launch] at h
    split at h <;> cases h
  | @step history events b b' hrun hstep ih =>
    obtain ⟨hintact, hended⟩ := ih fun i outcome result hmem =>
      hgood i outcome result (List.mem_append_left _ hmem)
    refine ⟨?_, fun i body result h => ?_⟩
    · rw [hstep.failure hw, hintact, Option.none_or, List.findSome?_eq_none_iff]
      intro event hmem
      cases event with
      | settled i result =>
        obtain ⟨⟨body, hexecuted⟩, -⟩ := hstep.tells hmem
        rw [hended i body result hexecuted]
        rfl
      | _ => rfl
    · rcases hstep.executed hw (hrun.consistent hw) h with
        hbefore | ⟨outcome, -, hran, -⟩ | ⟨hlacking, -⟩
      · exact hended i body result hbefore
      · exact hgood i outcome result (List.mem_append_right _ hran)
      · obtain ⟨own, hhere⟩ := hwhole i ((hrun.consistent hw).lt_size hlacking)
        cases hrun.eq_of_started hw hlacking hhere

end Batch
end PathQuery

import PathQuery.Proofs.Evaluation.Reset
import PathQuery.Proofs.Schedule.Found
import PathQuery.Proofs.Schedule.Sequential

/-!
# Many workers and one

Queries that look at nothing but what they depend on answer the same whenever they are run.

* `Batch.evaluating`: the workers evaluate queries, each with what it finds meanwhile;
* `Batch.Refines`: every value that was published stands for the one in a ledger;
* `Refines.ran`: this goes on when one more query has been run;
* `RunUnder.refines`: so it is in every run;
* `run_refines`: if all queries can be evaluated one after the other, no interleaving fails, and all
  of them lead to the same results;
* `counting_interleavings_differ`: with functions that count their calls they do not.
-/

namespace PathQuery

/-- The same names have the same values, handles and serials aside. -/
def SharedEnvironment.Same (env env' : SharedEnvironment) : Prop :=
  ∀ x, (env.get x).map Value.content = (env'.get x).map Value.content

theorem SharedEnvironment.Same.symm {env env' : SharedEnvironment} (h : env.Same env') :
    env'.Same env :=
  fun x => (h x).symm

theorem SharedEnvironment.Same.trans {env env' env'' : SharedEnvironment} (h : env.Same env')
    (h' : env'.Same env'') : env.Same env'' :=
  fun x => (h x).trans (h' x)

namespace Batch

/-! ## Workers that evaluate queries -/

/-- What the query `i` can have found: all that was there when it was started, and some of what has
been published since. -/
structure Finds (dag : DependencyGraph) (env : SharedEnvironment) (history : List Event) (b : Batch)
    (i : Nat) (seen : SharedEnvironment) : Prop where
  published {x : String} {v : Value} : seen.get x = some v → b.env.get x = some v
  at_start {before after : List Event} {x : String} {v : Value} :
    history = before ++ .started i :: after →
    (envAfter dag env before).get x = some v → seen.get x = some v

/-- A query ends as its run with what it has found.  Handles only tell results apart, and nobody
else knows those of a query before its value is published, so the query can be said to take them
then.  Serials may have been taken by others in between. -/
def evaluating (dag : DependencyGraph) (g : Graph) (env : SharedEnvironment) : Conduct :=
  fun history b i outcome b' =>
    ∀ q, b.phaseOf i = some (.started (some (.query q))) →
      ∃ seen drawn answer rest left, Finds dag env history b i seen ∧
        b.supply.handles ≤ drawn.handles ∧ q.run g seen drawn = (answer, rest, left) ∧
        left.handles ≤ b'.supply.handles ∧ Correspondence.renumbering.Outcomes answer outcome

variable {dag : DependencyGraph} {b b' : Batch} {i j : Nat} {g : Graph}
  {env known : SharedEnvironment} {supply later : Supply} {history events : List Event}
  {base bound bound' : Nat} {L : Ledger} {order : List Nat}

/-- A worker that makes the steps of a query in a row evaluates it, too. -/
theorem unbroken_evaluating (hw : dag.WellFormed) (g : Graph) (env : SharedEnvironment)
    (supply : Supply) : (evaluating dag g env).Unbroken dag g env supply := by
  intro history b i body hrun hstarted q hsame
  obtain rfl : body = .query q := by simpa [hstarted] using hsame
  refine ⟨b.env, b.supply, _, _, _, ⟨id, fun {before after x v} hsplit hfound => ?_⟩, Nat.le_refl _,
    rfl, ?_, Correspondence.renumbering_refl _⟩
  · rw [hrun.env_eq hw, hsplit]
    exact get_envAfter_append hfound
  · rw [execute, hstarted]
    exact Nat.le_refl _

/-! ## Steps in which a body ends, and others -/

theorem Step.eq_of_ran (hstep : Step dag b events b') {outcome : Except Failure Value}
    {result : Except EvalError Unit} (h : .ran i outcome result ∈ events) :
    events = [.ran i outcome result] ∧ (∃ body, b.phaseOf i = some (.started (some body))) ∧
      publish b.env (dag.nameOf i) outcome = (result, b'.env) := by
  cases hstep with
  | run hstarted hpublication =>
    obtain ⟨rfl, rfl, rfl⟩ := Event.ran.inj (List.mem_singleton.1 h)
    exact ⟨rfl, ⟨_, hstarted⟩, hpublication⟩
  | _ => simp at h

theorem Step.supply_eq (hstep : Step dag b events b') (hw : dag.WellFormed)
    (hunran : ∀ i outcome result, .ran i outcome result ∉ events) : b'.supply = b.supply := by
  cases hstep with
  | start hqueued hintact => rw [start_eq_running hintact]
  | cancel hqueued hfailed => rw [start_eq_cancelled hfailed]
  | run => exact (hunran _ _ _ (List.mem_singleton_self _)).elim
  | lack => rfl
  | write => rfl
  | @settle i body result hexecuted =>
    cases result with
    | ok => rw [settle_eq_of_ok hw hexecuted]
    | error e => rw [settle_eq_of_error hexecuted]

/-! ## Values that stand for those in the ledger -/

/-- Handles are paired if they were there before, or if the query that took the one in the ledger
has run here too. -/
structure Refines (L : Ledger) (base : Nat) (order : List Nat) (history : List Event)
    (P : Pairing bound bound') : Prop where
  settled : ∀ k < base, P.pairs k k
  taken {h h' : Nat} : P.pairs h h' → h < base ∨
    ∃ i ∈ order, (∃ outcome result, .ran i outcome result ∈ history) ∧
      (L i).start ≤ h ∧ h < (L i).stop
  answer {i : Nat} {outcome : Except Failure Value} {result : Except EvalError Unit} :
    .ran i outcome result ∈ history → i ∈ order ∧ result = .ok () ∧ ∃ v, outcome = .ok v ∧
      (L i).value.Corresponds (P.correspondence fun _ => True) v

namespace Refines

variable {P : Pairing later.handles bound'}

/-- In other steps nothing happens to the values. -/
theorem quiet (hr : Refines L base order history P)
    (hunran : ∀ i outcome result, .ran i outcome result ∉ events) :
    Refines L base order (history ++ events) P where
  settled := hr.settled
  taken hpair := (hr.taken hpair).imp_right fun ⟨i, hmem, ⟨outcome, result, hran⟩, hrange⟩ =>
    ⟨i, hmem, ⟨outcome, result, List.mem_append_left _ hran⟩, hrange⟩
  answer hran := (List.mem_append.1 hran).elim hr.answer fun hnow => (hunran _ _ _ hnow).elim

/-- What has been published stands for what is in the ledger, also for a query that is to take its
own handles only now. -/
theorem stands (hr : Refines L base order history P)
    (hholds : L.Holds dag g env base order known later) {limit next : Nat} (hroom : bound' ≤ next)
    {p : Nat} {v : Value} {result : Except EvalError Unit}
    (hran : .ran p (.ok v) result ∈ history) (hbelow : (L p).stop ≤ limit)
    (hwithin : limit ≤ later.handles) :
    (L p).value.Corresponds ((P.upTo limit hroom).correspondence fun _ => True) v := by
  obtain ⟨hmem, -, u, hsame, hstands⟩ := hr.answer hran
  cases hsame
  refine hstands.mono ((hholds.entered hmem).before.mono hbelow) id (fun _ => id) ?_
  rintro h k (hpair | ⟨n, rfl, -⟩) hlt
  · exact .inl ⟨hpair, hlt⟩
  · omega

/-- One more query has run, and took its handles after all others. -/
theorem note (hr : Refines L base order history P)
    (hholds : L.Holds dag g env base order known later) (hmem : i ∈ order)
    (hunran : ∀ outcome result, .ran i outcome result ∉ history) {start' count next : Nat}
    {v : Value} (htaken : (L i).start + count ≤ (L i).stop)
    (hbefore : (L i).value.Before ((L i).start + count))
    (hroom : bound' ≤ start') (hroom' : start' + count ≤ next)
    (hstands : (L i).value.Corresponds
      ((P.upTo (L i).start hroom).correspondence fun _ => True) v) :
    ∃ Q : Pairing later.handles next,
      Refines L base order (history ++ [.ran i (.ok v) (.ok ())]) Q := by
  have hhigh := hholds.stop_le hmem
  -- In the ledger no other query took these handles, so nothing is paired with them yet.
  have hfree : ∀ h h', P.pairs h h' → h < (L i).start ∨ (L i).start + count ≤ h := by
    intro h h' hpair
    rcases hr.taken hpair with hlt | ⟨j, hj, ⟨_, _, hran⟩, hrange⟩
    · exact .inl (Nat.lt_of_lt_of_le hlt (hholds.entered hmem).base_le)
    · have hother : i ≠ j := fun hsame => hunran _ _ (hsame ▸ hran)
      have := hholds.apart hmem hj hother
      omega
  let Q : Pairing later.handles next := P.extend hfree (by omega) hroom hroom'
  have hwider : ∀ {h h'}, P.pairs h h' → Q.pairs h h' := .inl
  refine ⟨Q, fun k hk => hwider (hr.settled k hk), ?_, ?_⟩
  · rintro h h' (hpair | ⟨m, hlt, rfl, rfl⟩)
    · exact (hr.taken hpair).imp_right fun ⟨j, hj, ⟨_, _, hran⟩, hrange⟩ =>
        ⟨j, hj, ⟨_, _, List.mem_append_left _ hran⟩, hrange⟩
    · exact .inr ⟨i, hmem, ⟨.ok v, .ok (), by simp⟩, by omega, by omega⟩
  · intro j outcome result hran
    rcases List.mem_append.1 hran with hearlier | hnow
    · obtain ⟨hj, rfl, u, rfl, hstands⟩ := hr.answer hearlier
      have hlimit := hholds.stop_le hj
      refine ⟨hj, rfl, u, rfl, hstands.mono (hholds.entered hj).before id (fun _ => id) ?_⟩
      rintro h k (hpair | ⟨m, rfl, -⟩) hlt
      · exact .inl (hwider hpair)
      · omega
    · obtain ⟨rfl, rfl, rfl⟩ := Event.ran.inj (List.mem_singleton.1 hnow)
      refine ⟨hmem, rfl, v, rfl, hstands.mono hbefore id (fun _ => id) ?_⟩
      rintro h k (hpair | ⟨m, rfl, rfl⟩) hlt
      · exact .inl (hwider hpair.1)
      · exact .inl (.inr ⟨m, by omega, rfl, rfl⟩)

/-- A query that has not run yet is run with values that stand for those in the ledger, so that its
own value does so too. -/
theorem ran (hr : Refines L base order history P)
    (hholds : L.Holds dag g env base order known later)
    (hbefore : ∀ x v, env.get x = some v → v.Before base) (hmem : i ∈ order)
    (hunran : ∀ outcome result, .ran i outcome result ∉ history) {q : Query}
    (hbody : dag.bodyOf i = some (.query q)) (hold : q.Before base)
    (huniform : q.functions.Uniform base fun _ => True) {seen : SharedEnvironment}
    (hinitial : ∀ x v, env.get x = some v → seen.get x = some v)
    (hfound : ∀ p, Relation.TransGen dag.DependsOn i p → ∃ value,
      .ran p (.ok value) (.ok ()) ∈ history ∧ seen.get (dag.nameOf p) = some value)
    {drawn left : Supply} (hroom : bound' ≤ drawn.handles) {answer outcome : Except Failure Value}
    {rest : Query} (hrun : q.run g seen drawn = (answer, rest, left)) {next : Nat}
    (hleft_le : left.handles ≤ next)
    (hrenumbered : Correspondence.renumbering.Outcomes answer outcome) :
    ∃ v, outcome = .ok v ∧ ∃ Q : Pairing later.handles next,
      Refines L base order (history ++ [.ran i (.ok v) (.ok ())]) Q := by
  have hentered := hholds.entered hmem
  obtain ⟨q', seen', first, rest', stop, hbody', hhandles, hrun', hentries⟩ := hentered.answer
  obtain rfl : q = q' := by simpa [hbody] using hbody'
  have hlow := hentered.base_le
  have hrange := hentered.start_le
  have hhigh := hholds.stop_le hmem
  -- The query is compared with its run in the ledger, for which only earlier handles matter.
  let P' := P.upTo (L i).start hroom
  have hsettled : ∀ k < base, P'.pairs k k := fun k hk => ⟨hr.settled k hk, by omega⟩
  have hvalues : ∀ x v, seen'.get x = some v → v.Before first.handles ∧
      ∃ u, seen.get x = some u ∧ v.Corresponds (P'.correspondence fun _ => True) u := by
    intro x v hthere
    rw [hhandles]
    rcases hentries x v hthere with hthere | ⟨p, hp, hpath, hbelow, rfl, rfl⟩
    · have hearly := hbefore x v hthere
      exact ⟨hearly.mono hlow, v, hinitial x v hthere,
        hearly.corresponds v.within_univ fun k hk => .inl (hsettled k hk)⟩
    · obtain ⟨u, hran, hthere⟩ := hfound p hpath
      exact ⟨(hholds.entered hp).before.mono hbelow, u, hthere,
        hr.stands hholds hroom hran hbelow (by omega)⟩
  obtain ⟨u, rest'', left', hagain, hstands, n, hstop_eq, hleft_eq⟩ :=
    hold.run_elsewhere huniform P' hhandles rfl hsettled
      (fun x v hthere => (hvalues x v hthere).2) hrun'
  obtain ⟨rfl, -, rfl⟩ : answer = .ok u ∧ rest = rest'' ∧ left = left' := by
    simpa [hrun] using hagain
  cases outcome with
  | error failure => exact hrenumbered.elim
  | ok v =>
    have hfresh := (hold.run_before huniform (hhandles ▸ hlow)
      (fun x v hthere => (hvalues x v hthere).1) hrun').1
    -- The ledger and the run just compared bound the handles of the value, each in its own way.
    have hearly : (L i).value.Before ((L i).start + min n ((L i).stop - (L i).start)) := by
      rcases Nat.le_total n ((L i).stop - (L i).start) with hless | hless
      · exact hfresh.mono (by omega)
      · exact hentered.before.mono (by omega)
    refine ⟨v, rfl, hr.note hholds hmem hunran (by omega) hearly hroom (by omega) ?_⟩
    exact hstands.trans hrenumbered hearly id (fun _ => id) fun {_ k _} hpair hsame _ => by
      obtain rfl : k = _ := hsame
      exact hpair

/-- The names of the queries that have not run are free. -/
theorem get_eq_none (hr : Refines L base order history P)
    (hholds : L.Holds dag g env base order known later) (hw : dag.WellFormed)
    (hsorted : dag.Sorted order) (hrun : Run dag env supply history b) (hsilent : Silent history)
    (hmem : i ∈ order)
    (hunran : ∀ outcome result, .ran i outcome result ∉ history) :
    b.env.get (dag.nameOf i) = none := by
  by_contra htaken
  obtain ⟨v, hthere⟩ := Option.ne_none_iff_exists'.1 htaken
  rcases (hrun.get_iff hw hsilent _ v).1 hthere with hinitial | ⟨j, hname, hran⟩
  · cases (hholds.entered hmem).free.symm.trans hinitial
  · obtain rfl := hw.nameOf_inj (hsorted.lt_size (hr.answer hran).1) (hsorted.lt_size hmem) hname
    exact hunran _ _ hran

end Refines

/-! ## Runs -/

theorem get_envAfter {x : String} {v : Value} (h : env.get x = some v) (history : List Event) :
    (envAfter dag env history).get x = some v := by
  rw [SharedEnvironment.get_append env (envAfter dag env history) rfl, h]
  rfl

theorem publish_of_free {name : String} (hfree : env.get name = none) (v : Value) :
    (publish env name (.ok v)).1 = .ok () := by
  have hstored : env.insertNew name v = .ok ⟨env.entries ++ [(name, v)]⟩ :=
    SharedEnvironment.insertNew_eq_ok_iff.2 ⟨hfree, rfl⟩
  simp only [publish, hstored]

section Runs

variable (hw : dag.WellFormed) (hsorted : dag.Sorted order) (hall : ∀ i < dag.size, i ∈ order)
  (hqueries : ∀ i body, dag.bodyOf i = some body → ∃ q, body = .query q ∧ q.Before base)
  (huniform : ∀ i q, dag.bodyOf i = some (.query q) → q.functions.Uniform base fun _ => True)
  (hbefore : ∀ x v, env.get x = some v → v.Before base)
  (hholds : L.Holds dag g env base order known later) (hbase_le : base ≤ supply.handles)
include hw hsorted hall hqueries huniform hbefore hholds hbase_le

theorem RunUnder.refines (hrun : RunUnder dag (evaluating dag g env) env supply history b)
    (hsilent : Silent history) :
    ∃ P : Pairing later.handles b.supply.handles, Refines L base order history P := by
  induction hrun with
  | launch =>
    have hsame : (initial dag env supply).launch.supply = supply := by
      rw [launch_eq]
      rfl
    rw [hsame]
    exact ⟨.settled hholds.base_le hbase_le, fun k hk => ⟨rfl, hk⟩, fun hpair => .inl hpair.2,
      fun hran => by simp at hran⟩
  | @step history events b b' hrun hstep hasked ih =>
    have hearlier : Silent history := fun i name value hmem =>
      hsilent i name value (List.mem_append_left _ hmem)
    obtain ⟨P, hr⟩ := ih hearlier
    -- Only a step in which a body ends makes values and takes handles.
    by_cases hran : ∃ i outcome result, .ran i outcome result ∈ events
    · obtain ⟨i, outcome, result, hnow⟩ := hran
      obtain ⟨rfl, ⟨body, hstarted⟩, hpublication⟩ := hstep.eq_of_ran hnow
      have hmem := hall i ((hrun.run.consistent hw).lt_size hstarted)
      have hunran := hrun.run.not_ran_of_started hw hstarted
      obtain ⟨q, -, -, -, -, hhere, -⟩ := (hholds.entered hmem).answer
      obtain rfl : body = .query q := Option.some.inj (hrun.run.eq_of_started hw hstarted hhere)
      obtain ⟨_, hsame, hold⟩ := hqueries i _ hhere
      cases hsame
      obtain ⟨seen, drawn, answer, rest, left, hfinds, hroom, hrun', hleft_le, hrenumbered⟩ :=
        hasked i outcome result hnow q hstarted
      obtain ⟨start, after, hsplit, hfound⟩ := hrun.run.found_at_start hw hstarted
      obtain ⟨v, rfl, Q, hrefines⟩ := hr.ran hholds hbefore hmem hunran hhere hold
        (huniform i q hhere)
        (fun x v hthere => hfinds.at_start hsplit (get_envAfter hthere start))
        (fun p hpath => by
          obtain ⟨value, hran, hthere⟩ := hfound p hpath
          exact ⟨value, hsplit ▸ List.mem_append_left _ hran, hfinds.at_start hsplit hthere⟩)
        hroom hrun' hleft_le hrenumbered
      have hfree := hr.get_eq_none hholds hw hsorted hrun.run hearlier hmem hunran
      have hstored := publish_of_free hfree v
      rw [hpublication] at hstored
      obtain rfl : result = .ok () := hstored
      exact ⟨Q, hrefines⟩
    · push Not at hran
      rw [hstep.supply_eq hw hran]
      exact ⟨P, hr.quiet hran⟩

/-- No query fails, and in the end the results are those of the ledger. -/
theorem RunUnder.succeeds (hwhole : ∀ i < dag.size, ∃ body, dag.bodyOf i = some body)
    (hrun : RunUnder dag (evaluating dag g env) env supply history b) (hsilent : Silent history) :
    b.failure = none ∧
      (b.tasks = [] → (∀ i < dag.size, b.isDone i = true) ∧ b.env.Same known) := by
  obtain ⟨P, hr⟩ := hrun.refines hw hsorted hall hqueries huniform hbefore hholds hbase_le hsilent
  have hintact := (hrun.run.intact hw hwhole fun i outcome result hran => (hr.answer hran).2.1).1
  refine ⟨hintact, fun hrest => ?_⟩
  have hdone := (hrun.run.consistent hw).all_done hw (hsorted.acyclic hall) hintact hrest
  refine ⟨hdone, fun x => ?_⟩
  cases hthere : known.get x with
  | some v =>
    rcases (hholds.get_iff x v).1 hthere with hinitial | ⟨i, hmem, rfl, rfl⟩
    · rw [hrun.run.get_of_get hw hinitial]
    · obtain ⟨u, hran, hfound⟩ := hrun.run.result_of_isDone hw (hdone i (hsorted.lt_size hmem))
      obtain ⟨-, -, _, hsame, hstands⟩ := hr.answer hran
      cases hsame
      rw [hfound, Option.map_some, Option.map_some, hstands.content_eq]
  | none =>
    cases hfound : b.env.get x with
    | none => rfl
    | some u =>
      -- A value that is here is in the ledger, too.
      exfalso
      rcases (hrun.run.get_iff hw hsilent x u).1 hfound with hinitial | ⟨i, rfl, hran⟩
      · cases hthere.symm.trans ((hholds.get_iff x u).2 (.inl hinitial))
      · have hmem := (hr.answer hran).1
        cases hthere.symm.trans ((hholds.get_iff _ _).2 (.inr ⟨i, hmem, rfl, rfl⟩))

end Runs

/-- If the queries of a batch resolve only what they may, and can be evaluated and published one
after the other in the order of the batch, then no interleaving of workers fails.  All go on until
every query is done, and in the end the results are the same, of one hand and of whatever hands.

What was given to the queries was there before (`Query.Before`).  Their functions answer the same at
every call, and do not see serials or handles: what they answer to values that differ in these
differs in these only (`FunctionLibrary.Uniform`). -/
theorem run_refines {names : List String} {env₁ : SharedEnvironment} {supply₁ : Supply}
    (hbuilt : dag.Built) (hordered : dag.topologicalOrder = .ok names)
    (hqueries : ∀ i body, dag.bodyOf i = some body → ∃ q, body = .query q ∧ q.Before base)
    (huniform : ∀ i q, dag.bodyOf i = some (.query q) → q.functions.Uniform base fun _ => True)
    (hbefore : ∀ x v, env.get x = some v → v.Before base) (hbase_le : base ≤ supply.handles)
    (hdeclared : dag.Declared g names env supply)
    (hsequential : dag.oneByOne g names env supply = .ok (env₁, supply₁)) :
    ∀ supply' history b, base ≤ supply'.handles →
      RunUnder dag (evaluating dag g env) env supply' history b → Silent history →
      b.failure = none ∧
        (b.tasks ≠ [] → ∃ events b', Silent events ∧ Step dag b events b' ∧
          RunUnder dag (evaluating dag g env) env supply' (history ++ events) b') ∧
        (b.tasks = [] →
          (b.conclude dag.emptied).report.result = .ok () ∧
          (∀ i < dag.size, (b.conclude dag.emptied).report.status (dag.nameOf i) = some .done) ∧
          (b.conclude dag.emptied).env.Same env₁ ∧
          ∀ supply'' history' b', base ≤ supply''.handles →
            RunUnder dag (evaluating dag g env) env supply'' history' b' → Silent history' →
            b'.tasks = [] →
            (b.conclude dag.emptied).env.Same (b'.conclude dag.emptied).env) := by
  have hw := hbuilt.wellFormed
  obtain ⟨order, rfl, hsorted, hall⟩ := DependencyGraph.topologicalOrder_eq_ok hw hordered
  obtain ⟨L, hholds⟩ := DependencyGraph.exists_ledger hw hsorted hqueries huniform hbase_le hbefore
    hdeclared order [] (by simp) hsequential
  -- Every run is compared with the one ledger, so that any two agree.
  have hsucceeds {supply' : Supply} {history : List Event} {b : Batch}
      (hle : base ≤ supply'.handles)
      (hrun : RunUnder dag (evaluating dag g env) env supply' history b)
      (hsilent : Silent history) :=
    hrun.succeeds hw hsorted hall hqueries huniform hbefore hholds hle hbuilt.exists_body hsilent
  intro supply' history b hle hrun hsilent
  obtain ⟨hintact, hended⟩ := hsucceeds hle hrun hsilent
  refine ⟨hintact, hrun.exists_step (unbroken_evaluating hw g env supply'), fun hrest => ?_⟩
  obtain ⟨hdone, hsame⟩ := hended hrest
  refine ⟨?_, fun i hlt => ?_, hsame, fun supply'' history' b' hle' hrun' hsilent' hrest' => ?_⟩
  · simp only [conclude, ScheduleReport.result, hintact]
  · rw [status_conclude hw hlt, beq_iff_eq.1 (hdone i hlt)]
    rfl
  · exact hsame.trans ((hsucceeds hle' hrun' hsilent').2 hrest').2.symm

/-! ## A batch of two queries -/

open Query

/-- The roads that are open, and where they lead. -/
def crossingBatch : DependencyGraph where
  nodes := #[{ name := "roads", body := some (.query (asking 1)), successors := [1] },
    { name := "towns", body := some (.query (asking 4)), predecessors := [0] }]

theorem built_crossingBatch : crossingBatch.Built := by
  have hroads := DependencyGraph.Built.empty.addQuery "roads" (.query (asking 1)) rfl
  have htowns := hroads.addQuery "towns" (.query (asking 4)) rfl
  exact htowns.addDependency "towns" "roads" rfl

theorem before_asking (root : NodeId) : (asking root).Before 0 where
  memos {n v} hdone := by cases (Cache.memo_empty n).symm.trans hdone
  bindings hframe := absurd hframe List.not_mem_nil
  literals hget := .simple (literal_crossing hget)

theorem queries_crossingBatch (i : Nat) (body : Body) (h : crossingBatch.bodyOf i = some body) :
    ∃ q, body = .query q ∧ q.Before 0 := by
  match i, h with
  | 0, rfl => exact ⟨asking 1, rfl, before_asking 1⟩
  | 1, rfl => exact ⟨asking 4, rfl, before_asking 4⟩

theorem uniform_crossingBatch (i : Nat) (q : Query) (h : crossingBatch.bodyOf i = some (.query q)) :
    q.functions.Uniform 0 fun _ => True := by
  match i, h with
  | 0, rfl => exact FunctionLibrary.uniform_builtin 0 _
  | 1, rfl => exact FunctionLibrary.uniform_builtin 0 _

/-- The query of the roads stays below its root, where there is no other variable than the one that
was there before.  The other query can resolve all names that there are. -/
theorem declared_crossingBatch :
    crossingBatch.Declared road ["roads", "towns"] (opening true) {} := by
  have hpresent (i : Nat) : crossingBatch.MayResolve (opening true) i "open" :=
    .inl (by decide +kernel)
  have hroads : crossingBatch.MayResolve (opening true) 1 "roads" :=
    .inr ⟨0, .single (List.mem_singleton_self 0), rfl⟩
  intro earlier name later i q known first hsplit hposition hbody hevaluated
  match i, hbody with
  | 0, rfl =>
    have halone : known = opening true := by
      match earlier, hsplit with
      | [], _ =>
        cases hevaluated
        rfl
      | [_], hsplit =>
        simp only [List.singleton_append, List.cons.injEq] at hsplit
        obtain ⟨-, rfl, -⟩ := hsplit
        exact absurd hposition (by decide +kernel)
      | _ :: _ :: earlier, hsplit => simp at hsplit
    subst halone
    have hcontained := selfContained_opening 1 true
    refine resolvesOnly_of_region .refl (fun hn hc => hn.tail hc) (fun {n x} hn hget => ?_)
      (fun {x v} _ hx => ?_) (fun _ hdone => ?_) (fun _ => hcontained.bindings)
      (fun hn hget => hcontained.literals hn hget)
      (fun _ _ _ _ hargs hcall => hcontained.functions hargs hcall) road first
    · rcases var_crossing hget with ⟨rfl, rfl⟩ | ⟨rfl, rfl⟩
      · exact hpresent 0
      · have hmem := Cache.mem_below_iff.2 hn
        exact absurd hmem (by decide +kernel)
    · rw [(get_opening hx).2]
      exact .simple (.bool true)
    · cases (Cache.memo_empty _).symm.trans hdone
  | 1, rfl =>
    refine resolvesOnly_of_vars (fun {n x} hget => ?_) road known first
    rcases var_crossing hget with ⟨rfl, rfl⟩ | ⟨rfl, rfl⟩
    · exact hpresent 1
    · exact hroads

theorem run_refines_crossing :
    crossingBatch.Built ∧ crossingBatch.topologicalOrder = .ok ["roads", "towns"] ∧
    (∀ i body, crossingBatch.bodyOf i = some body → ∃ q, body = .query q ∧ q.Before 0) ∧
    (∀ i q, crossingBatch.bodyOf i = some (.query q) →
      q.functions.Uniform 0 fun _ => True) ∧
    (∀ x v, (opening true).get x = some v → v.Before 0) ∧
    crossingBatch.Declared road ["roads", "towns"] (opening true) {} ∧
    ∃ env₁ supply₁ history b,
      crossingBatch.oneByOne road ["roads", "towns"] (opening true) {} = .ok (env₁, supply₁) ∧
      RunUnder crossingBatch (evaluating crossingBatch road (opening true)) (opening true)
        { handles := 7 } history b ∧ Silent history ∧ b.tasks = [] ∧
      (b.conclude crossingBatch.emptied).report.result = .ok () ∧
      (b.conclude crossingBatch.emptied).env.Same env₁ := by
  have hordered : crossingBatch.topologicalOrder = .ok ["roads", "towns"] := by decide +kernel
  have hbefore : ∀ x v, (opening true).get x = some v → v.Before 0 := fun x v h => by
    rw [(get_opening h).2]
    exact .simple (.bool true)
  have hevaluated : (crossingBatch.oneByOne road ["roads", "towns"] (opening true) {}).isOk := by
    decide +kernel
  obtain ⟨history, b, hsilent, hrun, hended, -⟩ := schedule_eq_conclude_under
    built_crossingBatch.wellFormed road
    (unbroken_evaluating built_crossingBatch.wellFormed road (opening true) { handles := 7 })
    hordered
  have hrest := queued_eq_nil_iff.1 hended
  cases hsequential : crossingBatch.oneByOne road ["roads", "towns"] (opening true) {} with
  | error e =>
    rw [hsequential] at hevaluated
    cases hevaluated
  | ok r =>
    obtain ⟨env₁, supply₁⟩ := r
    obtain ⟨-, -, hresult⟩ := run_refines built_crossingBatch hordered queries_crossingBatch
      uniform_crossingBatch hbefore (Nat.zero_le _) declared_crossingBatch hsequential
      { handles := 7 } history b (Nat.zero_le _) hrun hsilent
    obtain ⟨hsucceeded, -, hsame, -⟩ := hresult hrest
    exact ⟨built_crossingBatch, hordered, queries_crossingBatch, uniform_crossingBatch, hbefore,
      declared_crossingBatch, env₁, supply₁, history, b, rfl, hrun, hsilent, hrest, hsucceeded,
      hsame⟩

/-! ## Functions that answer otherwise each time -/

/-- Answers how many calls there were before. -/
def counting : FunctionLibrary where
  call n _ _ := .ok (.int n)

/-- Answers the serial of the first state of an automaton. -/
def telling : FunctionLibrary where
  call _ _ args :=
    match args with
    | [.automaton _ a] => .ok (.int ((a.states[0]?.map (·.serial)).getD 0))
    | _ => .ok .null

/-- The roads, and what a function answers when it is told about them. -/
def roadCall : SyntaxGraph where
  nodes := #[some (.simplePath .outgoing [⟨"road", false⟩] [] none), some (.call "ask" [0])]

/-- Two queries that know nothing of each other. -/
def callers (functions : FunctionLibrary) : DependencyGraph where
  nodes := #[
    { name := "north", body := some (.query { nodes := roadCall, root := 1, functions }) },
    { name := "south", body := some (.query { nodes := roadCall, root := 1, functions }) }]

/-- The queries can be evaluated one after the other, but two interleavings that do not fail end
with different results. -/
structure Ambiguous (dag : DependencyGraph) (names : List String) : Prop where
  built : dag.Built
  ordered : dag.topologicalOrder = .ok names
  queries : ∀ i body, dag.bodyOf i = some body → ∃ q, body = .query q ∧ q.Before 0
  declared : dag.Declared {} names {} {}
  sequential : (dag.oneByOne {} names {} {}).isOk
  differ : ∃ history b history' b',
    RunUnder dag (evaluating dag {} {}) {} {} history b ∧ Silent history ∧
    RunUnder dag (evaluating dag {} {}) {} {} history' b' ∧ Silent history' ∧
    (b.tasks = [] ∧ b.failure = none) ∧ (b'.tasks = [] ∧ b'.failure = none) ∧
    ¬ (b.conclude dag.emptied).env.Same (b'.conclude dag.emptied).env

theorem built_callers (functions : FunctionLibrary) : (callers functions).Built := by
  have hnorth := DependencyGraph.Built.empty.addQuery "north"
    (.query { nodes := roadCall, root := 1, functions }) rfl
  exact hnorth.addQuery "south" (.query { nodes := roadCall, root := 1, functions }) rfl

theorem body_callers {functions : FunctionLibrary} {i : Nat} {body : Body}
    (h : (callers functions).bodyOf i = some body) :
    body = .query { nodes := roadCall, root := 1, functions } := by
  match i, h with
  | 0, rfl => rfl
  | 1, rfl => rfl

theorem get_roadCall {n : NodeId} {node : Node} (h : roadCall.get n = .ok node) :
    node = .simplePath .outgoing [⟨"road", false⟩] [] none ∨ node = .call "ask" [0] := by
  simpa [roadCall] using SyntaxGraph.mem_of_get h

/-- The functions have no part in the order. -/
theorem emptied_callers (functions : FunctionLibrary) :
    (callers functions).emptied = (callers .builtin).emptied := by
  simp [callers, DependencyGraph.emptied]

theorem sorted_callers (functions : FunctionLibrary) :
    (callers functions).topologicalOrder = .ok ["north", "south"] := by
  rw [← DependencyGraph.topologicalOrder_emptied, emptied_callers]
  decide +kernel

theorem roots_callers (functions : FunctionLibrary) :
    DependencyGraph.roots (callers functions).indegrees = [0, 1] := by
  rw [← DependencyGraph.indegrees_emptied, emptied_callers]
  decide +kernel

/-- Two queries that depend on nothing can be run in either order. -/
theorem RunUnder.inTurn {conduct : Conduct} (hw : dag.WellFormed)
    (hunbroken : conduct.Unbroken dag g env supply)
    (hi : i ∈ DependencyGraph.roots dag.indegrees) (hj : j ∈ DependencyGraph.roots dag.indegrees)
    (hother : j ≠ i) :
    ∃ history, Silent history ∧ RunUnder dag conduct env supply history
      (((initial dag env supply).launch.runTask dag g i).runTask dag g j) := by
  have hstart : RunUnder dag conduct env supply
      ((initial dag env supply).launch.queued.map .handedOut) (initial dag env supply).launch :=
    .launch
  have hsilent : Silent ((initial dag env supply).launch.queued.map .handedOut) := by simp [Silent]
  obtain ⟨first, hfirst, hrun, hleaves, -⟩ :=
    hstart.runTask hw hunbroken ((phaseOf_launch i).trans (if_pos hi))
  -- What the first query does at its end leaves the other one in the queue.
  have hqueued : ((initial dag env supply).launch.runTask dag g i).phaseOf j = some .queued := by
    rcases hleaves.others j hother with hsame | ⟨-, hqueued⟩
    · exact hsame.trans ((phaseOf_launch j).trans (if_pos hj))
    · exact hqueued
  obtain ⟨second, hsecond, hrun, -, -⟩ := hrun.runTask hw hunbroken hqueued
  exact ⟨_, (hsilent.append hfirst).append hsecond, hrun⟩

/-- The number that was published under a name. -/
def numberUnder (b : Batch) (name : String) : Option Int :=
  match b.env.get name with
  | some (.int n) => some n
  | _ => none

theorem get_of_numberUnder {name : String} {n : Int} (h : b.numberUnder name = some n) :
    b.env.get name = some (.int n) := by
  unfold numberUnder at h
  split at h
  next m hfound => rw [hfound, Option.some.inj h]
  next => cases h

theorem not_same_of_numberUnder {name : String} {m n : Int} (h : b.numberUnder name = some m)
    (h' : b'.numberUnder name = some n) (hne : m ≠ n) : ¬ b.env.Same b'.env := by
  intro hsame
  have hcontents := hsame name
  rw [get_of_numberUnder h, get_of_numberUnder h'] at hcontents
  exact hne (by simpa [Value.content] using hcontents)

/-- The batch after the query `i`, then the query `j`. -/
def callersAfter (functions : FunctionLibrary) (i j : Nat) : Batch :=
  ((initial (callers functions) {} {}).launch.runTask (callers functions) {} i).runTask
    (callers functions) {} j

theorem ambiguous_callers {functions : FunctionLibrary} {m n : Int}
    (hsequential : ((callers functions).oneByOne {} ["north", "south"] {} {}).isOk)
    (hended : (callersAfter functions 0 1).queued = [])
    (hended' : (callersAfter functions 1 0).queued = [])
    (hintact : (callersAfter functions 0 1).failure = none)
    (hintact' : (callersAfter functions 1 0).failure = none)
    (hfound : (callersAfter functions 0 1).numberUnder "north" = some m)
    (hfound' : (callersAfter functions 1 0).numberUnder "north" = some n) (hne : m ≠ n) :
    Ambiguous (callers functions) ["north", "south"] where
  built := built_callers functions
  ordered := sorted_callers functions
  queries i body h := by
    refine ⟨_, body_callers h, ?_, ?_, ?_⟩
    · exact fun {n v} hdone => by cases (Cache.memo_empty n).symm.trans hdone
    · exact fun hframe => absurd hframe List.not_mem_nil
    · exact fun hget => by rcases get_roadCall hget with hsame | hsame <;> cases hsame
  declared earlier name later i q known first _ _ hbody _ := by
    obtain rfl := Body.query.inj (body_callers hbody)
    exact Query.resolvesOnly_of_vars
      (fun hget => by rcases get_roadCall hget with hsame | hsame <;> cases hsame) _ _ _
  sequential := hsequential
  differ := by
    have hw := (built_callers functions).wellFormed
    have hunbroken := unbroken_evaluating hw {} {} {}
    have hnorth : 0 ∈ DependencyGraph.roots (callers functions).indegrees := by
      simp [roots_callers]
    have hsouth : 1 ∈ DependencyGraph.roots (callers functions).indegrees := by
      simp [roots_callers]
    obtain ⟨history, hsilent, hrun⟩ := RunUnder.inTurn hw hunbroken hnorth hsouth (by decide)
    obtain ⟨history', hsilent', hrun'⟩ := RunUnder.inTurn hw hunbroken hsouth hnorth (by decide)
    exact ⟨history, _, history', _, hrun, hsilent, hrun', hsilent',
      ⟨queued_eq_nil_iff.1 hended, hintact⟩, ⟨queued_eq_nil_iff.1 hended', hintact'⟩,
      not_same_of_numberUnder hfound hfound' hne⟩

/-- A batch of one query, which answers at once. -/
def planned : DependencyGraph where
  nodes := #[{ name := "plan"
               body := some (.query { nodes := ⟨#[some (.literal (.bool true))]⟩, root := 0 }) }]

/-- If the functions count their calls, or tell serials, the results differ from interleaving to
interleaving.  And a query that can be evaluated fails nevertheless if its name was taken. -/
theorem counting_interleavings_differ :
    Ambiguous (callers counting) ["north", "south"] ∧
    Ambiguous (callers telling) ["north", "south"] ∧
    planned.Built ∧ planned.topologicalOrder = .ok ["plan"] ∧
      (∀ q, planned.bodyOf 0 = some (.query q) → (q.run {} ⟨[("plan", .null)]⟩ {}).1.isOk) ∧
      ∃ history b, RunUnder planned (evaluating planned {} ⟨[("plan", .null)]⟩)
          ⟨[("plan", .null)]⟩ {} history b ∧ Silent history ∧ b.tasks = [] ∧
        b.failure = some (.queryFailed "plan" (.duplicateResult "plan")) := by
  have hcounting : Ambiguous (callers counting) ["north", "south"] :=
    ambiguous_callers (m := 0) (n := 1) (by decide +kernel) (by decide +kernel) (by decide +kernel)
      (by decide +kernel) (by decide +kernel) (by decide +kernel) (by decide +kernel) (by decide)
  have htelling : Ambiguous (callers telling) ["north", "south"] :=
    ambiguous_callers (m := 0) (n := 2) (by decide +kernel) (by decide +kernel) (by decide +kernel)
      (by decide +kernel) (by decide +kernel) (by decide +kernel) (by decide +kernel) (by decide)
  have hbuilt : planned.Built := .addQuery "plan" _ .empty rfl
  have hsorted : planned.topologicalOrder = .ok ["plan"] := by decide +kernel
  obtain ⟨history, b, hsilent, hrun, hended, hsame⟩ := schedule_eq_conclude_under
    hbuilt.wellFormed {} (unbroken_evaluating hbuilt.wellFormed {} ⟨[("plan", .null)]⟩ {}) hsorted
  have hfailed : (schedule planned {} ⟨[("plan", .null)]⟩ {}).report.failure =
      some (.queryFailed "plan" (.duplicateResult "plan")) := by decide +kernel
  rw [hsame] at hfailed
  refine ⟨hcounting, htelling, hbuilt, hsorted, ?_, history, b, hrun, hsilent,
    queued_eq_nil_iff.1 hended, hfailed⟩
  rintro q ⟨⟩
  decide +kernel

end Batch
end PathQuery

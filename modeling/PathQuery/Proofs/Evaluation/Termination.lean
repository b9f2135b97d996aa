import PathQuery.Proofs.Evaluation.Cycles
import PathQuery.Proofs.Evaluation.Queries
import PathQuery.Proofs.Path.Bounded

/-!
# Evaluations end

A rule marks its node as being computed, and a node that is being computed is not started again.  So
the rules that are under way belong to different nodes, whatever guards ask for in the middle of a
traversal and however often they forget results.

* `Evaluation.nested`: an evaluation in which no more than so many rules may be under way;
* `Evaluation.Tidy`: the automata that come from outside are well-formed;
* `nested_behaves`: as many rules as there are nodes that are not being computed are enough;
* `nested_mirrors`: where the bound is not reached, it changes nothing;
* `Evaluation.UnderWay`: nodes that are being computed, each of which leaves one rule less to start;
* `resultWithin_corresponds`: with calls enough for the others it does not matter how many there are;
* `Evaluation.Ended`: how an evaluation ends, and in which workspace;
* `result_settles`: every evaluation ends, with a value or an error, and no bound in it is reached.
-/

namespace PathQuery

/-- Every call ends by itself, be it in a panic. -/
def FunctionLibrary.Ends (functions : FunctionLibrary) : Prop :=
  ∀ k name args, functions.call k name args ≠ .error .exhausted

theorem FunctionLibrary.builtin_error {k : Nat} {name : String} {args : List Value}
    {failure : Failure} (h : builtin.call k name args = .error failure) :
    ∃ e, failure = .error e := by
  simp only [builtin] at h
  split at h
  · cases h
  · rename_i e _
    cases h
    exact ⟨e, rfl⟩

theorem FunctionLibrary.ends_builtin : builtin.Ends := by
  intro k name args hcall
  rcases builtin_error hcall with ⟨e, he⟩
  cases he

namespace Evaluation

open Eval

/-! ## Evaluations with a bound on the rules -/

/-- The value of a node without any rule: what is known, and an error if the node is missing or is
being computed.  Where a rule would have to be started, the bound is reached. -/
def remembered (scope : Scope) (id : NodeId) : Eval Value := do
  let _ ← Eval.ofExcept (scope.nodes.get id)
  let known ← modifyGet fun w =>
    let (known, cache) := w.cache.begin id
    (known, { w with cache })
  match ← Eval.ofExcept known with
  | some value => pure value
  | none => throwThe Failure .exhausted

/-- The value of a node, with a bound on the rules that are under way at the same time. -/
def nested (scope : Scope) : Nat → NodeId → Eval Value
  | 0 => remembered scope
  | depth + 1 => step scope (nested scope depth)

variable {scope : Scope} {id : NodeId} {w : Workspace}

theorem remembered_apply {node : Node} (hget : scope.nodes.get id = .ok node) (w : Workspace) :
    remembered scope id w =
      match w.cache.memo id with
      | .done v => (.ok v, { w with cache := w.cache.extend id })
      | .inProgress =>
        (.error (.error (.cyclicEvaluation id)), { w with cache := w.cache.extend id })
      | .uninitialized => (.error .exhausted, { w with cache := w.cache.start id }) := by
  unfold remembered
  rw [hget, ofExcept_ok_bind]
  refine (modifyGet_bind_apply _ _ w).trans ?_
  rw [Cache.begin]
  cases w.cache.memo id <;> rfl

/-- Where no rule is started, the rules do not matter. -/
theorem remembered_eq_step {result : NodeId → Eval Value}
    (h : ∀ node, scope.nodes.get id = .ok node → w.cache.memo id ≠ .uninitialized) :
    remembered scope id w = step scope result id w := by
  cases hget : scope.nodes.get id with
  | error e =>
    rw [step_of_error hget]
    unfold remembered
    rw [hget]
    rfl
  | ok node =>
    rw [remembered_apply hget, step_apply hget]
    cases hmemo : w.cache.memo id with
    | done v => rfl
    | inProgress => rfl
    | uninitialized => exact absurd hmemo (h node hget)

/-! ## How many rules are under way -/

/-- The functions are the built-in ones, and the automata that come from outside are well-formed.
So are all that are built and get no initial state that they do not have. -/
structure Tidy (scope : Scope) (w : Workspace) : Prop where
  functions_eq : scope.functions = .builtin
  literal {n : NodeId} {h : Nat} {a : Automaton} :
    scope.nodes.get n = .ok (.literal (.automaton h a)) → a.WellFormed
  shared {x : String} {h : Nat} {a : Automaton} :
    scope.shared.bind (·.get x) = some (.automaton h a) → a.WellFormed
  bound {x : String} {h : Nat} {a : Automaton} :
    (x, .automaton h a) ∈ w.bindings.frames → a.WellFormed
  known {n : NodeId} {h : Nat} {a : Automaton} :
    w.cache.memo n = .done (.automaton h a) → a.WellFormed

section Conduct

variable (hfunctions : scope.functions.Ends) (w)

/-- No evaluation is exhausted, and none panics if the automata from outside are well-formed.  To
which nodes they refer does not matter. -/
def settling : Conduct scope where
  outside _ := True
  reaches _ _ := True
  asks _ _ := True
  sound := Tidy scope w
  admits _ failure := failure ≠ .exhausted ∧ (Tidy scope w → ∃ e, failure = .error e)
  reaches_of_outside _ := trivial
  reaches_of_asks _ := trivial
  asks_child _ _ := trivial
  asks_of_reaches _ _ := trivial
  admits_of_asks _ hadmits := hadmits
  admits_cyclic _ := ⟨nofun, fun _ => ⟨_, rfl⟩⟩
  admits_error _ := ⟨nofun, fun _ => ⟨_, rfl⟩⟩
  admits_panic hsound := ⟨nofun, fun htidy => absurd htidy hsound⟩
  literal {_ v} _ hget := by
    refine ⟨v.within_univ, ?_⟩
    rintro h a rfl htidy
    exact htidy.literal hget
  shared {_ _ v} _ _ hx := by
    refine ⟨v.within_univ, ?_⟩
    rintro h a rfl htidy
    exact htidy.shared hx
  call {_ _ _ _ v} _ hcall := by
    refine ⟨v.within_univ, ?_⟩
    rintro h a rfl htidy
    rw [htidy.functions_eq] at hcall
    exact absurd (FunctionLibrary.isSimple_of_builtin hcall) (Value.not_isSimple_automaton h a)
  admits_call {_ _ _ _ failure} hcall := by
    refine ⟨?_, fun htidy => ?_⟩
    · rintro rfl
      exact hfunctions _ _ _ hcall
    · rw [htidy.functions_eq] at hcall
      exact FunctionLibrary.builtin_error hcall

theorem held_settling : w.Held (settling w hfunctions) (fun n => w.cache.memo n = .inProgress)
    w.bindings where
  bindings_eq := rfl
  bound {frame} hframe := by
    refine ⟨frame.2.within_univ, ?_⟩
    rintro h a heq htidy
    have hbound : (frame.1, Value.automaton h a) ∈ w.bindings.frames := heq ▸ hframe
    exact htidy.bound hbound
  busy_iff := .rfl
  known {_ v} hdone := by
    refine ⟨v.within_univ, ?_⟩
    rintro h a rfl htidy
    exact htidy.known hdone

variable {w} {hfunctions} {busy : NodeId → Prop}

theorem remembered_behaves (hbusy : ∀ node, scope.nodes.get id = .ok node → busy id) :
    Behaves (settling w hfunctions) busy id (Value.Fits (Tidy scope w) fun _ => True)
      (remembered scope id) := by
  have hstep : Behaves (settling w hfunctions) busy id (Value.Fits (Tidy scope w) fun _ => True)
      (step scope (fun _ => throwThe Failure .exhausted) id) :=
    step_behaves trivial (fun _ _ => trivial) fun node hget hnot => absurd (hbusy node hget) hnot
  intro β w₁ hw₁
  have hstarted : ∀ node, scope.nodes.get id = .ok node → w₁.cache.memo id ≠ .uninitialized := by
    intro node hget hmemo
    rw [hw₁.busy_iff.2 (hbusy node hget)] at hmemo
    cases hmemo
  unfold Ensures
  rw [remembered_eq_step hstarted]
  exact hstep β w₁ hw₁

/-- The nodes that may still be started are counted: with each rule there is one less. -/
theorem nested_behaves {depth : Nat} {remaining : Finset NodeId}
    (hremaining : ∀ n, n < scope.nodes.size → busy n ∨ n ∈ remaining)
    (hcard : remaining.card ≤ depth) :
    Behaves (settling w hfunctions) busy id (Value.Fits (Tidy scope w) fun _ => True)
      (nested scope depth id) := by
  induction depth generalizing id busy remaining with
  | zero =>
    -- All nodes that exist are being computed, so no rule is started.
    have hempty : remaining = ∅ := Finset.card_eq_zero.1 (Nat.le_zero.1 hcard)
    refine remembered_behaves fun node hget => ?_
    rcases hremaining id (SyntaxGraph.lt_size_of_get hget) with hbusy | hmem
    · exact hbusy
    · rw [hempty] at hmem
      cases hmem
  | succ depth ih =>
    refine step_behaves trivial (fun _ _ => trivial) ?_
    intro node hget hid c _
    -- The node is started, and what it asks for finds it in progress.
    have hmem : id ∈ remaining := (hremaining id (SyntaxGraph.lt_size_of_get hget)).resolve_left hid
    have hless : (remaining.erase id).card ≤ depth := by
      have := Finset.card_erase_lt_of_mem hmem
      omega
    refine asked_of_behaves trivial (ih ?_ hless)
    intro n hn
    by_cases heq : n = id
    · exact .inl (.inl heq)
    · exact (hremaining n hn).imp .inr fun hmem => Finset.mem_erase.2 ⟨heq, hmem⟩

end Conduct

/-- Different nodes, all of which are being computed. -/
structure UnderWay (nodes : SyntaxGraph) (above : List NodeId) (w : Workspace) : Prop where
  nodup : above.Nodup
  lt_size {n : NodeId} : n ∈ above → n < nodes.size
  inProgress {n : NodeId} : n ∈ above → w.cache.memo n = .inProgress

namespace UnderWay

variable {nodes : SyntaxGraph} {above : List NodeId}

theorem nil (w : Workspace) : UnderWay nodes [] w :=
  ⟨List.nodup_nil, nofun, nofun⟩

theorem card_waiting (h : UnderWay nodes above w) :
    (Finset.range nodes.size \ above.toFinset).card + above.length = nodes.size := by
  have hsub : above.toFinset ⊆ Finset.range nodes.size := fun n hn =>
    Finset.mem_range.2 (h.lt_size (List.mem_toFinset.1 hn))
  rw [← List.toFinset_card_of_nodup h.nodup, Finset.card_sdiff_add_card_eq_card hsub,
    Finset.card_range]

theorem length_le (h : UnderWay nodes above w) : above.length ≤ nodes.size := by
  have := h.card_waiting
  omega

end UnderWay

/-! ## The bound changes nothing -/

/-- Any number of calls may be nested, as long as it is greater than the number of rules. -/
theorem nested_mirrors (scope : Scope) {depth calls : Nat} (h : depth < calls) :
    Children (.equality fun _ => True) (· = .exhausted) (nested scope depth)
      (resultWithin scope calls) := by
  have hprepared := prepared_univ scope (· = .exhausted)
  induction depth generalizing calls with
  | zero =>
    obtain ⟨calls, rfl⟩ := Nat.exists_eq_succ_of_ne_zero (Nat.ne_of_gt h)
    intro β β' c hβ hc w w' hw
    by_cases hstarts : ∃ node, scope.nodes.get c = .ok node ∧ w.cache.memo c = .uninitialized
    -- The bound is reached, and nothing is said.
    · rcases hstarts with ⟨node, hget, hmemo⟩
      rw [nested, remembered_apply hget, hmemo]
      exact .inl rfl
    · have hremembered : remembered scope c w = step scope (resultWithin scope calls) c w :=
        remembered_eq_step fun node hget hmemo => hstarts ⟨node, hget, hmemo⟩
      rw [nested, hremembered]
      exact step_mirrors (resultWithin_mirrors hprepared calls) hprepared hβ hc w w' hw
  | succ depth ih =>
    obtain ⟨calls, rfl⟩ := Nat.exists_eq_succ_of_ne_zero (Nat.ne_zero_of_lt h)
    intro β β' c hβ hc
    exact step_mirrors (ih (Nat.lt_of_succ_lt_succ h)) hprepared hβ hc

/-! ## How evaluations end -/

/-- How an evaluation that started in the first workspace has ended. -/
structure Ended (scope : Scope) (w : Workspace) (outcome : Except Failure Value)
    (w₁ : Workspace) : Prop where
  ne_exhausted : outcome ≠ .error .exhausted
  orderly : Tidy scope w → Orderly outcome
  wellFormed {h : Nat} {a : Automaton} : Tidy scope w → outcome = .ok (.automaton h a) →
    a.WellFormed
  tidy : Tidy scope w → Tidy scope w₁

section Ends

variable {w₁ : Workspace} {hfunctions : scope.functions.Ends}

theorem Tidy.of_held (htidy : Tidy scope w) {busy : NodeId → Prop}
    (h : w₁.Held (settling w hfunctions) busy w.bindings) : Tidy scope w₁ where
  functions_eq := htidy.functions_eq
  literal := htidy.literal
  shared := htidy.shared
  bound hframe := htidy.bound (h.bindings_eq ▸ hframe)
  known hdone := (h.known hdone).wellFormed rfl htidy

theorem Tidy.of_corresponds (htidy : Tidy scope w) {β : Bindings}
    (h : w.Corresponds (.equality fun _ => True) β β w₁) : Tidy scope w₁ where
  functions_eq := htidy.functions_eq
  literal := htidy.literal
  shared := htidy.shared
  bound hframe := by
    rw [h.bindings_eq', ← h.bindings_eq] at hframe
    exact htidy.bound hframe
  known {n _ _} hdone := by
    have hmemo := h.cache n trivial
    rw [hdone] at hmemo
    cases hknown : w.cache.memo n with
    | done v =>
      rw [hknown] at hmemo
      cases hmemo with
      | done hv =>
        rw [hv.eq_of_exact trivial] at hknown
        exact htidy.known hknown
    | _ =>
      rw [hknown] at hmemo
      cases hmemo

variable (hfunctions)

/-- As many rules as there are nodes that are not being computed yet. -/
theorem nested_ends {depth : Nat} {above : List NodeId} (hunder : UnderWay scope.nodes above w)
    (hdepth : scope.nodes.size ≤ depth + above.length) (id : NodeId) :
    (nested scope depth id).Ensures w
      (fun v w₁ => w₁.Held (settling w hfunctions) (fun n => w.cache.memo n = .inProgress)
        w.bindings ∧ v.Fits (Tidy scope w) fun _ => True)
      fun failure w₁ => w₁.Broken (settling w hfunctions) (fun n => w.cache.memo n = .inProgress)
        w.bindings id failure := by
  have hcard : (Finset.range scope.nodes.size \ above.toFinset).card ≤ depth := by
    have := hunder.card_waiting
    omega
  refine nested_behaves (fun n hn => ?_) hcard w.bindings w (held_settling w hfunctions)
  by_cases habove : n ∈ above
  · exact .inl (hunder.inProgress habove)
  · refine .inr (Finset.mem_sdiff.2 ⟨Finset.mem_range.2 hn, ?_⟩)
    rwa [List.mem_toFinset]

include hfunctions

/-- The two evaluations are compared in the workspace in which both start. -/
theorem nested_corresponds {depth calls : Nat} {above : List NodeId}
    (hunder : UnderWay scope.nodes above w) (hdepth : scope.nodes.size ≤ depth + above.length)
    (hcalls : depth < calls) (id : NodeId) :
    (nested scope depth id w).1 = (resultWithin scope calls id w).1 ∧
      (Orderly (nested scope depth id w).1 →
        (nested scope depth id w).2.Corresponds (.equality fun _ => True) w.bindings w.bindings
          (resultWithin scope calls id w).2) := by
  have hends := nested_ends hfunctions hunder hdepth id
  have hβ : w.bindings.Corresponds (.equality fun _ => True) w.bindings :=
    Bindings.corresponds_self fun frame _ => frame.2.within_univ
  have hmirrors := nested_mirrors scope hcalls hβ (c := id) trivial w w w.corresponds_self
  unfold Ensures at hends
  rcases hx : nested scope depth id w with ⟨failure | v, w₁⟩
  · rw [hx] at hends hmirrors
    rcases hmirrors with hexhausted | ⟨w₂, hy, hkept⟩
    · exact absurd hexhausted hends.admitted.1
    · rw [hy]
      refine ⟨rfl, fun horderly => ?_⟩
      rcases horderly failure rfl with ⟨e, rfl⟩
      exact hkept e rfl
  · rw [hx] at hmirrors
    rcases hmirrors with ⟨v', w₂, hy, hw₂, hv⟩
    obtain rfl := hv.eq_of_exact trivial
    rw [hy]
    exact ⟨rfl, fun _ => hw₂⟩

theorem nested_settles {depth calls : Nat} (hdepth : scope.nodes.size ≤ depth)
    (hcalls : depth < calls) (id : NodeId) (w : Workspace) :
    (nested scope depth id w).1 = (resultWithin scope calls id w).1 ∧
      Ended scope w (resultWithin scope calls id w).1 (resultWithin scope calls id w).2 := by
  have hends := nested_ends hfunctions (.nil w) hdepth id
  obtain ⟨houtcome, hcorresponds⟩ := nested_corresponds hfunctions (.nil w) hdepth hcalls id
  refine ⟨houtcome, ?_⟩
  rw [← houtcome]
  unfold Ensures at hends
  rcases hx : nested scope depth id w with ⟨failure | v, w₁⟩
  · rw [hx] at hends hcorresponds
    refine ⟨fun heq => hends.admitted.1 (Except.error.inj heq), ?_, nofun, ?_⟩
    · rintro htidy _ ⟨⟩
      exact hends.admitted.2 htidy
    · intro htidy
      rcases hends.admitted.2 htidy with ⟨e, rfl⟩
      refine (htidy.of_held (hends.held rfl)).of_corresponds (hcorresponds ?_)
      rintro _ ⟨⟩
      exact ⟨e, rfl⟩
  · rw [hx] at hends hcorresponds
    refine ⟨nofun, fun _ => nofun, ?_, ?_⟩
    · intro h a htidy heq
      exact hends.2.wellFormed (Except.ok.inj heq) htidy
    · exact fun htidy => (htidy.of_held hends.1).of_corresponds (hcorresponds nofun)

/-- Where there are calls enough for the nodes that are not being computed yet, it does not matter
how many there are. -/
theorem resultWithin_corresponds {calls calls' : Nat} {above : List NodeId}
    (hunder : UnderWay scope.nodes above w) (hcalls : scope.nodes.size < calls + above.length)
    (hcalls' : scope.nodes.size < calls' + above.length) (id : NodeId) :
    (resultWithin scope calls id w).1 = (resultWithin scope calls' id w).1 ∧
      (Orderly (resultWithin scope calls id w).1 →
        (resultWithin scope calls id w).2.Corresponds (.equality fun _ => True) w.bindings
          w.bindings (resultWithin scope calls' id w).2) := by
  have hlength := hunder.length_le
  have hdepth : scope.nodes.size ≤ scope.nodes.size - above.length + above.length := by omega
  obtain ⟨houtcome, hkept⟩ :=
    nested_corresponds hfunctions hunder hdepth (show _ < calls by omega) id
  obtain ⟨houtcome', hkept'⟩ :=
    nested_corresponds hfunctions hunder hdepth (show _ < calls' by omega) id
  refine ⟨houtcome.symm.trans houtcome', fun horderly => ?_⟩
  rw [← houtcome] at horderly
  exact (hkept horderly).symm_trans (fun _ _ => trivial) (hkept' horderly)

end Ends

/-- Every evaluation ends by itself: never are more rules under way than there are nodes, and more
calls, more expansions and more rounds than the evaluation allows itself lead to the same.  If the
automata from outside are well-formed, it ends with a value or an error, and all automata that are
known or answered are well-formed again. -/
theorem result_settles (hfunctions : scope.functions.Ends) (id : NodeId) (w : Workspace) :
    Ended scope w (result scope id w).1 (result scope id w).2 ∧
      (∀ depth, scope.nodes.size ≤ depth →
        (nested scope depth id w).1 = (result scope id w).1) ∧
      (∀ calls, scope.nodes.size < calls →
        (resultWithin scope calls id w).1 = (result scope id w).1) ∧
      (scope.graph.Constructed → ∀ a : Automaton, a.Indexed →
        ∀ bound, scope.graph.vertexCount * a.stateCount ≤ bound → ∀ accepts start,
          Traversal.traverseWithin bound accepts scope.limits a scope.graph start =
            Traversal.traverse accepts scope.limits a scope.graph start) ∧
      ∀ root rounds, scope.nodes.size ≤ rounds →
        reachableFrom scope.nodes.childrenOf rounds root = Cache.below scope.nodes root := by
  have hleast : ∀ calls, scope.nodes.size < calls →
      (nested scope scope.nodes.size id w).1 = (resultWithin scope calls id w).1 :=
    fun calls hcalls => (nested_settles hfunctions (Nat.le_refl _) hcalls id w).1
  have hresult : (nested scope scope.nodes.size id w).1 = (result scope id w).1 :=
    hleast _ (Nat.lt_succ_self _)
  refine ⟨?_, ?_, ?_, ?_, ?_⟩
  · exact (nested_settles hfunctions (Nat.le_refl _) (Nat.lt_succ_self _) id w).2
  · intro depth hdepth
    calc (nested scope depth id w).1
        = (resultWithin scope (depth + 1) id w).1 :=
          (nested_settles hfunctions hdepth (Nat.lt_succ_self depth) id w).1
      _ = (nested scope scope.nodes.size id w).1 := (hleast _ (Nat.lt_succ_of_le hdepth)).symm
      _ = (result scope id w).1 := hresult
  · exact fun calls hcalls => (hleast calls hcalls).symm.trans hresult
  · exact fun hg a ha bound hbound accepts start =>
      Traversal.traverseWithin_eq hg.wellFormed ha hbound accepts scope.limits start
  · exact fun root rounds hrounds => Cache.reachableFrom_eq_below hrounds

theorem tidy_circling : Tidy circling {} where
  functions_eq := rfl
  literal {n h a} hget := by
    have hmem := SyntaxGraph.mem_of_get hget
    simp [circling] at hmem
  shared hx := by cases hx
  bound hframe := absurd hframe List.not_mem_nil
  known hdone := by
    rw [Cache.memo_empty] at hdone
    cases hdone

theorem result_settles_circling :
    Tidy circling {} ∧ Orderly (result circling 0 {}).1 ∧
      (nested circling 1 0 {}).1 = .error .exhausted ∧
      (nested circling 3 0 {}).1 = .error (.error (.cyclicEvaluation 0)) ∧
      (nested circling 3 0 {}).1 = (result circling 0 {}).1 := by
  have hfunctions : circling.functions.Ends := FunctionLibrary.ends_builtin
  rcases result_settles hfunctions 0 {} with ⟨hended, hnested, _⟩
  exact ⟨tidy_circling, hended.orderly tidy_circling, by decide +kernel, by decide +kernel,
    hnested 3 (Nat.le_refl 3)⟩

end Evaluation
end PathQuery

import PathQuery.Proofs.Evaluation.Provenance
import PathQuery.Proofs.Evaluation.Transparent

/-!
# All evaluations trace their values

* `Traceable`: what is known holds of all that a scope brings along;
* `accepts_traces`, `reachable_traces` and so on: tests of edges and traversals keep what is known
  if the nodes do that they ask for;
* `compileSequence_traces`, `compileAlternative_traces`, `compilePower_traces`: what is known of the
  serials of an automaton, from copies with serials of their own;
* `rule_traces`, `step_traces`, `result_traces`: then all values are known.
-/

namespace PathQuery
namespace Evaluation

open Eval

/-- In the region literals and results of other queries are known, and functions that are called
make nothing that is not.  A value is that of another node only if it is transposed or if a function
hands it on. -/
structure Traceable (P : Provenance) (scope : Scope) : Prop where
  literal {id : NodeId} {v : Value} : P.region id → scope.nodes.get id = .ok (.literal v) →
    ∀ s, P.value s v
  shared {id : NodeId} {x : String} {v : Value} : P.region id → scope.nodes.get id = .ok (.var x) →
    scope.shared.bind (·.get x) = some v → ∀ s, P.value s v
  transposed {id part : NodeId} : P.region id → scope.nodes.get id = .ok (.transposed part) →
    P.region part
  argument {id part : NodeId} {name : String} {parts : List NodeId} : P.region id →
    scope.nodes.get id = .ok (.call name parts) → part ∈ parts → P.region part
  call {id : NodeId} {s : Supply} {n : Nat} {name : String} {parts : List NodeId}
    {args : List Value} {v : Value} : P.region id → scope.nodes.get id = .ok (.call name parts) →
    (∀ arg ∈ args, P.value s arg) → scope.functions.call n name args = .ok v → P.value s v

variable {P : Provenance} {s : Supply} {scope : Scope} {result : NodeId → Eval Value} {known : Prop}

/-- The value of the node is known if the node is in the region. -/
abbrev ValueTraced (P : Provenance) (s : Supply) (id : NodeId) (x : Eval Value) : Prop :=
  Traces P s (fun t v => P.region id → P.value t v) x

section Rules

variable (hchildren : ∀ c t, ValueTraced P t c (result c))
include hchildren

/-! ## Guards and transitions -/

theorem evaluateGuard_traces (guard : Guard) (e : Incidence) :
    Traces P s (fun _ _ => True) (evaluateGuard scope result guard e) := by
  rcases guard with ⟨predicate, _ | x⟩
  · exact (hchildren predicate s).bind fun _ _ _ _ => .pure fun _ _ => trivial
  · intro w hw
    have hcondition := hchildren predicate w.supply _ (hw.entered scope.nodes predicate x e)
    unfold Ensures at hcondition ⊢
    rw [evaluateGuard_apply]
    rcases hx : result predicate (w.entered scope.nodes predicate x e) with ⟨failure | v, w₁⟩
    · rw [hx] at hcondition
      cases failure with
      | error error => exact hcondition.left
      | _ => exact hcondition
    · rw [hx] at hcondition
      exact ⟨hcondition.1.left, trivial⟩

theorem guardAccepts_traces (guard : Option Guard) (e : Incidence) :
    Traces P s (fun _ _ => True) (guardAccepts scope result guard e) := by
  cases guard with
  | none => exact .pure fun _ _ => trivial
  | some guard => exact evaluateGuard_traces hchildren guard e

theorem isRestrictedTo_traces (node : NodeId) (e : Incidence) :
    Traces P s (fun _ _ => True) (isRestrictedTo result node e) := by
  refine (hchildren node s).bind fun _ v _ _ => ?_
  split
  · exact .pure fun _ _ => trivial
  · exact .throw _

theorem accepts_traces (symbol : Symbol) (v : Nat) (e : Incidence) :
    Traces P s (fun _ _ => True) (accepts scope result symbol v e) := by
  cases symbol with
  | epsilon => exact .pure fun _ _ => trivial
  | step c =>
    simp only [accepts]
    split
    · exact guardAccepts_traces hchildren c.guard e
    · exact .pure fun _ _ => trivial
  | stepAlong c node =>
    simp only [accepts]
    split
    · refine (guardAccepts_traces hchildren c.guard e).bind fun _ accepted _ _ => ?_
      split
      · exact isRestrictedTo_traces hchildren node e
      · exact .pure fun _ _ => trivial
    · exact .pure fun _ _ => trivial

/-! ## Traversals -/

theorem takes_traces (t : Transition) (v : Nat) (e : Incidence) :
    (Traces.tracing P s).rel (takes scope result t v e) (takes scope result t v e) :=
  accepts_traces hchildren t.symbol v e

theorem reachable_traces (a : Automaton) (start : IdSet) :
    Traces P s (fun _ _ => True)
      (Traversal.reachable (takes scope result) scope.limits a scope.graph start) :=
  (Traces.tracing P s).reachable scope.limits scope.graph
    (fun t _ _ => takes_traces hchildren t) start

theorem connects_traces (a : Automaton) (start target : IdSet) :
    Traces P s (fun _ _ => True)
      (Traversal.connects (takes scope result) scope.limits a scope.graph start target) :=
  (Traces.tracing P s).connects scope.limits scope.graph
    (fun t _ _ => takes_traces hchildren t) start target

theorem pathSystem_traces (a : Automaton) (start : IdSet) :
    Traces P s (fun _ _ => True)
      (Traversal.pathSystem (takes scope result) scope.limits a scope.graph start) :=
  (Traces.tracing P s).pathSystem scope.limits scope.graph
    (fun t _ _ => takes_traces hchildren t) start

theorem vertexSetOf_traces (node : NodeId) (context : String) :
    Traces P s (fun _ _ => True) (vertexSetOf result node context) :=
  (hchildren node s).bind fun _ _ _ _ => .ofExcept fun _ _ _ _ => trivial

/-! ## Automata -/

/-- What is made of automata is known by its serials. -/
abbrev Traced (P : Provenance) (s : Supply) (x : Eval Automaton) : Prop :=
  Traces P s (fun t a => P.serials t.serials a.serials) x

theorem automatonOf_traces (path : NodeId) :
    Traces P s (fun t a => P.region path → P.serials t.serials a.serials)
      (automatonOf result path) :=
  (hchildren path s).bind fun _ _ _ hv => .ofExcept fun _ ha _ ht hpath =>
    P.serials_mono ht.serials_le (P.serials_of_toAutomaton (hv hpath) ha)

/-- The copy has serials of its own, whatever those of the child are. -/
theorem fragment_traces (path : NodeId) :
    Traces P s (fun t a => DrawnBetween [] s.serials t.serials a.serials)
      (fragment result path) :=
  (automatonOf_traces hchildren path).bind fun _ a ht _ =>
    (Traces.fresh_drawn a.draws_copy).mono fun _ _ _ hdrawn => hdrawn.since ht.serials_le

theorem fragment_traced (path : NodeId) : Traced P s (fragment result path) :=
  (fragment_traces hchildren path).mono fun _ _ _ hdrawn =>
    P.serials_of_drawn (P.serials_nil _) hdrawn

theorem compileSequence_traces (parts : List NodeId) :
    Traced P s (compileSequence result parts) := by
  refine (Traces.fresh Automaton.draws_epsilon (P.serials_nil _)).bind fun t empty _ hempty => ?_
  cases parts with
  | nil => exact .pure fun _ ht => P.serials_mono ht.serials_le hempty
  | cons first rest =>
    refine (fragment_traced hchildren first).bind fun t' a _ ha => .foldlM ?_ ?_ ?_
    · exact fun _ ht => P.serials_mono ht.serials_le ha
    · intro u acc part _ hacc
      -- The copy was made after all that there is so far.
      refine (fragment_traces hchildren part).bind fun u' b hu hb => .pure fun _ hu' => ?_
      rw [Automaton.serials_concat]
      exact P.serials_mono hu'.serials_le (P.serials_of_drawn hacc (hb.append _))
    · exact fun ht => P.serials_mono ht.serials_le

theorem compileAlternative_traces (id : NodeId) (parts : List NodeId) :
    Traced P s (compileAlternative result id parts) := by
  cases parts with
  | nil => exact .throw _
  | cons first rest =>
    refine (fragment_traced hchildren first).bind fun t' a _ ha => .foldlM ?_ ?_ ?_
    · exact fun _ ht => P.serials_mono ht.serials_le ha
    · intro u acc part _ hacc
      refine (fragment_traces hchildren part).bind fun u' b _ hb => ?_
      exact .fresh (acc.draws_union b) (P.serials_of_drawn hacc (hb.append _))
    · exact fun ht => P.serials_mono ht.serials_le

theorem compilePower_traces (id inner : NodeId) (count : Nat) :
    Traced P s (compilePower result id inner count) := by
  unfold compilePower
  split
  · exact .throw _
  · exact (automatonOf_traces hchildren inner).bind fun _ a _ _ =>
      .fresh (a.draws_power count) (P.serials_nil _)

/-- The reversed automaton keeps the serials, so it is known if the child is. -/
theorem transpose_traces (path : NodeId) :
    Traces P s (fun t a => P.region path → P.serials t.serials a.serials)
      (do fresh (← automatonOf result path).reverse) :=
  (automatonOf_traces hchildren path).bind fun _ a _ ha =>
    (Traces.fresh_drawn a.draws_reverse).mono fun _ _ _ hdrawn hpath =>
      P.serials_of_drawn (ha hpath) hdrawn

omit hchildren in
theorem publish_traces {x : Eval Automaton}
    (hx : Traces P s (fun t a => known → P.serials t.serials a.serials) x) :
    Traces P s (fun t v => known → P.value t v) (publishAutomaton x) := by
  refine hx.bind fun t a _ ha w hw => ?_
  have hpublished (hknown : known) :=
    P.automaton (s := w.supply) (P.serials_mono hw.precedes.serials_le (ha hknown))
  exact ⟨hw.later ⟨Nat.le_refl _, Nat.le_succ _, Nat.le_refl _⟩, hpublished⟩

omit hchildren in
theorem publishAutomaton_traces {x : Eval Automaton} (hx : Traced P s x) :
    Traces P s (fun t v => known → P.value t v) (publishAutomaton x) :=
  publish_traces (hx.mono fun _ _ _ ha _ => ha)

theorem pathSystemValue_traces (a : Automaton) (start : IdSet) :
    Traces P s (fun t v => known → P.value t v) (pathSystemValue scope result a start) := by
  refine (pathSystem_traces hchildren a start).bind fun t ps _ _ w hw => ?_
  exact ⟨hw.later ⟨Nat.le_refl _, Nat.le_succ _, Nat.le_refl _⟩, fun _ => P.pathSystem ps⟩

theorem reachableBackward_traces (a : Automaton) (target : IdSet) :
    Traces P s (fun _ _ => True) (reachableBackward scope result a target) :=
  (Traces.fresh_drawn a.draws_reverse).bind fun _ b _ _ => reachable_traces hchildren b target

/-! ## Logic, calls and variables -/

omit hchildren in
theorem pure_traces {v : Value} (hv : v.IsSimple) :
    Traces P s (fun t v => known → P.value t v) (Pure.pure v) :=
  .pure fun _ _ _ => P.simple hv

theorem logical_traces (decides unknown : Bool) (items : List NodeId) :
    Traces P s (fun t v => known → P.value t v) (logical result decides unknown items) := by
  induction items generalizing s unknown with
  | nil =>
    refine pure_traces ?_
    split
    · exact .null
    · exact .bool _
  | cons item items ih =>
    refine (hchildren item s).bind fun t v _ _ => ?_
    split
    · split
      · exact pure_traces (.bool decides)
      · exact ih unknown
    · exact ih true

theorem call_traces (hscope : Traceable P scope) {id : NodeId} {function : String}
    {parts : List NodeId} (hget : scope.nodes.get id = .ok (.call function parts)) :
    ValueTraced P s id (call scope result function parts) := by
  have hparts : ∀ c ∈ parts, ∀ t, Traces P t (fun t v => P.region id → P.value t v) (result c) :=
    fun c hc t => (hchildren c t).mono fun _ _ _ hv hid => hv (hscope.argument hid hget hc)
  refine (Traces.mapM hparts).bind fun t vs _ hvs => Traces.callNumber.bind fun t' n ht' _ => ?_
  cases hcall : scope.functions.call n function vs with
  | error failure => exact .throw failure
  | ok v =>
    refine .pure fun u hu hid => ?_
    have hargs : ∀ arg ∈ vs, P.value u arg :=
      fun arg harg => P.value_mono (ht'.trans hu) (hvs hid arg harg)
    exact hscope.call hid hget hargs hcall

omit hchildren in
theorem var_traces (hscope : Traceable P scope) {id : NodeId} {x : String}
    (hget : scope.nodes.get id = .ok (.var x)) :
    ValueTraced P s id (do ofExcept (lookup scope (← getBindings) x)) := by
  intro w hw
  -- What is bound is read from the workspace as it is.
  change (ofExcept (lookup scope w.bindings x)).Ensures w _ _
  have hlookup : ValueTraced P w.supply id (ofExcept (lookup scope w.bindings x)) := by
    refine .ofExcept fun v hv t ht hid => ?_
    unfold lookup at hv
    cases hbound : w.bindings.get x with
    | some u =>
      rw [hbound] at hv
      cases hv
      exact P.value_mono ht (hw.bound hbound)
    | none =>
      rw [hbound] at hv
      cases hshared : scope.shared.bind (·.get x) with
      | none =>
        rw [hshared] at hv
        cases hv
      | some u =>
        rw [hshared] at hv
        cases hv
        exact hscope.shared hid hget hshared t
  exact hlookup w hw.now

/-! ## All rules -/

theorem rule_traces (hscope : Traceable P scope) {id : NodeId} {node : Node}
    (hget : scope.nodes.get id = .ok node) : ValueTraced P s id (rule scope result id node) := by
  cases node with
  | literal v => exact .pure fun t _ hid => hscope.literal hid hget t
  | var name => exact var_traces hscope hget
  | attr c name =>
    exact (hchildren c s).bind fun _ v _ _ => .ofExcept fun u hu _ _ _ =>
      P.simple (.of_attributeOf hu)
  | compare op lhs rhs =>
    exact (hchildren lhs s).bind fun t v _ _ => (hchildren rhs t).bind fun _ w _ _ =>
      pure_traces (.compareValues op v w)
  | and items => exact logical_traces hchildren false false items
  | or items => exact logical_traces hchildren true false items
  | not c => exact (hchildren c s).bind fun _ v _ _ => pure_traces (.negate v)
  | call function args => exact call_traces hchildren hscope hget
  | vertices types => exact pure_traces (.vertexSet _)
  | simplePath direction types roles guard =>
    exact publishAutomaton_traces (.fresh (Automaton.draws_single _) (P.serials_nil _))
  | edgePath direction edge types roles guard =>
    exact publishAutomaton_traces (.fresh (Automaton.draws_single _) (P.serials_nil _))
  | sequence parts => exact publishAutomaton_traces (compileSequence_traces hchildren parts)
  | alternative parts =>
    exact publishAutomaton_traces (compileAlternative_traces hchildren id parts)
  | iterated c iteration =>
    cases iteration with
    | star =>
      exact publishAutomaton_traces ((fragment_traced hchildren c).bind fun _ a _ ha =>
        .fresh (a.draws_iterate true) ha)
    | plus =>
      exact publishAutomaton_traces ((fragment_traced hchildren c).bind fun _ a _ ha =>
        .fresh (a.draws_iterate false) ha)
  | optional c =>
    exact publishAutomaton_traces ((fragment_traced hchildren c).bind fun _ a _ ha =>
      .fresh a.draws_optional ha)
  | exponentiated c count =>
    exact publishAutomaton_traces (compilePower_traces hchildren id c count)
  | transposed c =>
    -- The one operation that keeps the serials of its operand.
    exact publish_traces ((transpose_traces hchildren c).mono fun _ _ _ ha hid =>
      ha (hscope.transposed hid hget))
  | forwardVertexSet start path =>
    exact (vertexSetOf_traces hchildren start _).bind fun _ origins _ _ =>
      (automatonOf_traces hchildren path).bind fun _ a _ _ =>
        (reachable_traces hchildren a origins).bind fun _ found _ _ =>
          pure_traces (.vertexSet found)
  | backwardVertexSet target path =>
    exact (vertexSetOf_traces hchildren target _).bind fun _ targets _ _ =>
      (automatonOf_traces hchildren path).bind fun _ a _ _ =>
        (reachableBackward_traces hchildren a targets).bind fun _ found _ _ =>
          pure_traces (.vertexSet found)
  | pathExistence start path target =>
    exact (vertexSetOf_traces hchildren start _).bind fun _ origins _ _ =>
      (vertexSetOf_traces hchildren target _).bind fun _ targets _ _ =>
        (automatonOf_traces hchildren path).bind fun _ a _ _ =>
          (connects_traces hchildren a origins targets).bind fun _ connected _ _ =>
            pure_traces (.bool connected)
  | pathSystem start path =>
    exact (vertexSetOf_traces hchildren start _).bind fun _ origins _ _ =>
      (automatonOf_traces hchildren path).bind fun _ a _ _ =>
        pathSystemValue_traces hchildren a origins

/-! ## Behind the cache -/

theorem compute_traces (hscope : Traceable P scope) {id : NodeId} {node : Node}
    (hget : scope.nodes.get id = .ok node) :
    ValueTraced P s id (compute scope result id node) := by
  intro w hw
  have hrule := rule_traces hchildren hscope hget w hw
  unfold Ensures at hrule ⊢
  rw [compute_apply]
  rcases hx : rule scope result id node w with ⟨failure | v, w₁⟩
  · rw [hx] at hrule
    cases failure with
    | error error =>
      refine (hrule.change (w₁.cache.memo_abort id) ?_).since hrule.precedes
      intro _ _ heq
      cases heq
    | _ => exact hrule
  · rw [hx] at hrule
    refine ⟨(hrule.1.change (w₁.cache.memo_finish id v) fun u hid heq => ?_).since
      hrule.1.precedes, hrule.2⟩
    cases heq
    exact hrule.2 hid

theorem step_traces (hscope : Traceable P scope) (id : NodeId) :
    ValueTraced P s id (step scope result id) := by
  intro w hw
  cases hget : scope.nodes.get id with
  | error e =>
    unfold Ensures
    rw [step_of_error hget]
    exact hw.now
  | ok node =>
    unfold Ensures
    rw [step_apply hget]
    cases hm : w.cache.memo id with
    | done v => exact ⟨hw.extend id, fun hid => hw.memos hid hm⟩
    | inProgress => exact hw.extend id
    | uninitialized =>
      refine compute_traces hchildren hscope hget _
        (hw.change (w.cache.memo_start id) fun _ _ heq => ?_)
      cases heq

end Rules

theorem resultWithin_traces (hscope : Traceable P scope) (depth : Nat) (id : NodeId) :
    ValueTraced P s id (resultWithin scope depth id) := by
  induction depth generalizing id s with
  | zero => exact .throw _
  | succ depth ih => exact step_traces (fun c _ => ih c) hscope id

theorem result_traces (hscope : Traceable P scope) (id : NodeId) :
    ValueTraced P s id (Evaluation.result scope id) :=
  resultWithin_traces hscope _ id

end Evaluation
end PathQuery

import PathQuery.Evaluation.Evaluator
import PathQuery.Proofs.Evaluation.Mirrors
import PathQuery.Proofs.Evaluation.Transparent

/-!
# An evaluation in step with another one

Two evaluations of one node that start with corresponding values for all that they can ask for end
with corresponding values.

* `Correspondence.kinship`: the rules see no difference between corresponding values;
* `Prepared`: what the two evaluations ask of their surroundings;
* `host_mirrors`: the operations of two evaluations in step correspond, if the nodes do that they
  ask for;
* `rule_mirrors`: a rule ends in the same way if its children do;
* `resultWithin_mirrors`: so does an evaluation, whatever is in its cache.
-/

namespace PathQuery

namespace Scope

variable (scope : Scope) (shared : Option SharedEnvironment)

/-- The scope with the results of other queries. -/
def sharing : Scope :=
  { scope with shared }

theorem sharing_self : scope.sharing scope.shared = scope := rfl

@[simp] theorem graph_sharing : (scope.sharing shared).graph = scope.graph := rfl

@[simp] theorem nodes_sharing : (scope.sharing shared).nodes = scope.nodes := rfl

@[simp] theorem shared_sharing : (scope.sharing shared).shared = shared := rfl

@[simp] theorem functions_sharing : (scope.sharing shared).functions = scope.functions := rfl

@[simp] theorem limits_sharing : (scope.sharing shared).limits = scope.limits := rfl

end Scope

/-! ## What the rules see -/

namespace Symbol.Within

variable {region : NodeId → Prop} {symbol : Symbol}

theorem guard (h : symbol.Within region) {c : EdgeConstraint} {γ : Guard}
    (hc : symbol.constraint = some c) (hγ : c.guard = some γ) : region γ.predicate := by
  cases symbol with
  | epsilon => cases hc
  | step _ =>
    cases hc
    exact h γ hγ
  | stepAlong _ edge =>
    cases hc
    exact h.1 γ hγ

theorem edge (h : symbol.Within region) {c : EdgeConstraint} {node : NodeId}
    (hsymbol : symbol = .stepAlong c node) : region node := by
  subst hsymbol
  exact h.2

/-- A step refers to the children of its node. -/
theorem of_node {g : Graph} {node : Node} (h : node.symbol g = some symbol)
    (hchild : ∀ c ∈ node.children, region c) : symbol.Within region := by
  cases node with
  | simplePath direction types roles guard =>
    cases h
    rintro γ rfl
    exact hchild _ (List.mem_singleton_self γ.predicate)
  | edgePath direction edge types roles guard =>
    cases h
    refine ⟨?_, hchild edge List.mem_cons_self⟩
    rintro γ rfl
    exact hchild _ (List.mem_cons_of_mem edge (List.mem_singleton_self γ.predicate))
  | _ => cases h

end Symbol.Within

theorem Value.Corresponds.readsAs {C : Correspondence} {v w : Value} (h : v.Corresponds C w)
    (g : Graph) : v.ReadsAs g g (Automaton.Corresponds C) w where
  asBool := by cases h <;> rfl
  negate := h.negate_eq
  attributeOf := h.attributeOf_eq g
  toVertexSet := h.toVertexSet_eq
  isEdge _ _ := by cases h <;> rfl
  toAutomaton := h.toAutomaton

namespace Correspondence

variable (C : Correspondence)

/-- Corresponding automata are made in the same way, and from the same serials if nothing is
different. -/
def building : Building where
  alike := Automaton.Corresponds C
  makes x y := (∀ m n, (x m).1.Twin (Symbol.Within C.region) (y n).1) ∧ (C.exact → x = y)
  finals_eq hab := hab.twin.finals_eq
  epsilon := ⟨.epsilon, fun _ => rfl⟩
  copy hab := ⟨hab.twin.copy true, fun he => by rw [hab.eq_of_exact he]⟩
  concat hab hcd := ⟨hab.twin.concat trivial hcd.twin, fun he => by
    rw [hab.eq_of_exact he, hcd.eq_of_exact he]⟩
  union hab hcd := ⟨hab.twin.union trivial hcd.twin, fun he => by
    rw [hab.eq_of_exact he, hcd.eq_of_exact he]⟩
  iterate allowEmpty hab := ⟨hab.twin.iterate trivial allowEmpty, fun he => by
    rw [hab.eq_of_exact he]⟩
  optional hab := ⟨hab.twin.optional trivial, fun he => by rw [hab.eq_of_exact he]⟩
  power count hab := ⟨hab.twin.power trivial count, fun he => by rw [hab.eq_of_exact he]⟩
  reverse hab := ⟨hab.twin.reverse Symbol.Within.reversed trivial, fun he => by
    rw [hab.eq_of_exact he]⟩

def kinship (g : Graph) : Kinship g g where
  alike := Value.Corresponds C
  gives := Value.Corresponds C
  building := C.building
  handles := C.handles
  reads hv := hv.readsAs g
  compareValues_eq op _ _ _ _ hv hw := hv.compareValues_eq hw op
  simple := .simple
  automaton := .automaton
  pathSystem _ := .pathSystem

end Correspondence

namespace Evaluation

open Eval

/-- What can be reached from the region stays in it, and what comes from outside corresponds.  If
what is missing for the first evaluation is there for the second one, the failure is spared. -/
structure Prepared (C : Correspondence) (spared : Failure → Prop) (scope : Scope)
    (shared' : Option SharedEnvironment) : Prop where
  closed {n c : NodeId} : C.region n → c ∈ scope.nodes.childrenOf n → C.region c
  literal {n : NodeId} {v : Value} : C.region n → scope.nodes.get n = .ok (.literal v) →
    v.Corresponds C v
  functions : scope.functions.Respects C
  shared {n : NodeId} {x : String} : C.region n → scope.nodes.get n = .ok (.var x) →
    (∃ v w, scope.shared.bind (·.get x) = some v ∧ shared'.bind (·.get x) = some w ∧
      v.Corresponds C w) ∨
    (scope.shared.bind (·.get x) = none ∧
      (shared'.bind (·.get x) = none ∨ spared (.error (.unresolvedVariable x))))

/-- Nodes of the region are evaluated in step, whatever is bound. -/
def Children (C : Correspondence) (spared : Failure → Prop) (result result' : NodeId → Eval Value) :
    Prop :=
  ∀ {β β' : Bindings} {c : NodeId}, β.Corresponds C β' → C.region c →
    Mirrors C spared β β' (Value.Corresponds C) (result c) (result' c)

variable {C : Correspondence} {spared : Failure → Prop} {β β' : Bindings} {scope : Scope}
  {shared' : Option SharedEnvironment} {result result' : NodeId → Eval Value}

section Rules

variable (hchildren : Children C spared result result') (hβ : β.Corresponds C β')
  (hprepared : Prepared C spared scope shared')
include hβ hprepared

theorem var_mirrors {id : NodeId} {name : String} (hid : C.region id)
    (hget : scope.nodes.get id = .ok (.var name)) :
    Mirrors C spared β β' (Value.Corresponds C) (readVariable scope name)
      (readVariable (scope.sharing shared') name) := by
  -- Bindings come first, then the results of other queries.
  intro w w' hw
  have hlookup : Mirrors C spared β β' (Value.Corresponds C) (ofExcept (lookup scope β name))
      (ofExcept (lookup (scope.sharing shared') β' name)) := by
    unfold lookup
    rcases hβ.get name with ⟨v, v', hv, hv', hcorresponds⟩ | ⟨hnone, hnone'⟩
    · rw [hv, hv']
      exact Mirrors.pure hcorresponds
    · rw [hnone, hnone']
      simp only [Scope.shared_sharing]
      rcases hprepared.shared hid hget with
        ⟨v, v', hv, hv', hcorresponds⟩ | ⟨habsent, habsent' | hspared⟩
      · rw [hv, hv']
        exact Mirrors.pure hcorresponds
      · rw [habsent, habsent']
        exact Mirrors.fail C spared β β' _ _
      · rw [habsent]
        exact Mirrors.of_spared hspared
  obtain rfl := hw.bindings_eq
  obtain rfl := hw.bindings_eq'
  exact hlookup w w' hw

omit hβ in
theorem callFunction_mirrors (function : String) {vs vs' : List Value}
    (hvs : List.Forall₂ (Value.Corresponds C) vs vs') :
    Mirrors C spared β β' (Value.Corresponds C) (callFunction scope function vs)
      (callFunction (scope.sharing shared') function vs') := by
  refine Mirrors.callNumber.bind ?_
  intro m n hmn
  have hcall := hprepared.functions m n function vs vs' hmn hvs
  simp only [Scope.functions_sharing]
  cases hv : scope.functions.call m function vs with
  | error failure =>
    cases hv' : scope.functions.call n function vs' with
    | error failure' =>
      rw [hv, hv'] at hcall
      obtain rfl : failure = failure' := hcall
      exact Mirrors.throw C spared β β' _ failure
    | ok v' =>
      rw [hv, hv'] at hcall
      exact hcall.elim
  | ok v =>
    cases hv' : scope.functions.call n function vs' with
    | error failure' =>
      rw [hv, hv'] at hcall
      exact hcall.elim
    | ok v' =>
      rw [hv, hv'] at hcall
      exact Mirrors.pure hcall

include hchildren

theorem host_mirrors : Host.Related (Mirrors.lifting C spared β β') (C.kinship scope.graph)
    C.region (fun γ => C.region γ.predicate) (host scope result)
    (host (scope.sharing shared') result') where
  throws _ := trivial
  vertices _ := rfl
  result hc := hchildren hβ hc
  guard {γ} e hγ := evaluateGuard_mirrors rfl (hchildren · hγ) hβ γ.thisEdge e
  call function _ _ hvs := callFunction_mirrors hprepared function hvs
  fresh {x y} hxy :=
    show Mirrors C spared β β' (Automaton.Corresponds C) (Eval.fresh x) (Eval.fresh y) from
      Mirrors.fresh hxy.1 hxy.2
  handle := show Mirrors C spared β β' C.handles Eval.freshHandle Eval.freshHandle from
    Mirrors.freshHandle

/-- An automaton and its twin are traversed alike, since they refer to the region only. -/
theorem traverses_mirrors : Host.Traverses (Mirrors.lifting C spared β β') scope
    (scope.sharing shared') (Automaton.Corresponds C) (host scope result)
    (host (scope.sharing shared') result') := by
  intro a b hab start
  rw [Scope.limits_sharing, Scope.graph_sharing, ← hab.twin.traverse_eq]
  refine (Mirrors.lifting C spared β β').simulation.traverse scope.limits scope.graph
    ⟨fun _ => trivial, fun _ => trivial⟩ ?_ start
  intro t ht _ v e
  have hwithin : t.symbol.Within C.region := hab.twin.symbols ht
  refine (host_mirrors hchildren hβ hprepared).takes (fun _ _ => rfl) ?_ ?_
  · exact fun c γ hc hγ => hwithin.guard hc hγ
  · exact fun c node hsymbol => hwithin.edge hsymbol

/-- The rule of a node, with children that are evaluated in step. -/
theorem rule_mirrors {id : NodeId} {node : Node} (hid : C.region id)
    (hget : scope.nodes.get id = .ok node) :
    Mirrors C spared β β' (Value.Corresponds C) (rule scope result id node)
      (rule (scope.sharing shared') result' id node) := by
  -- No rule asks for other nodes than children, and these are in the region, too.
  have hchild : ∀ {c : NodeId}, c ∈ node.children → C.region c := by
    intro c hc
    refine hprepared.closed hid ?_
    rw [SyntaxGraph.childrenOf, hget]
    exact hc
  rw [← host_rule, ← host_rule]
  refine (host_mirrors hchildren hβ hprepared).rule (traverses_mirrors hchildren hβ hprepared) id
    hchild ?_ ?_ ?_
  · rintro v rfl
    exact hprepared.literal hid hget
  · rintro name rfl
    exact var_mirrors hβ hprepared hid hget
  · intro symbol symbol' hsymbol hsymbol'
    obtain rfl : symbol = symbol' := Option.some.inj (hsymbol.symm.trans hsymbol')
    exact ⟨fun m n => .single (.of_node hsymbol fun _ => hchild) m n, fun _ => rfl⟩

end Rules

/-! ## Behind the cache -/

theorem compute_mirrors (hchildren : Children C spared result result')
    (hprepared : Prepared C spared scope shared') (hβ : β.Corresponds C β') {id : NodeId}
    {node : Node} (hid : C.region id) (hget : scope.nodes.get id = .ok node) :
    Mirrors C spared β β' (Value.Corresponds C) (compute scope result id node)
      (compute (scope.sharing shared') result' id node) := by
  intro w w' hw
  have hrule := rule_mirrors hchildren hβ hprepared hid hget w w' hw
  simp only [compute_apply]
  rcases hx : rule scope result id node w with ⟨failure | v, w₁⟩
  · rw [hx] at hrule
    rcases hrule with hspared | ⟨w₁', hy, hkept⟩
    · cases failure <;> exact .inl hspared
    · rw [hy]
      -- Only after an error is the node given up; a panic leaves it in progress.
      cases failure with
      | error error =>
        refine .inr ⟨_, rfl, fun _ _ => ?_⟩
        exact (hkept error rfl).change (w₁.cache.memo_abort id) (w₁'.cache.memo_abort id)
          .uninitialized
      | _ => exact .inr ⟨w₁', rfl, fun _ heq => by cases heq⟩
  · rw [hx] at hrule
    rcases hrule with ⟨v', w₁', hy, hw₁, hv⟩
    rw [hy]
    exact ⟨v', _, rfl,
      hw₁.change (w₁.cache.memo_finish id v) (w₁'.cache.memo_finish id v') (.done hv), hv⟩

/-- The two caches know corresponding things about the node, so that they are asked the same. -/
theorem step_mirrors (hchildren : Children C spared result result')
    (hprepared : Prepared C spared scope shared') (hβ : β.Corresponds C β') {id : NodeId}
    (hid : C.region id) :
    Mirrors C spared β β' (Value.Corresponds C) (step scope result id)
      (step (scope.sharing shared') result' id) := by
  intro w w' hw
  cases hget : scope.nodes.get id with
  | error e =>
    have hget' : (scope.sharing shared').nodes.get id = .error e := hget
    rw [step_of_error hget, step_of_error hget']
    exact .inr ⟨w', rfl, fun _ _ => hw⟩
  | ok node =>
    have hget' : (scope.sharing shared').nodes.get id = .ok node := hget
    have hmemo := hw.cache id hid
    rw [step_apply hget, step_apply hget']
    cases hm : w.cache.memo id with
    | done v =>
      rw [hm] at hmemo
      cases hm' : w'.cache.memo id with
      | done v' =>
        rw [hm'] at hmemo
        cases hmemo with
        | done hv => exact ⟨v', _, rfl, hw.extend id, hv⟩
      | _ =>
        rw [hm'] at hmemo
        cases hmemo
    | inProgress =>
      rw [hm] at hmemo
      cases hm' : w'.cache.memo id with
      | inProgress => exact .inr ⟨_, rfl, fun _ _ => hw.extend id⟩
      | _ =>
        rw [hm'] at hmemo
        cases hmemo
    | uninitialized =>
      rw [hm] at hmemo
      cases hm' : w'.cache.memo id with
      | uninitialized =>
        exact compute_mirrors hchildren hprepared hβ hid hget _ _
          (hw.change (w.cache.memo_start id) (w'.cache.memo_start id) .inProgress)
      | _ =>
        rw [hm'] at hmemo
        cases hmemo

theorem resultWithin_mirrors (hprepared : Prepared C spared scope shared') (depth : Nat) :
    Children C spared (resultWithin scope depth) (resultWithin (scope.sharing shared') depth) := by
  induction depth with
  | zero =>
    intro β β' c _ _
    exact Mirrors.throw C spared β β' _ .exhausted
  | succ depth ih =>
    intro β β' c hβ hc
    exact step_mirrors ih hprepared hβ hc

theorem result_mirrors (hprepared : Prepared C spared scope shared') (hβ : β.Corresponds C β')
    {id : NodeId} (hid : C.region id) :
    Mirrors C spared β β' (Value.Corresponds C) (Evaluation.result scope id)
      (Evaluation.result (scope.sharing shared') id) :=
  resultWithin_mirrors hprepared _ hβ hid

end Evaluation
end PathQuery

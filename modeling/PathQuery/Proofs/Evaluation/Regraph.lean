import PathQuery.Evaluation.Evaluator
import PathQuery.Proofs.Evaluation.Relabel
import PathQuery.Proofs.Evaluation.Transparent
import PathQuery.Proofs.Path.Relabel

/-!
# An evaluation over another graph

Two graphs with the same elements can differ in the numbers that they give to types, so steps are
compiled to different constraints.  If the constraints match the same edges, evaluations end the
same.

* `Scope.withGraph`: the scope with another graph;
* `Indistinct`: what the two graphs have in common, up to a replacement of constraints;
* `Indistinct.kinship`: the rules do not see what is replaced;
* `host_parallel`, `traverses_parallel`: guards decide the same, transitions take the same edges, and
  automata are traversed alike;
* `rule_parallel`: a rule ends in the same way if its children do;
* `resultWithin_parallel`: so does an evaluation.
-/

namespace PathQuery

/-- What a step asks of types and roles. -/
def Node.restriction : Node → Option (List TypeTerm × List String)
  | simplePath _ types roles _ => some (types, roles)
  | edgePath _ _ types roles _ => some (types, roles)
  | _ => none

namespace Scope

variable (scope : Scope) (g : Graph)

def withGraph : Scope :=
  { scope with graph := g }

@[simp] theorem graph_withGraph : (scope.withGraph g).graph = g := rfl

@[simp] theorem shared_withGraph : (scope.withGraph g).shared = scope.shared := rfl

@[simp] theorem functions_withGraph : (scope.withGraph g).functions = scope.functions := rfl

end Scope

/-- Automata that are replaced by the same. -/
def Relabeling.building (φ : Relabeling) : Building where
  alike a b := a.map φ = b.map φ
  makes x y := Automaton.map φ <$> x = Automaton.map φ <$> y
  finals_eq {a b} hab := by rw [← Automaton.finals_map φ a, hab, Automaton.finals_map]
  epsilon := rfl
  copy hab := by rw [Automaton.map_copy, Automaton.map_copy, hab]
  concat hab hcd := by rw [Automaton.map_concat, Automaton.map_concat, hab, hcd]
  union hab hcd := by rw [Automaton.map_union, Automaton.map_union, hab, hcd]
  iterate allowEmpty hab := by rw [Automaton.map_iterate, Automaton.map_iterate, hab]
  optional hab := by rw [Automaton.map_optional, Automaton.map_optional, hab]
  power count hab := by rw [Automaton.map_power, Automaton.map_power, hab]
  reverse hab := by rw [Automaton.map_reverse, Automaton.map_reverse, hab]

namespace Evaluation

open Eval

/-- The elements of the other graph are the same, constraints match the same edges there, and steps
are compiled to constraints that are replaced by the same. -/
structure Indistinct (φ : Relabeling) (scope : Scope) (g : Graph) : Prop where
  sameData : Graph.SameData scope.graph g
  attributeOf_eq (name : String) (v : Value) :
    attributeOf g name v = attributeOf scope.graph name v
  verticesOfTypes_eq (terms : List TypeTerm) :
    verticesOfTypes g terms = verticesOfTypes scope.graph terms
  matches_eq (c : EdgeConstraint) {e : Incidence} {v : Nat} : scope.graph.this e = some v →
    c.matchesStructure g e = c.matchesStructure scope.graph e
  matches_apply (c : EdgeConstraint) {e : Incidence} {v : Nat} : scope.graph.this e = some v →
    (φ.apply c).matchesStructure scope.graph e = c.matchesStructure scope.graph e
  apply_resolve {id : NodeId} {node : Node} {types : List TypeTerm} {roles : List String} :
    scope.nodes.get id = .ok node → node.restriction = some (types, roles) →
      ∀ (direction : Direction) (guard : Option Guard),
        φ.apply (.resolve g direction types roles guard) =
          φ.apply (.resolve scope.graph direction types roles guard)
  functions : scope.functions.Ignores φ

theorem Indistinct.matches_apply_withGraph {φ : Relabeling} {scope : Scope} {g : Graph}
    (h : Indistinct φ scope g) (c : EdgeConstraint) {e : Incidence} {v : Nat}
    (hv : (scope.withGraph g).graph.this e = some v) :
    (φ.apply c).matchesStructure (scope.withGraph g).graph e =
      c.matchesStructure (scope.withGraph g).graph e := by
  have hthis : scope.graph.this e = some v := by
    rw [← h.sameData.this_eq]
    exact hv
  rw [Scope.graph_withGraph, h.matches_eq _ hthis, h.matches_apply c hthis, h.matches_eq c hthis]

/-- Steps are compiled to symbols that are replaced by the same. -/
theorem Indistinct.map_symbol {φ : Relabeling} {scope : Scope} {g : Graph}
    (h : Indistinct φ scope g) {id : NodeId} {node : Node} (hget : scope.nodes.get id = .ok node)
    {symbol symbol' : Symbol} (hsymbol : node.symbol scope.graph = some symbol)
    (hsymbol' : node.symbol g = some symbol') : symbol.map φ = symbol'.map φ := by
  cases node with
  | simplePath direction types roles guard =>
    cases hsymbol
    cases hsymbol'
    rw [Symbol.map, Symbol.map, h.apply_resolve hget rfl]
  | edgePath direction edge types roles guard =>
    cases hsymbol
    cases hsymbol'
    rw [Symbol.map, Symbol.map, h.apply_resolve hget rfl]
  | _ => cases hsymbol

theorem Indistinct.readsAs {φ : Relabeling} {scope : Scope} {g : Graph} (h : Indistinct φ scope g)
    {v v' : Value} (hv : v.relabel φ = v'.relabel φ) :
    v.ReadsAs scope.graph (scope.withGraph g).graph (fun a b => a.map φ = b.map φ) v' where
  asBool := Value.congr_of_relabel φ (Value.asBool_relabel φ) hv
  negate := Value.congr_of_relabel φ (Value.negate_relabel φ) hv
  attributeOf name :=
    (Value.congr_of_relabel φ (Value.attributeOf_relabel φ scope.graph name) hv).trans
      (h.attributeOf_eq name v').symm
  toVertexSet context :=
    Value.congr_of_relabel φ (f := (·.toVertexSet context)) (Value.toVertexSet_relabel φ · context)
      hv
  isEdge node e := Value.congr_of_relabel φ (Value.isEdge_relabel φ node e) hv
  toAutomaton context := by
    refine outcomes_of_map_eq ?_
    rw [← Value.toAutomaton_relabel, hv, Value.toAutomaton_relabel]

/-- The rules do not see what is replaced. -/
def Indistinct.kinship {φ : Relabeling} {scope : Scope} {g : Graph} (h : Indistinct φ scope g) :
    Kinship scope.graph (scope.withGraph g).graph where
  alike v v' := v.relabel φ = v'.relabel φ
  gives v v' := v.relabel φ = v'.relabel φ
  building := φ.building
  handles := Eq
  reads := h.readsAs
  compareValues_eq op {x x' y y'} hx hy := by
    rw [← Value.compareValues_relabel φ op x y, hx, hy, Value.compareValues_relabel]
  simple _ := rfl
  automaton := by
    rintro handle _ a b rfl hab
    exact congrArg (Value.automaton handle) hab
  pathSystem := by
    rintro handle _ ps rfl
    rfl

section Rules

variable {φ : Relabeling} {scope : Scope} {g : Graph} {result result' : NodeId → Eval Value}

/-! ## Guards and transitions -/

/-- Where constraints match the same edges after the replacement, transitions take the same. -/
theorem takes_map (hmatches : ∀ (c : EdgeConstraint) {e : Incidence} {v : Nat},
    scope.graph.this e = some v →
      (φ.apply c).matchesStructure scope.graph e = c.matchesStructure scope.graph e) :
    (fun t : Transition => takes scope result (t.map φ)) = takes scope result := by
  have htest : ∀ (c : EdgeConstraint) (v : Nat) (e : Incidence),
      (scope.graph.this e == some v && (φ.apply c).matchesStructure scope.graph e) =
        (scope.graph.this e == some v && c.matchesStructure scope.graph e) := by
    intro c v e
    cases hthis : scope.graph.this e == some v with
    | false => rfl
    | true => rw [hmatches c (beq_iff_eq.1 hthis)]
  funext t v e
  rcases t with ⟨source, target, symbol⟩
  cases symbol with
  | epsilon => rfl
  | step c => simp only [takes, accepts, Transition.map, Symbol.map, φ.guard_apply, htest]
  | stepAlong c node => simp only [takes, accepts, Transition.map, Symbol.map, φ.guard_apply, htest]

variable (hscope : Indistinct φ scope g)
  (hresult : ∀ c, Parallel φ (Value.relabel φ) (result c) (result' c))

theorem isTrue_parallel {v v' : Value} (hv : v.relabel φ = v'.relabel φ) :
    Parallel φ id (pure v.isTrue) (pure v'.isTrue) := by
  rw [← Value.isTrue_relabel φ v, hv, Value.isTrue_relabel]
  exact Parallel.pure rfl

include hresult

theorem evaluateGuard_parallel (guard : Guard) (e : Incidence) :
    Parallel φ id (evaluateGuard scope result guard e)
      (evaluateGuard (scope.withGraph g) result' guard e) := by
  unfold evaluateGuard
  split
  · refine (hresult _).bind fun v v' hv => isTrue_parallel hv
  · rename_i name _
    refine (Parallel.modifyCache fun hw => hw.resetFrom scope.nodes guard.predicate).bind_same ?_
    intro _
    refine (Parallel.modifyBindings fun hw => hw.push name (.edge e)).bind_same ?_
    intro _
    refine (hresult guard.predicate).outcome.bind ?_
    intro r r' hr
    have hpop : Parallel φ id (modifyBindings (·.pop.2)) (modifyBindings (·.pop.2)) :=
      Parallel.modifyBindings fun hw => hw.pop
    -- The binding is taken back after a value and after an error; a panic leaves it.
    rcases outcomes_of_map_eq hr with ⟨v, v', rfl, rfl, hv⟩ | ⟨failure, rfl, rfl⟩
    · exact hpop.bind_same fun _ => isTrue_parallel hv
    · cases failure with
      | error e => exact hpop.bind_same fun _ => Parallel.throw φ id _
      | _ => exact Parallel.throw φ id _

omit hresult in
theorem var_parallel (name : String) :
    Parallel φ (Value.relabel φ) (readVariable scope name)
      (readVariable (scope.withGraph g) name) := by
  refine (Parallel.getBindings φ).bind fun β β' hβ => Parallel.ofExcept ?_
  have hfound : (β.get name).map (Value.relabel φ) = (β'.get name).map (Value.relabel φ) := by
    rw [← Bindings.get_relabel, hβ, Bindings.get_relabel]
  -- What is not bound on one side is not bound on the other, and both ask the same environment.
  unfold lookup
  cases hv : β.get name with
  | none =>
    rw [hv, Option.map_none, eq_comm, Option.map_eq_none_iff] at hfound
    rw [hfound, Scope.shared_withGraph]
  | some v =>
    rw [hv, Option.map_some, eq_comm, Option.map_eq_some_iff] at hfound
    rcases hfound with ⟨v', hv', heq⟩
    rw [hv']
    exact congrArg Except.ok heq.symm

omit hresult in
theorem callFunction_parallel (hfunctions : scope.functions.Ignores φ) (function : String)
    {vs vs' : List Value}
    (hvs : List.Forall₂ (fun v v' => v.relabel φ = v'.relabel φ) vs vs') :
    Parallel φ (Value.relabel φ) (callFunction scope function vs)
      (callFunction (scope.withGraph g) function vs') := by
  have hmapped : vs.map (Value.relabel φ) = vs'.map (Value.relabel φ) := by
    rwa [← List.forall₂_eq_eq_eq, List.forall₂_map_left_iff, List.forall₂_map_right_iff]
  refine (Parallel.callNumber φ).bind_same fun n => ?_
  have hanswers := hfunctions n function vs vs' hmapped
  rw [Scope.functions_withGraph]
  rcases outcomes_of_map_eq hanswers with ⟨v, v', hv, hv', heq⟩ | ⟨failure, hv, hv'⟩
  · rw [hv, hv']
    exact Parallel.pure heq
  · rw [hv, hv']
    exact Parallel.throw φ _ failure

/-! ## All rules -/

include hscope

theorem host_parallel : Host.Related (alongside φ) hscope.kinship (fun _ => True) (fun _ => True)
    (host scope result) (host (scope.withGraph g) result') where
  throws _ := trivial
  vertices terms := (hscope.verticesOfTypes_eq terms).symm
  result {c} _ := alongside_iff_parallel.2 (hresult c)
  guard e _ := alongside_iff_parallel.2 (evaluateGuard_parallel hresult _ e)
  call function _ _ hvs :=
    alongside_iff_parallel.2 (callFunction_parallel hscope.functions function hvs)
  fresh hxy := alongside_iff_parallel.2 (Parallel.fresh hxy)
  handle := alongside_iff_parallel.2 (Parallel.freshHandle φ)

/-- One constraint matches the same edges in both graphs. -/
theorem takes_parallel (t : Transition) (v : Nat) (e : Incidence) :
    Alongside φ Eq (takes scope result t v e) (takes (scope.withGraph g) result' t v e) := by
  rw [← host_takes, ← host_takes]
  refine (host_parallel hscope hresult).takes ?_ (fun _ _ _ _ => trivial) fun _ _ _ => trivial
  intro c _
  rw [Scope.graph_withGraph, hscope.sameData.this_eq]
  cases hv : scope.graph.this e == some v with
  | false => rfl
  | true => rw [hscope.matches_eq c (beq_iff_eq.1 hv)]

/-- Of both sides the traversal of one automaton in one graph can be made. -/
theorem traverses_parallel : Host.Traverses (alongside φ) scope (scope.withGraph g)
    (fun a b => a.map φ = b.map φ) (host scope result) (host (scope.withGraph g) result') := by
  intro a b hab start
  have hleft : Traversal.traverse (takes scope result) scope.limits a scope.graph start =
      Traversal.traverse (takes scope result) scope.limits (b.map φ) scope.graph start :=
    calc
      _ = Traversal.traverse (takes scope result) scope.limits (a.map φ) scope.graph start := by
        rw [Traversal.traverse_map, takes_map hscope.matches_apply]
      _ = _ := by rw [hab]
  have hright : Traversal.traverse (takes (scope.withGraph g) result') (scope.withGraph g).limits b
        (scope.withGraph g).graph start =
      Traversal.traverse (takes (scope.withGraph g) result') scope.limits (b.map φ) scope.graph
        start :=
    calc
      _ = Traversal.traverse (takes (scope.withGraph g) result') scope.limits (b.map φ) g
          start := by
        rw [Traversal.traverse_map, takes_map hscope.matches_apply_withGraph]
        rfl
      _ = _ := hscope.sameData.traverse_eq _ _ _ start
  rw [host_takes, host_takes, hleft, hright]
  exact (alongside φ).simulation.traverse scope.limits scope.graph
    ⟨fun _ => trivial, fun _ => trivial⟩ (fun t _ _ v e => takes_parallel hscope hresult t v e) start

/-- The rule of a node, with children that are evaluated alongside. -/
theorem rule_parallel {n : NodeId} {node : Node} (hget : scope.nodes.get n = .ok node) :
    Parallel φ (Value.relabel φ) (rule scope result n node)
      (rule (scope.withGraph g) result' n node) := by
  rw [← host_rule, ← host_rule, ← alongside_iff_parallel]
  refine (host_parallel hscope hresult).rule (traverses_parallel hscope hresult) n (fun _ => trivial)
    (fun _ _ => rfl) ?_ ?_
  · rintro name -
    exact alongside_iff_parallel.2 (var_parallel name)
  · intro symbol symbol' hsymbol hsymbol'
    have hmapped := hscope.map_symbol hget hsymbol hsymbol'
    exact (Automaton.map_single φ symbol).trans
      ((congrArg Automaton.single hmapped).trans (Automaton.map_single φ symbol').symm)

/-! ## Behind the cache -/

theorem compute_parallel {n : NodeId} {node : Node} (hget : scope.nodes.get n = .ok node) :
    Parallel φ (Value.relabel φ) (compute scope result n node)
      (compute (scope.withGraph g) result' n node) := by
  refine (rule_parallel hscope hresult hget).outcome.bind fun r r' hr => ?_
  rcases outcomes_of_map_eq hr with ⟨v, v', rfl, rfl, hv⟩ | ⟨failure, rfl, rfl⟩
  · have hfinish : Parallel φ id (modifyCache (·.finish n v)) (modifyCache (·.finish n v')) := by
      refine Parallel.modifyCache fun {w w'} hw => ?_
      exact hw.setMemo (w.cache.memo_finish n v) (w'.cache.memo_finish n v')
        (congrArg Memo.done hv)
    exact hfinish.bind_same fun _ => Parallel.pure hv
  · have habort : Parallel φ id (modifyCache (·.abort n)) (modifyCache (·.abort n)) := by
      refine Parallel.modifyCache fun {w w'} hw => ?_
      exact hw.setMemo (w.cache.memo_abort n) (w'.cache.memo_abort n) rfl
    cases failure with
    | error e => exact habort.bind_same fun _ => Parallel.throw φ _ _
    | _ => exact Parallel.throw φ _ _

/-- The two caches know the same of the node, but for constraints. -/
theorem step_parallel (n : NodeId) :
    Parallel φ (Value.relabel φ) (step scope result n) (step (scope.withGraph g) result' n) := by
  intro w w' hw
  cases hget : scope.nodes.get n with
  | error e =>
    have hother : (scope.withGraph g).nodes.get n = .error e := hget
    rw [step_of_error hget, step_of_error hother]
    exact ⟨rfl, hw⟩
  | ok node =>
    -- If one side knows the node, is computing it or has never seen it, so does the other.
    have hmemo := hw.memo n
    have hextended : Workspace.Matches φ { w with cache := w.cache.extend n }
        { w' with cache := w'.cache.extend n } := by
      refine hw.withCache fun c => ?_
      rw [Cache.memo_extend, Cache.memo_extend]
      exact hw.memo c
    have hother : (scope.withGraph g).nodes.get n = .ok node := hget
    rw [step_apply hget, step_apply hother]
    cases hm : w.cache.memo n with
    | done v =>
      cases hm' : w'.cache.memo n with
      | done v' =>
        rw [hm, hm'] at hmemo
        exact ⟨congrArg Except.ok (Memo.done.inj hmemo), hextended⟩
      | _ =>
        rw [hm, hm'] at hmemo
        cases hmemo
    | inProgress =>
      cases hm' : w'.cache.memo n with
      | inProgress => exact ⟨rfl, hextended⟩
      | _ =>
        rw [hm, hm'] at hmemo
        cases hmemo
    | uninitialized =>
      cases hm' : w'.cache.memo n with
      | uninitialized =>
        exact compute_parallel hscope hresult hget _ _
          (hw.setMemo (w.cache.memo_start n) (w'.cache.memo_start n) rfl)
      | _ =>
        rw [hm, hm'] at hmemo
        cases hmemo

end Rules

theorem resultWithin_parallel {φ : Relabeling} {scope : Scope} {g : Graph}
    (hscope : Indistinct φ scope g) (depth : Nat) (id : NodeId) :
    Parallel φ (Value.relabel φ) (resultWithin scope depth id)
      (resultWithin (scope.withGraph g) depth id) := by
  induction depth generalizing id with
  | zero => exact Parallel.throw φ _ .exhausted
  | succ depth ih => exact step_parallel hscope ih id

end Evaluation

end PathQuery

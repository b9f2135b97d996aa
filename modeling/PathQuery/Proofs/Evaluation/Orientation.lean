import PathQuery.Proofs.Evaluation.Agreement
import PathQuery.Proofs.Evaluation.Guards
import PathQuery.Proofs.Evaluation.Transparent

/-!
# Guards do not see orientation

The variable of a guard is bound to the edge as the traversal meets it, from one end or the other.
No condition can tell which end it is.

* `Eval.Blind`: two evaluations end the same but for orientation whenever they start so;
* `blindness`: this is kept by returning, failing and sequencing;
* `evaluateGuard_blind`: a guard decides the same about an edge in both orientations, if the nodes
  below it are evaluated without regard to orientation;
* `resultWithin_blind`: and all nodes are, at any depth;
* `guard_reversed`: so guards answer the same in both orientations.
-/

namespace PathQuery

namespace Workspace

variable {w w' : Workspace}

theorem canonical_eq_iff : w.canonical = w'.canonical ↔
    w.cache.canonical = w'.cache.canonical ∧ w.bindings.canonical = w'.bindings.canonical ∧
      w.supply = w'.supply :=
  Iff.of_eq (Workspace.mk.injEq ..)

theorem canonical_withCache (h : w.canonical = w'.canonical) {cache cache' : Cache}
    (hcache : cache.canonical = cache'.canonical) :
    canonical { w with cache } = canonical { w' with cache := cache' } :=
  canonical_eq_iff.2 ⟨hcache, (canonical_eq_iff.1 h).2⟩

theorem canonical_withSupply (h : w.canonical = w'.canonical) {supply supply' : Supply}
    (hsupply : supply = supply') :
    canonical { w with supply } = canonical { w' with supply := supply' } := by
  rcases canonical_eq_iff.1 h with ⟨hcache, hbindings, -⟩
  exact canonical_eq_iff.2 ⟨hcache, hbindings, hsupply⟩

/-- The edge may be met from different ends. -/
theorem canonical_entered (h : w.canonical = w'.canonical) (nodes : SyntaxGraph)
    (predicate : NodeId) (x : String) {e e' : Incidence} (he : e.canonical = e'.canonical) :
    (w.entered nodes predicate x e).canonical = (w'.entered nodes predicate x e').canonical := by
  rcases canonical_eq_iff.1 h with ⟨hcache, hbindings, hsupply⟩
  refine canonical_eq_iff.2 ⟨?_, ?_, hsupply⟩
  · simp only [entered, Cache.canonical_resetFrom, hcache]
  · simp only [entered, Bindings.canonical_push, Value.canonical, hbindings, he]

theorem canonical_left (h : w.canonical = w'.canonical) : w.left.canonical = w'.left.canonical := by
  rcases canonical_eq_iff.1 h with ⟨hcache, hbindings, hsupply⟩
  refine canonical_eq_iff.2 ⟨hcache, ?_, hsupply⟩
  simp only [left, Bindings.canonical_pop, hbindings]

end Workspace

/-! ## Evaluations -/

namespace Eval

def Blind {α : Type} (r : α → α → Prop) (x y : Eval α) : Prop :=
  ∀ w w' : Workspace, w.canonical = w'.canonical →
    Outcomes r (x w).1 (y w').1 ∧ (x w).2.canonical = (y w').2.canonical

namespace Blind

variable {α γ : Type} {r : α → α → Prop} {s : γ → γ → Prop} {x y : Eval α}

theorem pure {a b : α} (h : r a b) : Blind r (Pure.pure a) (Pure.pure b) :=
  fun _ _ hw => ⟨.ok h, hw⟩

theorem throw (r : α → α → Prop) (failure : Failure) :
    Blind r (throwThe Failure failure) (throwThe Failure failure) :=
  fun _ _ hw => ⟨.error failure, hw⟩

theorem bind {f k : α → Eval γ} (hxy : Blind r x y) (h : ∀ a b, r a b → Blind s (f a) (k b)) :
    Blind s (x >>= f) (y >>= k) := by
  intro w w' hw
  rcases hxy w w' hw with ⟨hvalue, hlater⟩
  rw [bind_apply, bind_apply]
  rcases hx : x w with ⟨o, w₁⟩
  rcases hy : y w' with ⟨o', w₁'⟩
  rw [hx, hy] at hvalue hlater
  cases hvalue with
  | ok hab => exact h _ _ hab w₁ w₁' hlater
  | error failure => exact ⟨.error failure, hlater⟩

theorem ofExcept {o o' : Except EvalError Value}
    (h : o.map Value.canonical = o'.map Value.canonical) :
    Blind (fun v v' => v.canonical = v'.canonical) (Eval.ofExcept o) (Eval.ofExcept o') := by
  rcases outcomes_of_map_eq h with ⟨v, v', rfl, rfl, heq⟩ | ⟨e, rfl, rfl⟩
  · exact pure heq
  · exact throw _ (.error e)

theorem getBindings :
    Blind (fun b b' => b.canonical = b'.canonical) Eval.getBindings Eval.getBindings :=
  fun _ _ hw => ⟨.ok (Workspace.canonical_eq_iff.1 hw).2.1, hw⟩

theorem fresh {x : Fresh Automaton} {p : Automaton → Prop} (h : ∀ serials, p (x serials).1) :
    Blind (Both p) (Eval.fresh x) (Eval.fresh x) := by
  intro w w' hw
  have hsupply := (Workspace.canonical_eq_iff.1 hw).2.2
  refine ⟨.ok ⟨?_, h _⟩, Workspace.canonical_withSupply hw ?_⟩ <;> simp only [hsupply]

theorem freshHandle : Blind Eq Eval.freshHandle Eval.freshHandle := by
  intro w w' hw
  have hsupply := (Workspace.canonical_eq_iff.1 hw).2.2
  exact ⟨.ok (by rw [hsupply]), Workspace.canonical_withSupply hw (by rw [hsupply])⟩

theorem callNumber : Blind Eq Eval.callNumber Eval.callNumber := by
  intro w w' hw
  have hsupply := (Workspace.canonical_eq_iff.1 hw).2.2
  exact ⟨.ok (by rw [hsupply]), Workspace.canonical_withSupply hw (by rw [hsupply])⟩

end Blind

def blindness :
    Lifting (ExceptT Failure (StateM Workspace)) (ExceptT Failure (StateM Workspace)) where
  rel := Blind
  pure := .pure
  throw := .throw
  bind := .bind

end Eval

namespace Evaluation

open Eval
open Workspace (canonical_eq_iff canonical_withCache)

/-- Values that differ in orientation only. -/
def unoriented : Likeness where
  alike v v' := v.canonical = v'.canonical
  admits _ := True
  canonical_eq h := h
  simple _ := rfl
  automaton _ _ _ := rfl
  pathSystem _ _ := rfl
  guardedBy _ := fun _ _ _ _ _ _ => trivial

theorem lookup_canonical (scope : Scope) {b b' : Bindings} (h : b.canonical = b'.canonical)
    (name : String) :
    (lookup scope b name).map Value.canonical = (lookup scope b' name).map Value.canonical := by
  have hget : (b.get name).map Value.canonical = (b'.get name).map Value.canonical := by
    rw [← Bindings.get_canonical, h, Bindings.get_canonical]
  unfold lookup
  cases hb : b.get name with
  | none =>
    rw [hb] at hget
    rw [Option.map_eq_none_iff.1 hget.symm]
  | some v =>
    rw [hb] at hget
    rcases Option.map_eq_some_iff.1 hget.symm with ⟨v', hb', heq⟩
    rw [hb']
    exact congrArg Except.ok heq.symm

variable {scope : Scope} {result : NodeId → Eval Value}

section Rules

variable (hresult : ∀ c, Blind unoriented.alike (result c) (result c))
include hresult

/-- Both the edge and the workspace may be oriented differently. -/
theorem evaluateGuard_blind (guard : Guard) {e e' : Incidence} (he : e.canonical = e'.canonical) :
    Blind Eq (evaluateGuard scope result guard e) (evaluateGuard scope result guard e') := by
  have htrue : ∀ {v v' : Value}, v.canonical = v'.canonical → v.isTrue = v'.isTrue :=
    Value.congr_of_canonical Value.isTrue_canonical
  rcases guard with ⟨predicate, _ | x⟩
  · exact (hresult predicate).bind fun v v' hv => .pure (htrue hv)
  · intro w w' hw
    rcases hresult predicate _ _ (Workspace.canonical_entered hw scope.nodes predicate x he) with
      ⟨hvalue, hlater⟩
    rw [evaluateGuard_apply, evaluateGuard_apply]
    rcases hx : result predicate (w.entered scope.nodes predicate x e) with ⟨o, w₁⟩
    rcases hy : result predicate (w'.entered scope.nodes predicate x e') with ⟨o', w₁'⟩
    rw [hx, hy] at hvalue hlater
    cases hvalue with
    | ok hv => exact ⟨.ok (htrue hv), Workspace.canonical_left hlater⟩
    | error failure =>
      -- An error takes the binding back, an abandoned evaluation leaves it; both do so alike.
      cases failure with
      | error error => exact ⟨.error _, Workspace.canonical_left hlater⟩
      | _ => exact ⟨.error _, hlater⟩

variable (hfunctions : scope.functions.Unoriented)
include hfunctions

theorem host_blind : Host.Agrees blindness unoriented (host scope result) (host scope result) where
  result := hresult
  guard e _ := evaluateGuard_blind hresult _ rfl
  lookup name := Blind.getBindings.bind fun b b' hb => .ofExcept (lookup_canonical scope hb name)
  call function args args' hargs := by
    refine Blind.callNumber.bind ?_
    rintro n _ rfl
    have hcalls : args.map Value.canonical = args'.map Value.canonical := by
      rwa [← List.forall₂_eq_eq_eq, List.forall₂_map_left_iff, List.forall₂_map_right_iff]
    have hanswers := hfunctions n function args args' hcalls
    rcases outcomes_of_map_eq hanswers with ⟨v, v', hv, hv', heq⟩ | ⟨failure, hv, hv'⟩
    · simp only [hv, hv']
      exact .pure heq
    · simp only [hv, hv']
      exact .throw _ failure
  fresh := .fresh
  handle := .freshHandle

/-! ## Behind the cache -/

theorem rule_blind (id : NodeId) (node : Node) :
    Blind unoriented.alike (rule scope result id node) (rule scope result id node) := by
  rw [← host_rule]
  exact (host_blind hresult hfunctions).rule scope id (fun _ _ => rfl) fun _ _ => trivial

theorem compute_blind (id : NodeId) (node : Node) :
    Blind unoriented.alike (compute scope result id node) (compute scope result id node) := by
  intro w w' hw
  rcases rule_blind hresult hfunctions id node w w' hw with ⟨hvalue, hlater⟩
  rw [compute_apply, compute_apply]
  rcases hx : rule scope result id node w with ⟨o, w₁⟩
  rcases hy : rule scope result id node w' with ⟨o', w₁'⟩
  rw [hx, hy] at hvalue hlater
  have hcache : w₁.cache.canonical = w₁'.cache.canonical := (canonical_eq_iff.1 hlater).1
  cases hvalue with
  | @ok v v' hv =>
    have hv' : v.canonical = v'.canonical := hv
    refine ⟨.ok hv, canonical_withCache hlater ?_⟩
    rw [Cache.canonical_finish, hcache, hv', Cache.canonical_finish]
  | error failure =>
    cases failure with
    | error e =>
      refine ⟨.error _, canonical_withCache hlater ?_⟩
      rw [Cache.canonical_abort, hcache, Cache.canonical_abort]
    | _ => exact ⟨.error _, hlater⟩

theorem step_blind (id : NodeId) :
    Blind unoriented.alike (step scope result id) (step scope result id) := by
  intro w w' hw
  cases hget : scope.nodes.get id with
  | error e =>
    rw [step_of_error hget, step_of_error hget]
    exact ⟨.error _, hw⟩
  | ok node =>
    have hcache := (canonical_eq_iff.1 hw).1
    have hmemo : (w.cache.memo id).canonical = (w'.cache.memo id).canonical := by
      rw [← Cache.memo_canonical, hcache, Cache.memo_canonical]
    have hextend : (w.cache.extend id).canonical = (w'.cache.extend id).canonical := by
      rw [Cache.canonical_extend, hcache, Cache.canonical_extend]
    have hstart : (w.cache.start id).canonical = (w'.cache.start id).canonical := by
      rw [Cache.canonical_start, hcache, Cache.canonical_start]
    rw [step_apply hget, step_apply hget]
    -- Both memos are of one kind, since orientation is all that they differ in.
    rcases hm : w.cache.memo id with _ | _ | v <;> rcases hm' : w'.cache.memo id with _ | _ | v' <;>
      rw [hm, hm'] at hmemo
    case uninitialized.uninitialized =>
      exact compute_blind hresult hfunctions id node _ _ (canonical_withCache hw hstart)
    case inProgress.inProgress => exact ⟨.error _, canonical_withCache hw hextend⟩
    case done.done => exact ⟨.ok (Memo.done.inj hmemo), canonical_withCache hw hextend⟩
    all_goals cases hmemo

end Rules

/-! ## Evaluations -/

section Evaluations

variable (scope) (hfunctions : scope.functions.Unoriented)
include hfunctions

theorem resultWithin_blind (depth : Nat) (id : NodeId) :
    Blind unoriented.alike (resultWithin scope depth id) (resultWithin scope depth id) := by
  induction depth generalizing id with
  | zero => exact .throw _ .exhausted
  | succ depth ih => exact step_blind ih hfunctions id

theorem guard_blind (γ : Guard) {e e' : Incidence} (he : e.canonical = e'.canonical) :
    Blind Eq (guard scope γ e) (guard scope γ e') :=
  evaluateGuard_blind (resultWithin_blind scope hfunctions (scope.nodes.size + 1)) γ he

end Evaluations

/-- Asked about an edge from its other end, a guard gives the same verdict or the same error.  What
is known afterwards differs at most in the orientation of that edge. -/
theorem guard_reversed (graph : Graph) (nodes : SyntaxGraph) (shared : Option SharedEnvironment)
    (limits : Limits) (γ : Guard) (e : Incidence) (w : Workspace) :
    (guard { graph, nodes, shared, limits } γ e.reversed w).1 =
        (guard { graph, nodes, shared, limits } γ e w).1 ∧
      (guard { graph, nodes, shared, limits } γ e.reversed w).2.canonical =
        (guard { graph, nodes, shared, limits } γ e w).2.canonical := by
  have hblind := guard_blind { graph, nodes, shared, limits } FunctionLibrary.unoriented_builtin γ
    e.canonical_reversed w w rfl
  rcases hblind with ⟨houtcomes, hlater⟩
  exact ⟨houtcomes.eq, hlater⟩

end Evaluation
end PathQuery

import PathQuery.Proofs.Evaluation.Agreement
import PathQuery.Proofs.Evaluation.Transparent

/-!
# Evaluations that are watched

The value of a node does not show in which order other nodes were asked for on the way.  Here some
nodes are watched: whenever the rule of one of them asks for a node that is none of them, that is
written down.

* `Cache.enter`: what is done with the outcome of a rule;
* `Watched.evaluate`, `Watched.result`: the value of a node while some nodes are watched;
* `forgetting`: evaluations that come to the same when nothing is written down;
* `evaluate_forgets`, `result_of_watched`: being watched changes nothing;
* `evaluate_of_mem`, `evaluate_of_notMem`: the rule of a watched node, and what is written down.
-/

namespace PathQuery

/-- The rule of the node has ended. -/
def Cache.enter (cache : Cache) (id : NodeId) : Except Failure Value → Cache
  | .ok value => cache.finish id value
  | .error (.error _) => cache.abort id
  | .error _ => cache

theorem Cache.memo_enter_of_ne (cache : Cache) (outcome : Except Failure Value) {id n : NodeId}
    (hn : n ≠ id) : (cache.enter id outcome).memo n = cache.memo n := by
  cases outcome with
  | ok value => rw [enter, memo_finish, if_neg hn]
  | error failure =>
    cases failure with
    | error e => rw [enter, memo_abort, if_neg hn]
    | _ => rfl

theorem Evaluation.compute_eq_enter {scope : Scope} {result : NodeId → Eval Value} {id : NodeId}
    {node : Node} (w : Workspace) :
    compute scope result id node w =
      match rule scope result id node w with
      | (outcome, w) => (outcome, { w with cache := w.cache.enter id outcome }) := by
  rw [compute_apply]
  rcases rule scope result id node w with ⟨(_ | _ | _) | v, w₁⟩ <;> rfl

/-! ## Watched nodes -/

/-- Evaluations with a list of what was asked for, the earliest first. -/
abbrev Watched (α : Type) := ExceptT Failure (StateM (Workspace × List NodeId)) α

namespace Watched

open Evaluation

/-- An evaluation of which nothing is written down. -/
def lift {α : Type} (x : Eval α) : Watched α :=
  fun s =>
    let (outcome, w) := x s.1
    (outcome, (w, s.2))

def note (n : NodeId) : Watched Unit :=
  modify fun s => (s.1, s.2 ++ [n])

/-- The condition of a guard is asked for by the guard and not by the rule that meets it. -/
def host (scope : Scope) (result : NodeId → Watched Value) (unwatched : NodeId → Eval Value) :
    Host (ExceptT Failure (StateM (Workspace × List NodeId))) where
  result
  guard guard e := lift (evaluateGuard scope unwatched guard e)
  lookup name := lift (readVariable scope name)
  call function values := lift (callFunction scope function values)
  fresh x := lift (Eval.fresh x)
  handle := lift Eval.freshHandle

def compute (id : NodeId) (x : Watched Value) : Watched Value :=
  fun s =>
    let (outcome, w, asked) := x s
    (outcome, ({ w with cache := w.cache.enter id outcome }, asked))

def step (scope : Scope) (rule : Node → Watched Value) (id : NodeId) : Watched Value := do
  let node ← Host.ofExcept (scope.nodes.get id)
  let known ← lift <| modifyGet fun w =>
    let (known, cache) := w.cache.begin id
    (known, { w with cache })
  match ← Host.ofExcept known with
  | some value => pure value
  | none => compute id (rule node)

/-- The value of a node, with a bound on how deep evaluations may nest. -/
def evaluate (scope : Scope) (watched : List NodeId) : Nat → NodeId → Watched Value
  | 0, _ => throwThe Failure .exhausted
  | depth + 1, id =>
    if id ∈ watched then
      step scope ((host scope (evaluate scope watched depth) (resultWithin scope depth)).rule scope
        id) id
    else do
      note id
      lift (resultWithin scope (depth + 1) id)

def result (scope : Scope) (watched : List NodeId) (id : NodeId) : Watched Value :=
  evaluate scope watched (scope.nodes.size + 1) id

section Apply

variable {scope : Scope} {rule : Node → Watched Value} {id : NodeId} {node : Node}

theorem step_of_error {e : EvalError} (hget : scope.nodes.get id = .error e) (w : Workspace)
    (asked : List NodeId) : step scope rule id (w, asked) = (.error (.error e), (w, asked)) := by
  unfold step
  rw [hget]
  rfl

theorem step_apply (hget : scope.nodes.get id = .ok node) (w : Workspace) (asked : List NodeId) :
    step scope rule id (w, asked) =
      match w.cache.memo id with
      | .done v => (.ok v, ({ w with cache := w.cache.extend id }, asked))
      | .inProgress =>
        (.error (.error (.cyclicEvaluation id)), ({ w with cache := w.cache.extend id }, asked))
      | .uninitialized =>
        compute id (rule node) ({ w with cache := w.cache.start id }, asked) := by
  have hasked : step scope rule id (w, asked) =
      match w.cache.begin id with
      | (known, cache) =>
        (do match ← Host.ofExcept known with
            | some value => pure value
            | none => compute id (rule node) : Watched Value)
          ({ w with cache }, asked) := by
    unfold step
    rw [hget]
    rfl
  rw [hasked, Cache.begin]
  cases w.cache.memo id <;> rfl

end Apply

/-! ## Being watched changes nothing -/

section Forgets

variable {α γ : Type}

/-- How an evaluation ends while nodes are watched, and how it does otherwise. -/
inductive Forgotten (r : α → α → Prop) :
    Except Failure α × Workspace × List NodeId → Except Failure α × Workspace → Prop where
  | ok {a b : α} (w : Workspace) (asked : List NodeId) : r a b →
    Forgotten r (.ok a, w, asked) (.ok b, w)
  | error (failure : Failure) (w : Workspace) (asked : List NodeId) :
    Forgotten r (.error failure, w, asked) (.error failure, w)

theorem Forgotten.eq {o : Except Failure α × Workspace × List NodeId}
    {o' : Except Failure α × Workspace} (h : Forgotten Eq o o') :
    o = (o'.1, (o'.2, o.2.2)) := by
  cases h with
  | ok w asked heq =>
    cases heq
    rfl
  | error failure w asked => rfl

def Forgets (r : α → α → Prop) (x : Watched α) (y : Eval α) : Prop :=
  ∀ w asked, Forgotten r (x (w, asked)) (y w)

namespace Forgets

variable {r : α → α → Prop} {s : γ → γ → Prop} {x : Watched α} {y : Eval α}

theorem bind {f : α → Watched γ} {k : α → Eval γ} (hxy : Forgets r x y)
    (h : ∀ a b, r a b → Forgets s (f a) (k b)) : Forgets s (x >>= f) (y >>= k) := by
  intro w asked
  have hends := hxy w asked
  rw [bind_apply, bind_apply]
  generalize x (w, asked) = o at hends ⊢
  generalize y w = o' at hends ⊢
  cases hends with
  | ok w asked hab => exact h _ _ hab w asked
  | error failure w asked => exact .error failure w asked

theorem lift (h : ∀ w b w', y w = (.ok b, w') → r b b) : Forgets r (Watched.lift y) y := by
  intro w asked
  rw [Watched.lift]
  rcases hy : y w with ⟨failure | b, w'⟩
  · exact .error failure w' asked
  · exact .ok w' asked (h w b w' hy)

theorem lift_eq (y : Eval α) : Forgets Eq (Watched.lift y) y :=
  .lift fun _ _ _ _ => rfl

end Forgets

def forgetting :
    Lifting (ExceptT Failure (StateM (Workspace × List NodeId)))
      (ExceptT Failure (StateM Workspace)) where
  rel := Forgets
  pure hab w asked := .ok w asked hab
  throw _ failure w asked := .error failure w asked
  bind := .bind

/-- Values and guards that are the same. -/
def same : Likeness where
  alike := Eq
  admits _ := True
  canonical_eq := congrArg Value.canonical
  simple _ := rfl
  automaton _ _ _ := rfl
  pathSystem _ _ := rfl
  guardedBy _ := fun _ _ _ _ _ _ => trivial

end Forgets

section Evaluate

variable {scope : Scope} {children : NodeId → Watched Value} {children' : NodeId → Eval Value}

theorem host_forgets (h : ∀ c, Forgets Eq (children c) (children' c)) :
    Host.Agrees forgetting same (host scope children children')
      (Evaluation.host scope children') where
  result := h
  guard {γ} e _ := Forgets.lift_eq (evaluateGuard scope children' γ e)
  lookup name := Forgets.lift_eq (readVariable scope name)
  call function args args' hargs := by
    obtain rfl := List.forall₂_eq_eq_eq ▸ hargs
    exact Forgets.lift_eq (callFunction scope function args)
  fresh {x p} hp := by
    refine Forgets.lift (y := Eval.fresh x) ?_
    rintro w _ _ ⟨⟩
    exact ⟨rfl, hp _⟩
  handle := Forgets.lift_eq Eval.freshHandle

theorem rule_forgets (h : ∀ c, Forgets Eq (children c) (children' c)) (id : NodeId) (node : Node) :
    Forgets Eq ((host scope children children').rule scope id node)
      (Evaluation.rule scope children' id node) := by
  rw [← host_rule]
  exact (host_forgets h).rule scope id (fun _ _ => rfl) fun _ _ => trivial

theorem compute_forgets {id : NodeId} {node : Node} {x : Watched Value}
    (h : Forgets Eq x (Evaluation.rule scope children' id node)) :
    Forgets Eq (compute id x) (Evaluation.compute scope children' id node) := by
  intro w asked
  have hends := h w asked
  rw [compute_eq_enter, compute]
  generalize x (w, asked) = o at hends ⊢
  generalize Evaluation.rule scope children' id node w = o' at hends ⊢
  cases hends with
  | ok w asked hab =>
    cases hab
    exact .ok _ asked rfl
  | error failure w asked => exact .error failure _ asked

theorem step_forgets {rule : Node → Watched Value} {id : NodeId}
    (h : ∀ node, Forgets Eq (rule node) (Evaluation.rule scope children' id node)) :
    Forgets Eq (step scope rule id) (Evaluation.step scope children' id) := by
  intro w asked
  cases hget : scope.nodes.get id with
  | error e =>
    rw [step_of_error hget, Evaluation.step_of_error hget]
    exact .error _ w asked
  | ok node =>
    rw [step_apply hget, Evaluation.step_apply hget]
    cases w.cache.memo id with
    | done v => exact .ok _ asked rfl
    | inProgress => exact .error _ _ asked
    | uninitialized => exact compute_forgets (h node) _ asked

theorem evaluate_forgets (scope : Scope) (watched : List NodeId) (depth : Nat) (id : NodeId) :
    Forgets Eq (evaluate scope watched depth id) (resultWithin scope depth id) := by
  induction depth generalizing id with
  | zero => exact fun w asked => .error _ w asked
  | succ depth ih =>
    unfold evaluate
    split
    · exact step_forgets (rule_forgets ih id)
    · intro w asked
      exact Forgets.lift_eq (resultWithin scope (depth + 1) id) w (asked ++ [id])

variable {watched asked : List NodeId} {depth : Nat} {id : NodeId} {w : Workspace}

theorem result_of_watched {outcome : Except Failure Value} {w₁ : Workspace} {asked₁ : List NodeId}
    (h : result scope watched id (w, asked) = (outcome, (w₁, asked₁))) :
    Evaluation.result scope id w = (outcome, w₁) := by
  have hforgets : Forgotten Eq (result scope watched id (w, asked))
      (Evaluation.result scope id w) :=
    evaluate_forgets scope watched (scope.nodes.size + 1) id w asked
  rw [h] at hforgets
  cases hforgets.eq
  rfl

theorem evaluate_of_mem (hid : id ∈ watched) {node : Node} (hget : scope.nodes.get id = .ok node)
    (hmemo : w.cache.memo id = .uninitialized) (asked : List NodeId) :
    evaluate scope watched (depth + 1) id (w, asked) =
      compute id ((host scope (evaluate scope watched depth) (resultWithin scope depth)).rule scope
        id node) ({ w with cache := w.cache.start id }, asked) := by
  rw [evaluate, if_pos hid, step_apply hget, hmemo]

theorem evaluate_of_notMem (hid : id ∉ watched) (asked : List NodeId) :
    evaluate scope watched (depth + 1) id (w, asked) =
      lift (resultWithin scope (depth + 1) id) (w, asked ++ [id]) := by
  rw [evaluate, if_neg hid]
  rfl

end Evaluate

end Watched
end PathQuery

import PathQuery.Proofs.Evaluation.Guards
import PathQuery.Proofs.Evaluation.Host
import PathQuery.Proofs.Syntax.Dependence

/-!
# Evaluations with a journal

The cache tells what is known, but not how it came to be known.  Here the rules are run over a monad
that also writes down what happens to the cache: when the rule of a node has given a value, and when
a guard has everything below its condition forgotten.

* `Journal`: the notes, the latest one first;
* `Journal.Current`: the node was evaluated and has not been reset since;
* `Journal.Thrifty`: nothing was evaluated while it was current;
* `count_evaluated_le_one`: so what no reset reaches was evaluated once;
* `Journaled.result`: the value of a node, with a journal.
-/

namespace PathQuery

inductive Note where
  | evaluated (node : NodeId)
  | reset (root : NodeId)
  deriving DecidableEq, Repr

abbrev Journal := List Note

namespace Journal

variable (nodes : SyntaxGraph)

def Current (n : NodeId) : Journal → Prop
  | [] => False
  | .evaluated m :: earlier => m = n ∨ Current n earlier
  | .reset root :: earlier => ¬ nodes.Below root n ∧ Current n earlier

def Thrifty : Journal → Prop
  | [] => True
  | .evaluated n :: earlier => ¬ Current nodes n earlier ∧ Thrifty earlier
  | .reset _ :: earlier => Thrifty earlier

variable {nodes} {n : NodeId} {journal : Journal}

theorem Thrifty.of_cons {note : Note} (h : Thrifty nodes (note :: journal)) :
    Thrifty nodes journal := by
  cases note with
  | evaluated m => exact h.2
  | reset root => exact h

/-- What no reset reaches stays current. -/
theorem current_of_mem (hresets : ∀ root, .reset root ∈ journal → ¬ nodes.Below root n)
    (h : .evaluated n ∈ journal) : Current nodes n journal := by
  induction journal with
  | nil => cases h
  | cons note earlier ih =>
    have hearlier := ih fun root hroot => hresets root (List.mem_cons_of_mem note hroot)
    cases note with
    | evaluated m =>
      rcases List.mem_cons.1 h with heq | hmem
      · exact .inl (Note.evaluated.inj heq).symm
      · exact .inr (hearlier hmem)
    | reset root =>
      rcases List.mem_cons.1 h with heq | hmem
      · cases heq
      · exact ⟨hresets root List.mem_cons_self, hearlier hmem⟩

theorem count_evaluated_le_one (hthrifty : Thrifty nodes journal)
    (hresets : ∀ root, .reset root ∈ journal → ¬ nodes.Below root n) :
    journal.count (.evaluated n) ≤ 1 := by
  induction journal with
  | nil => exact Nat.zero_le 1
  | cons note earlier ih =>
    have hearlier : ∀ root, .reset root ∈ earlier → ¬ nodes.Below root n :=
      fun root hroot => hresets root (List.mem_cons_of_mem note hroot)
    by_cases hnote : note = .evaluated n
    · subst hnote
      -- Had it been evaluated before, it would still be current.
      have hnew : .evaluated n ∉ earlier := fun hmem => hthrifty.1 (current_of_mem hearlier hmem)
      calc
        (.evaluated n :: earlier : Journal).count (.evaluated n)
            = earlier.count (.evaluated n) + 1 := List.count_cons_self
        _ = 1 := congrArg (· + 1) (List.count_eq_zero_of_not_mem hnew)
        _ ≤ 1 := Nat.le_refl 1
    · rw [List.count_cons_of_ne hnote]
      exact ih hthrifty.of_cons hearlier

end Journal

/-! ## Evaluations -/

abbrev Journaled (α : Type) := ExceptT Failure (StateM (Workspace × Journal)) α

namespace Journaled

/-- An evaluation of which nothing is noted. -/
def lift {α : Type} (x : Eval α) : Journaled α :=
  fun s =>
    let (outcome, w) := x s.1
    (outcome, (w, s.2))

def note (n : Note) : Journaled Unit :=
  modify fun s => (s.1, n :: s.2)

def outcome {α : Type} (x : Journaled α) : Journaled (Except Failure α) :=
  fun s =>
    let (r, s) := x s
    (.ok r, s)

section Rules

variable (scope : Scope) (result : NodeId → Journaled Value)

def guard (guard : Guard) (e : Incidence) : Journaled Bool :=
  match guard.thisEdge with
  | none => do
    let value ← result guard.predicate
    pure value.isTrue
  | some name => do
    lift (Eval.modifyCache (·.resetFrom scope.nodes guard.predicate))
    note (.reset guard.predicate)
    lift (Eval.modifyBindings (·.push name (.edge e)))
    match ← outcome (result guard.predicate) with
    | .ok value =>
      lift (Eval.modifyBindings (·.pop.2))
      pure value.isTrue
    | .error (.error e) =>
      lift (Eval.modifyBindings (·.pop.2))
      Host.fail e
    | .error failure => throwThe Failure failure

def host : Host (ExceptT Failure (StateM (Workspace × Journal))) where
  result
  guard := guard scope result
  lookup name := lift (Evaluation.readVariable scope name)
  call function values := lift (Evaluation.callFunction scope function values)
  fresh x := lift (Eval.fresh x)
  handle := lift Eval.freshHandle

def compute (id : NodeId) (node : Node) : Journaled Value := do
  match ← outcome ((host scope result).rule scope id node) with
  | .ok value =>
    lift (Eval.modifyCache (·.finish id value))
    note (.evaluated id)
    pure value
  | .error (.error e) =>
    lift (Eval.modifyCache (·.abort id))
    Host.fail e
  | .error failure => throwThe Failure failure

def step (id : NodeId) : Journaled Value := do
  let node ← Host.ofExcept (scope.nodes.get id)
  let known ← lift <| modifyGet fun w =>
    let (known, cache) := w.cache.begin id
    (known, { w with cache })
  match ← Host.ofExcept known with
  | some value => pure value
  | none => compute scope result id node

end Rules

def resultWithin (scope : Scope) : Nat → NodeId → Journaled Value
  | 0, _ => throwThe Failure .exhausted
  | depth + 1, id => step scope (resultWithin scope depth) id

def result (scope : Scope) (id : NodeId) : Journaled Value :=
  resultWithin scope (scope.nodes.size + 1) id

/-! ## What evaluations do -/

variable {scope : Scope} {children : NodeId → Journaled Value} {id : NodeId} {node : Node}

theorem guard_apply {predicate : NodeId} {x : String} {e : Incidence} (w : Workspace)
    (journal : Journal) :
    guard scope children ⟨predicate, some x⟩ e (w, journal) =
      match children predicate (w.entered scope.nodes predicate x e, .reset predicate :: journal)
        with
      | (.ok v, (w, journal)) => (.ok v.isTrue, (w.left, journal))
      | (.error (.error e), (w, journal)) => (.error (.error e), (w.left, journal))
      | (.error failure, s) => (.error failure, s) := by
  have hbound : guard scope children ⟨predicate, some x⟩ e (w, journal) =
      match children predicate (w.entered scope.nodes predicate x e, .reset predicate :: journal)
        with
      | (r, s) => (match r with
        | .ok v => do
          lift (Eval.modifyBindings (·.pop.2))
          pure v.isTrue
        | .error (.error e) => do
          lift (Eval.modifyBindings (·.pop.2))
          Host.fail e
        | .error failure => throwThe Failure failure : Journaled Bool) s := rfl
  rw [hbound]
  rcases children predicate (w.entered scope.nodes predicate x e, .reset predicate :: journal) with
    ⟨(_ | _ | _) | v, w₁⟩ <;> rfl

theorem compute_apply (w : Workspace) (journal : Journal) :
    compute scope children id node (w, journal) =
      match (host scope children).rule scope id node (w, journal) with
      | (.ok v, (w, journal)) =>
        (.ok v, ({ w with cache := w.cache.finish id v }, .evaluated id :: journal))
      | (.error (.error e), (w, journal)) =>
        (.error (.error e), ({ w with cache := w.cache.abort id }, journal))
      | (.error failure, s) => (.error failure, s) := by
  unfold compute
  rw [bind_apply, outcome]
  rcases (host scope children).rule scope id node (w, journal) with ⟨(_ | _ | _) | v, w₁⟩ <;> rfl

theorem step_of_error {e : EvalError} (hget : scope.nodes.get id = .error e) (w : Workspace)
    (journal : Journal) :
    step scope children id (w, journal) = (.error (.error e), (w, journal)) := by
  unfold step
  rw [hget]
  rfl

theorem step_apply (hget : scope.nodes.get id = .ok node) (w : Workspace) (journal : Journal) :
    step scope children id (w, journal) =
      match w.cache.memo id with
      | .done v => (.ok v, ({ w with cache := w.cache.extend id }, journal))
      | .inProgress =>
        (.error (.error (.cyclicEvaluation id)), ({ w with cache := w.cache.extend id }, journal))
      | .uninitialized =>
        compute scope children id node ({ w with cache := w.cache.start id }, journal) := by
  have hasked : step scope children id (w, journal) =
      match w.cache.begin id with
      | (known, cache) =>
        (do match ← Host.ofExcept known with
            | some value => pure value
            | none => compute scope children id node : Journaled Value)
          ({ w with cache }, journal) := by
    unfold step
    rw [hget]
    rfl
  rw [hasked, Cache.begin]
  cases w.cache.memo id <;> rfl

end Journaled
end PathQuery

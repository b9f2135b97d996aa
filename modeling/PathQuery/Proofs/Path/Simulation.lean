import PathQuery.Path.Traversal
import PathQuery.Proofs.Automaton.WellFormed

/-!
# Traversals over related monads

A traversal does nothing with its monad but return, throw, sequence and test edges.  So whatever
relates the tests of two traversals, and is kept by these, relates the traversals.

* `PartialSimulation m n`: a relation between computations that is kept by returning, sequencing
  and throwing some failures;
* `PartialSimulation.Allows`: what a traversal throws itself is among these failures;
* `PartialSimulation.traverse`, `PartialSimulation.pathSystem` and so on: related tests give
  related traversals;
* `Simulation m n`: the same with all failures, so that any automaton will do.
-/

namespace PathQuery

structure PartialSimulation (m n : Type → Type) [Monad m] [Monad n] [MonadExceptOf Failure m]
    [MonadExceptOf Failure n] where
  rel {α : Type} : m α → n α → Prop
  /-- The failures that can be thrown on both sides. -/
  throws : Failure → Prop
  pure {α : Type} (r : α) : rel (Pure.pure r) (Pure.pure r)
  throw {α : Type} {failure : Failure} : throws failure →
    rel (throw failure : m α) (throw failure)
  bind {α γ : Type} {x : m α} {y : n α} {f : α → m γ} {k : α → n γ} :
    rel x y → (∀ r, rel (f r) (k r)) → rel (x >>= f) (y >>= k)

structure Simulation (m n : Type → Type) [Monad m] [Monad n] [MonadExceptOf Failure m]
    [MonadExceptOf Failure n] where
  rel {α : Type} : m α → n α → Prop
  pure {α : Type} (r : α) : rel (Pure.pure r) (Pure.pure r)
  throw {α : Type} (failure : Failure) : rel (throw failure : m α) (throw failure)
  bind {α γ : Type} {x : m α} {y : n α} {f : α → m γ} {k : α → n γ} :
    rel x y → (∀ r, rel (f r) (k r)) → rel (x >>= f) (y >>= k)

variable {m n : Type → Type} [Monad m] [Monad n] [MonadExceptOf Failure m]
  [MonadExceptOf Failure n]

namespace PartialSimulation

/-- A traversal with the automaton throws nothing else by itself. -/
structure Allows (R : PartialSimulation m n) (a : Automaton) : Prop where
  limit (limit : Nat) : R.throws (.error (.traversalLimit limit))
  missing {fault : BuildFault} : a.missing a.initial = some fault →
    R.throws (.panic (some fault.message))

variable (R : PartialSimulation m n)

theorem foldlM {α γ : Type} {f : α → γ → m α} {k : α → γ → n α} {xs : List γ}
    (h : ∀ x ∈ xs, ∀ s, R.rel (f s x) (k s x)) (s : α) :
    R.rel (xs.foldlM f s) (xs.foldlM k s) := by
  induction xs generalizing s with
  | nil =>
    exact R.pure s
  | cons x xs ih =>
    rw [List.foldlM_cons, List.foldlM_cons]
    refine R.bind (h x List.mem_cons_self s) ?_
    intro t
    exact ih (fun y hy => h y (List.mem_cons_of_mem x hy)) t

variable (limits : Limits) (g : Graph) {a : Automaton} (hallows : R.Allows a)
include hallows

theorem visit (v : Nat) (step : PathStep) (search : Search) (s : StateId) :
    R.rel (Traversal.visit limits a v step search s) (Traversal.visit limits a v step search s) := by
  unfold Traversal.visit
  split
  · exact R.pure search
  · split
    · exact R.throw (hallows.limit _)
    · exact R.pure _

theorem visitAll (v : Nat) (step : PathStep) (search : Search) (states : IdSet) :
    R.rel (Traversal.visitAll limits a v step search states)
      (Traversal.visitAll limits a v step search states) :=
  R.foldlM (fun s _ search => R.visit limits hallows v step search s) search

theorem seed (start : IdSet) :
    R.rel (Traversal.seed limits a g start) (Traversal.seed limits a g start) := by
  refine R.foldlM ?_ ({} : Search)
  intro v _ search
  refine R.bind ?_ fun states => R.visitAll limits hallows v _ search states
  unfold Traversal.initialStates
  split
  · exact R.throw (hallows.missing ‹_›)
  · exact R.pure _

section Tests

variable {accepts : Transition → Nat → Incidence → m Bool}
  {accepts' : Transition → Nat → Incidence → n Bool}

theorem takeEdge {t : Transition} (ht : ∀ v e, R.rel (accepts t v e) (accepts' t v e)) (p : Pair)
    (search : Search) (e : Incidence) :
    R.rel (Traversal.takeEdge accepts limits a g p t search e)
      (Traversal.takeEdge accepts' limits a g p t search e) := by
  refine R.bind (ht p.vertex e) ?_
  intro accepted
  cases accepted with
  | false =>
    exact R.pure search
  | true =>
    simp only [if_true]
    split
    · exact R.pure search
    · exact R.visitAll limits hallows _ _ search _

variable {directionOf : List Transition → Direction}
  (h : ∀ t ∈ a.transitions, t.symbol.isEpsilon = false → ∀ v e,
    R.rel (accepts t v e) (accepts' t v e))
include h

theorem expand (p : Pair) (search : Search) :
    R.rel (Traversal.expand accepts limits a g directionOf p search)
      (Traversal.expand accepts' limits a g directionOf p search) := by
  refine R.foldlM ?_ search
  intro t ht search
  rcases List.mem_filter.1 ht with ⟨hmem, hsymbol⟩
  have hmem := a.mem_of_mem_outTransitions hmem
  refine R.foldlM ?_ search
  intro e _ search
  exact R.takeEdge limits g hallows (h t hmem (by simpa using hsymbol)) p search e

theorem run (bound i : Nat) (search : Search) :
    R.rel (Traversal.run accepts limits a g directionOf bound i search)
      (Traversal.run accepts' limits a g directionOf bound i search) := by
  induction bound generalizing i search with
  | zero =>
    exact R.pure search
  | succ bound ih =>
    unfold Traversal.run
    split
    · exact R.pure search
    · split
      · exact ih (i + 1) search
      · exact R.bind (R.expand limits g hallows h _ search) fun search => ih (i + 1) search

theorem traverseVia (start : IdSet) :
    R.rel (Traversal.traverseVia accepts directionOf limits a g start)
      (Traversal.traverseVia accepts' directionOf limits a g start) := by
  -- The kept closures are no matter of what is thrown.
  have hclosures : R.Allows a.withClosures := ⟨hallows.limit, hallows.missing⟩
  exact R.bind (R.seed limits g hclosures start) fun search => R.run limits g hclosures h _ 0 search

theorem traverse (start : IdSet) :
    R.rel (Traversal.traverse accepts limits a g start)
      (Traversal.traverse accepts' limits a g start) :=
  R.traverseVia limits g hallows h start

theorem reachable (start : IdSet) :
    R.rel (Traversal.reachable accepts limits a g start)
      (Traversal.reachable accepts' limits a g start) :=
  R.bind (R.traverse limits g hallows h start) fun search => R.pure search.accepted

theorem connects (start target : IdSet) :
    R.rel (Traversal.connects accepts limits a g start target)
      (Traversal.connects accepts' limits a g start target) := by
  unfold Traversal.connects
  split
  · exact R.pure false
  · exact R.bind (R.reachable limits g hallows h start) fun found => R.pure _

theorem pathSystem (start : IdSet) :
    R.rel (Traversal.pathSystem accepts limits a g start)
      (Traversal.pathSystem accepts' limits a g start) :=
  R.bind (R.traverse limits g hallows h start) fun _ => R.pure _

end Tests

end PartialSimulation

/-! ## All failures -/

namespace Simulation

variable (R : Simulation m n)

def toPartial : PartialSimulation m n where
  rel := R.rel
  throws _ := True
  pure := R.pure
  throw _ := R.throw _
  bind := R.bind

theorem allows (a : Automaton) : R.toPartial.Allows a :=
  ⟨fun _ => trivial, fun _ => trivial⟩

variable (limits : Limits) (g : Graph) {a : Automaton}
  {accepts : Transition → Nat → Incidence → m Bool}
  {accepts' : Transition → Nat → Incidence → n Bool}
  (h : ∀ t ∈ a.transitions, t.symbol.isEpsilon = false → ∀ v e,
    R.rel (accepts t v e) (accepts' t v e))
include h

theorem traverse (start : IdSet) :
    R.rel (Traversal.traverse accepts limits a g start)
      (Traversal.traverse accepts' limits a g start) :=
  R.toPartial.traverse limits g (R.allows a) h start

theorem reachable (start : IdSet) :
    R.rel (Traversal.reachable accepts limits a g start)
      (Traversal.reachable accepts' limits a g start) :=
  R.toPartial.reachable limits g (R.allows a) h start

theorem connects (start target : IdSet) :
    R.rel (Traversal.connects accepts limits a g start target)
      (Traversal.connects accepts' limits a g start target) :=
  R.toPartial.connects limits g (R.allows a) h start target

theorem pathSystem (start : IdSet) :
    R.rel (Traversal.pathSystem accepts limits a g start)
      (Traversal.pathSystem accepts' limits a g start) :=
  R.toPartial.pathSystem limits g (R.allows a) h start

end Simulation

end PathQuery

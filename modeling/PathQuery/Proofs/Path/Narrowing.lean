import PathQuery.Proofs.Path.Reachability

/-!
# Narrowing the incidences

A traversal asks the graph only for incidences in the directions that the transitions of a state
admit.  The incidences that are left out would have been refused anyway, before a guard is asked,
and the others come in the same order.

* `Graph.incidences_eq_filter`: fewer directions leave out incidences and keep the order;
* `Traversal.Covers`: the directions leave out nothing for which a test has to be made;
* `traverseVia_any`: then a traversal does what it does with all incidences;
* `covers_incidenceDirection`: the directions that are asked for are of this kind;
* `traverse_any`: so every evaluation of a traversal is the same with all incidences.
-/

namespace PathQuery

theorem Graph.incidences_eq_filter (g : Graph) (v : Nat) (d : Direction) :
    g.incidences v d = (g.incidences v .any).filter fun e => d.admits e.normal := by
  unfold incidences
  cases g.vertexData[v]? with
  | none => rfl
  | some data => cases d <;> simp [Direction.admits, List.filter_map, Function.comp_def]

theorem foldlM_congr {m : Type → Type} [Monad m] {α γ : Type} {f k : α → γ → m α} {xs : List γ}
    (h : ∀ x ∈ xs, ∀ s, f s x = k s x) (s : α) : xs.foldlM f s = xs.foldlM k s := by
  induction xs generalizing s with
  | nil => rfl
  | cons x xs ih =>
    rw [List.foldlM_cons, List.foldlM_cons, h x List.mem_cons_self s]
    congr
    funext t
    exact ih (fun y hy => h y (List.mem_cons_of_mem x hy)) t

namespace Traversal

variable {m : Type → Type} [Monad m] [MonadExceptOf Failure m]
  {accepts : Transition → Nat → Incidence → m Bool} {directionOf : List Transition → Direction}

/-- An incidence in another direction is refused by every transition, without any effect. -/
def Covers (accepts : Transition → Nat → Incidence → m Bool)
    (directionOf : List Transition → Direction) : Prop :=
  ∀ (ts : List Transition) (t : Transition) (v : Nat) (e : Incidence), t ∈ ts →
    t.symbol.isEpsilon = false → (directionOf ts).admits e.normal = false →
      accepts t v e = pure false

variable [LawfulMonad m]

theorem takeEdge_of_refused {limits : Limits} {a : Automaton} {g : Graph} {p : Pair}
    {t : Transition} {e : Incidence} (h : accepts t p.vertex e = pure false) (search : Search) :
    takeEdge accepts limits a g p t search e = pure search := by
  simp only [takeEdge, h, pure_bind, Bool.false_eq_true, if_false]

variable (hcovers : Covers accepts directionOf) (limits : Limits) (a : Automaton) (g : Graph)
include hcovers

/-- A transition skips the incidences that are left out. -/
theorem foldlM_incidences (p : Pair) {ts : List Transition} {t : Transition} (ht : t ∈ ts)
    (hsymbol : t.symbol.isEpsilon = false) (search : Search) :
    (g.incidences p.vertex (directionOf ts)).foldlM (takeEdge accepts limits a g p t) search =
      (g.incidences p.vertex .any).foldlM (takeEdge accepts limits a g p t) search := by
  rw [g.incidences_eq_filter p.vertex (directionOf ts), List.foldlM_filter]
  congr
  funext search e
  cases hadmits : (directionOf ts).admits e.normal with
  | true => rw [if_pos rfl]
  | false =>
    rw [if_neg Bool.false_ne_true]
    exact (takeEdge_of_refused (hcovers ts t p.vertex e ht hsymbol hadmits) search).symm

theorem expand_any (p : Pair) (search : Search) :
    expand accepts limits a g directionOf p search =
      expand accepts limits a g (fun _ => .any) p search := by
  unfold expand
  refine foldlM_congr ?_ search
  intro t ht search
  have hsymbol := (List.mem_filter.1 ht).2
  exact foldlM_incidences hcovers limits a g p ht (by simpa using hsymbol) search

theorem run_any (bound i : Nat) (search : Search) :
    run accepts limits a g directionOf bound i search =
      run accepts limits a g (fun _ => .any) bound i search :=
  run_congr (expand_any hcovers limits a g) bound i search

theorem traverseVia_any (start : IdSet) :
    traverseVia accepts directionOf limits a g start =
      traverseVia accepts (fun _ => .any) limits a g start := by
  unfold traverseVia
  simp only [run_any hcovers]

end Traversal

namespace Evaluation

theorem takes_of_not_fits (scope : Scope) (result : NodeId → Eval Value) {t : Transition}
    (hsymbol : t.symbol.isEpsilon = false) (v : Nat) {e : Incidence}
    (h : t.symbol.fits scope.graph e = false) : takes scope result t v e = pure false := by
  rcases t with ⟨source, target, symbol⟩
  cases symbol with
  | epsilon => exact absurd hsymbol Bool.noConfusion
  | step c =>
    have hmatches : c.matchesStructure scope.graph e = false := h
    simp only [takes, accepts, hmatches, Bool.and_false, Bool.false_eq_true, if_false]
  | stepAlong c node =>
    have hmatches : c.matchesStructure scope.graph e = false := h
    simp only [takes, accepts, hmatches, Bool.and_false, Bool.false_eq_true, if_false]

theorem covers_incidenceDirection (scope : Scope) (result : NodeId → Eval Value) :
    Traversal.Covers (takes scope result) Traversal.incidenceDirection := by
  intro ts t v e ht hsymbol hadmits
  refine takes_of_not_fits scope result hsymbol v ?_
  rw [← Bool.not_eq_true]
  intro hfits
  rw [admits_incidenceDirection ht hfits] at hadmits
  cases hadmits

/-- Whatever guards and fixed edges there are: the search, the error and the workspace that is left
are those of a traversal that looks at all incidences. -/
theorem traverse_any (scope : Scope) (a : Automaton) (start : IdSet) (w : Workspace) :
    traverse scope a start w =
      Traversal.traverseVia (takes scope (result scope)) (fun _ => .any) scope.limits a scope.graph
        start w := by
  have hvia := Traversal.traverseVia_any (covers_incidenceDirection scope (result scope))
    scope.limits a scope.graph start
  exact congrFun hvia w

end Evaluation

end PathQuery

import PathQuery.Proofs.Evaluation.Follows

/-!
# Guards that bind the edge

* `Workspace.entered`, `Workspace.left`: what such a guard does before and after its condition;
* `evaluateGuard_apply`: and nothing else;
* `evaluateGuard_follows`: two evaluations of the guard, from two of the condition.
-/

namespace PathQuery

namespace Workspace

def entered (nodes : SyntaxGraph) (predicate : NodeId) (x : String) (e : Incidence)
    (w : Workspace) : Workspace :=
  { w with
    cache := w.cache.resetFrom nodes predicate
    bindings := w.bindings.push x (.edge e) }

def left (w : Workspace) : Workspace :=
  { w with bindings := w.bindings.pop.2 }

end Workspace

namespace Evaluation

open Eval

variable {scope : Scope} {result : NodeId → Eval Value} {predicate : NodeId} {x : String}
  {e : Incidence}

theorem evaluateGuard_apply (w : Workspace) :
    evaluateGuard scope result ⟨predicate, some x⟩ e w =
      match result predicate (w.entered scope.nodes predicate x e) with
      | (.ok v, w) => (.ok v.isTrue, w.left)
      | (.error (.error e), w) => (.error (.error e), w.left)
      | (.error failure, w) => (.error failure, w) := by
  have henter : (⟨w.cache.resetFrom scope.nodes predicate, w.bindings.push x (.edge e), w.supply⟩ :
      Workspace) = w.entered scope.nodes predicate x e := rfl
  unfold evaluateGuard
  simp only [modifyCache_bind_apply, modifyBindings_bind_apply, outcome_bind_apply, henter]
  rcases result predicate (w.entered scope.nodes predicate x e) with ⟨(_ | _ | _) | v, w₁⟩ <;> rfl

variable {T : Terms} {o : Owners} {y : NodeId → Eval Value}

/-- The condition may be compared under terms of its own, which depend on where the guard is
entered. -/
theorem evaluateGuard_follows
    (h : ∀ (o' : Owners) (w w' : Workspace), o.Grows o' → T.left o' w → T.right w' →
      ∃ (U : Terms) (P : Symbol → Prop) (base : Nat) (c : NodeId),
        Follows U (fun o => Value.Alike P base o c) o' (result predicate) (y predicate) ∧
        U.left o' (w.entered scope.nodes predicate x e) ∧
        U.right (w'.entered scope.nodes predicate x e) ∧
        (∀ failure, U.spared failure → T.spared failure) ∧
        (∀ o₁ w₁, o'.Grows o₁ → U.left o₁ w₁ → T.left o₁ w₁.left) ∧
        ∀ w₁', U.right w₁' → T.right w₁'.left) :
    Follows T (fun _ => Eq) o (evaluateGuard scope result ⟨predicate, some x⟩ e)
      (evaluateGuard scope y ⟨predicate, some x⟩ e) := by
  intro o' w w' ho hleft hright
  rcases h o' w w' ho hleft hright with
    ⟨U, P, base, c, hfollows, hentered, hentered', hspared, hexit, hexit'⟩
  have hcondition := hfollows o' _ _ (.refl o') hentered hentered'
  simp only [evaluateGuard_apply]
  rcases hy : y predicate (w'.entered scope.nodes predicate x e) with ⟨failure | v', w₁'⟩
  · rw [hy] at hcondition
    rcases hcondition with hfree | ⟨w₁, hx, hkept⟩
    -- A spared failure passes through the guard whether or not the binding is undone.
    · cases failure <;> exact .inl (hspared _ hfree)
    · rw [hx]
      cases failure with
      | error e =>
        refine .inr ⟨w₁.left, rfl, ?_⟩
        intro _ _
        rcases hkept e rfl with ⟨o₁, ho₁, hleft₁⟩
        exact ⟨o₁, ho₁, hexit o₁ w₁ ho₁ hleft₁⟩
      | _ => exact .inr ⟨w₁, rfl, fun _ heq => by cases heq⟩
  · rw [hy] at hcondition
    rcases hcondition with ⟨v, w₁, o₁, hx, ho₁, hleft₁, hright₁, hv⟩
    rw [hx]
    exact ⟨v.isTrue, w₁.left, o₁, rfl, ho₁, hexit o₁ w₁ ho₁ hleft₁, hexit' w₁' hright₁, hv.isTrue_eq⟩

end Evaluation
end PathQuery

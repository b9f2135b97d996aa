import PathQuery.Proofs.Evaluation.Conducted

/-!
# Evaluations restore their workspace

An evaluation pushes variables and marks entries as being in progress.  Whenever it returns, with a
value or with an error, it has undone both.

* `Workspace.Restored`: what is the same before and after;
* `Conduct.lenient`: the conduct that asks nothing of values and failures, so that every evaluation
  follows it in every workspace;
* `evaluation_restores`: nodes and guards restore the workspace, whatever is being computed around
  them.
-/

namespace PathQuery

/-- The variables and the entries in progress are the same.  All other entries hold a value, or are
as if nobody had asked for them. -/
structure Workspace.Restored (w w₁ : Workspace) : Prop where
  bindings_eq : w₁.bindings = w.bindings
  inProgress_iff (n : NodeId) : w₁.cache.memo n = .inProgress ↔ w.cache.memo n = .inProgress
  settled (n : NodeId) : w.cache.memo n ≠ .inProgress →
    w₁.cache.memo n = .uninitialized ∨ ∃ v, w₁.cache.memo n = .done v

/-- The workspace is restored if the evaluation returns a value or an error. -/
def Eval.Restores {α : Type} (x : Eval α) (w : Workspace) : Prop :=
  x.Ensures w (fun _ w₁ => w.Restored w₁) fun failure w₁ =>
    ∀ e, failure = .error e → w.Restored w₁

/-- Every node may refer to every node, and everything may fail. -/
def Conduct.lenient (scope : Scope) : Conduct scope where
  outside _ := True
  reaches _ _ := True
  asks _ _ := True
  sound := False
  admits _ _ := True
  reaches_of_outside _ := trivial
  reaches_of_asks _ := trivial
  asks_child _ _ := trivial
  asks_of_reaches _ _ := trivial
  admits_of_asks _ _ := trivial
  admits_cyclic _ := trivial
  admits_error _ := trivial
  admits_panic _ := trivial
  literal _ _ := .univ _
  shared _ _ _ := .univ _
  call _ _ := .univ _
  admits_call _ := trivial

namespace Workspace

variable {scope : Scope} {w : Workspace}

theorem held_lenient (scope : Scope) (w : Workspace) :
    w.Held (Conduct.lenient scope) (fun n => w.cache.memo n = .inProgress) w.bindings where
  bindings_eq := rfl
  bound _ := .univ _
  busy_iff := .rfl
  known _ := .univ _

theorem Held.restored {w₁ : Workspace}
    (h : w₁.Held (Conduct.lenient scope) (fun n => w.cache.memo n = .inProgress) w.bindings) :
    w.Restored w₁ where
  bindings_eq := h.bindings_eq
  inProgress_iff _ := h.busy_iff
  settled n hn := by
    cases hmemo : w₁.cache.memo n with
    | uninitialized => exact .inl rfl
    | inProgress => exact absurd (h.busy_iff.1 hmemo) hn
    | done v => exact .inr ⟨v, rfl⟩

end Workspace

namespace Evaluation

open Eval

theorem result_lenient (scope : Scope) (busy : NodeId → Prop) (id : NodeId) :
    Behaves (Conduct.lenient scope) busy id (Value.Fits False fun _ => True) (result scope id) :=
  resultWithin_behaves (fun _ => trivial) _ trivial fun _ _ => trivial

theorem restores_of_lenient {α : Type} {scope : Scope} {right : α → Prop} {x : Eval α} {id : NodeId}
    (hx : ∀ busy, Behaves (Conduct.lenient scope) busy id right x) (w : Workspace) :
    x.Restores w :=
  (hx _ _ w (w.held_lenient scope)).mono (fun _ _ h => h.1.restored)
    fun _ _ hbroken _ he => (hbroken.held he).restored

theorem guard_lenient (scope : Scope) (busy : NodeId → Prop) (g : Guard) (e : Incidence) :
    Behaves (Conduct.lenient scope) busy g.predicate (fun _ => True) (guard scope g e) :=
  evaluateGuard_behaves (fun c _ => (result_lenient scope busy c).asked trivial) trivial e

/-- In any workspace, with any entries in progress, for any node and any guard. -/
theorem evaluation_restores (scope : Scope) (w : Workspace) :
    (∀ id, (result scope id).Restores w) ∧ ∀ g e, (guard scope g e).Restores w :=
  ⟨fun id => restores_of_lenient (fun busy => result_lenient scope busy id) w,
    fun g e => restores_of_lenient (fun busy => guard_lenient scope busy g e) w⟩

end Evaluation
end PathQuery

import PathQuery.Proofs.Evaluation.Termination

/-!
# Evaluations that stay in a region

* `Scope.Encloses`: nothing leads out of a region of nodes, neither the syntax nor the values that
  the nodes of the region can come by;
* `Encloses.conduct`, `resultWithin_keeps`: an evaluation in the region changes nothing that is known
  about other nodes;
* `resultWithin_inStep`: it ends in the same way, and leaves the same behind, wherever the same is
  known about the region, and however many nodes are being computed around it.
-/

namespace PathQuery

/-- Literals, results of other queries and functions refer to no nodes outside, as far as the nodes
of the region can come by them. -/
structure Scope.Encloses (scope : Scope) (region : NodeId → Prop) : Prop where
  closed {n c : NodeId} : region n → c ∈ scope.nodes.childrenOf n → region c
  literal {n : NodeId} {v : Value} : region n → scope.nodes.get n = .ok (.literal v) →
    v.Within region
  shared {n : NodeId} {x : String} {v : Value} : region n → scope.nodes.get n = .ok (.var x) →
    scope.shared.bind (·.get x) = some v → v.Within region
  call {k : Nat} {name : String} {args : List Value} {v : Value} :
    (∀ arg ∈ args, arg.Within region) → scope.functions.call k name args = .ok v → v.Within region

/-- Nor does what is bound or known. -/
structure Workspace.Enclosed (region : NodeId → Prop) (w : Workspace) : Prop where
  bound {frame : String × Value} : frame ∈ w.bindings.frames → frame.2.Within region
  known {n : NodeId} {v : Value} : region n → w.cache.memo n = .done v → v.Within region

variable {scope : Scope} {region : NodeId → Prop} {w w' : Workspace} {β : Bindings}

theorem Workspace.Enclosed.corresponds (h : w.Enclosed region) :
    w.Corresponds (.equality region) w.bindings w.bindings w where
  cache n hn := by
    cases hmemo : w.cache.memo n with
    | uninitialized => exact .uninitialized
    | inProgress => exact .inProgress
    | done v => exact .done (h.known hn hmemo).corresponds
  bindings_eq := rfl
  bindings_eq' := rfl
  supply := w.supply.corresponds_self region

theorem Workspace.Corresponds.enclosed (h : w.Corresponds (.equality region) β β w')
    (hβ : β.Corresponds (.equality region) β) : w.Enclosed region where
  bound {frame} hframe := by
    rw [h.bindings_eq] at hframe
    exact (List.forall₂_same.1 hβ frame hframe).2.within
  known {n v} hn hdone := by
    have hmemo := h.cache n hn
    rw [hdone] at hmemo
    generalize w'.cache.memo n = memo at hmemo
    cases hmemo with
    | done hv => exact hv.within

namespace Scope.Encloses

theorem prepared (h : scope.Encloses region) (spared : Failure → Prop) :
    Evaluation.Prepared (.equality region) spared scope scope.shared :=
  Evaluation.prepared_equality h.closed h.literal (fun _ _ _ _ hargs hcall => h.call hargs hcall)
    h.shared

/-- Nodes of the region ask for nodes of the region only.  What other nodes do is left open. -/
def conduct (h : scope.Encloses region) (w : Workspace) : Conduct scope where
  outside := region
  reaches n p := region n → region p
  asks _ c := region c
  sound := False
  admits _ _ := True
  owns := region
  initially := w.cache.memo
  reaches_of_outside hp _ := hp
  reaches_of_asks hc _ := hc
  asks_child := h.closed
  owns_of_asks hc := hc
  asks_of_reaches hc hp := hp hc
  admits_of_asks _ _ := trivial
  admits_cyclic _ := trivial
  admits_error _ := trivial
  admits_panic _ := trivial
  literal hn hget := ⟨(h.literal hn hget).mono fun _ hp _ => hp, fun _ => False.elim⟩
  shared hn hget hx := ⟨h.shared hn hget hx, fun _ => False.elim⟩
  call {n _ _ _ v} hargs hcall := by
    refine ⟨?_, fun _ => False.elim⟩
    by_cases hn : region n
    · have hwithin : v.Within region :=
        h.call (fun arg harg => (hargs arg harg).within.mono fun _ hp => hp hn) hcall
      exact hwithin.mono fun _ hp _ => hp
    · exact v.within_univ.mono fun _ _ hin => absurd hin hn
  admits_call _ := trivial

theorem held (h : scope.Encloses region) (hw : w.Enclosed region) :
    w.Held (h.conduct w) (fun n => w.cache.memo n = .inProgress) w.bindings where
  bindings_eq := rfl
  bound hframe := ⟨hw.bound hframe, fun _ => False.elim⟩
  busy_iff := .rfl
  known {n v} hdone := by
    refine ⟨?_, fun _ => False.elim⟩
    by_cases hn : region n
    · exact (hw.known hn hdone).mono fun _ hp _ => hp
    · exact v.within_univ.mono fun _ _ hin => absurd hin hn
  kept _ := rfl

end Scope.Encloses

namespace Evaluation

open Eval

variable {id : NodeId}

theorem resultWithin_keeps (h : scope.Encloses region) (hw : w.Enclosed region) (hid : region id)
    (calls : Nat) (horderly : Orderly (resultWithin scope calls id w).1) {n : NodeId}
    (hn : ¬ region n) : (resultWithin scope calls id w).2.cache.memo n = w.cache.memo n := by
  have hbehaves : (resultWithin scope calls id).Behaves (h.conduct w)
      (fun n => w.cache.memo n = .inProgress) id _ :=
    resultWithin_behaves (fun _ => trivial) calls hid fun _ _ => hid
  have hends := hbehaves w.bindings w (h.held hw)
  unfold Ensures at hends
  rcases hx : resultWithin scope calls id w with ⟨failure | v, w₁⟩
  · rw [hx] at hends horderly
    rcases horderly failure rfl with ⟨e, rfl⟩
    exact (hends.held rfl).kept hn
  · rw [hx] at hends
    exact hends.1.kept hn

/-- The first evaluation may be nested in others, of nodes that the second one knows nothing of. -/
theorem resultWithin_inStep (h : scope.Encloses region) (hends : scope.functions.Ends)
    (hβ : β.Corresponds (.equality region) β) (hw : w.Corresponds (.equality region) β β w')
    (hid : region id) {calls : Nat} {above : List NodeId} (hunder : UnderWay scope.nodes above w)
    (hcalls : scope.nodes.size < calls + above.length) :
    (resultWithin scope calls id w).1 = (result scope id w').1 ∧
      (Orderly (resultWithin scope calls id w).1 →
        (resultWithin scope calls id w).2.Corresponds (.equality region) β β
          (result scope id w').2) := by
  have hfirst : scope.nodes.size < scope.nodes.size + 1 + above.length := by omega
  obtain ⟨houtcome, hkept⟩ := resultWithin_corresponds hends hunder hfirst hcalls id
  have hmirrors := result_mirrors (h.prepared fun _ => False) hβ hid w w' hw
  rw [Scope.sharing_self] at hmirrors
  rw [hw.bindings_eq] at hkept
  rw [← houtcome]
  unfold result at hmirrors ⊢
  rcases hx : resultWithin scope (scope.nodes.size + 1) id w with ⟨failure | v, w₁⟩
  · rw [hx] at hmirrors hkept
    rcases hmirrors with hspared | ⟨w₁', hy, hstep⟩
    · exact hspared.elim
    · rw [hy]
      refine ⟨rfl, fun horderly => ?_⟩
      rcases horderly failure rfl with ⟨e, rfl⟩
      exact (hkept horderly).symm_trans (fun _ _ => trivial) (hstep e rfl)
  · rw [hx] at hmirrors hkept
    rcases hmirrors with ⟨v', w₁', hy, hw₁, hv⟩
    obtain rfl := hv.eq_of_exact trivial
    rw [hy]
    exact ⟨rfl, fun horderly => (hkept horderly).symm_trans (fun _ _ => trivial) hw₁⟩

end Evaluation
end PathQuery

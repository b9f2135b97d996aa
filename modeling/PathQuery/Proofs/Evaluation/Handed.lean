import PathQuery.Proofs.Evaluation.Handles
import PathQuery.Proofs.Evaluation.Traced

/-!
# Handles come from the supply

What an evaluation makes has a handle that was the next one at some time, so that it cannot be taken
for anything that is made afterwards.

* `Provenance.handles`: what is known of values by their handles;
* `Workspace.Dated`: all handles in the workspace are below its supply;
* `Eval.Keeps`: evaluations that keep this and put nothing back into the supply;
* `Eval.Brings`: and whose value is of that kind;
* `Evaluation.Supplied`: what a scope must not bring along for this;
* `result_brings`: then all evaluations of nodes are such.
-/

namespace PathQuery

namespace Value

theorem Before.mono {base base' : Nat} {v : Value} (h : v.Before base) (hle : base ≤ base') :
    v.Before base' := by
  induction h with
  | simple hv => exact .simple hv
  | automaton hlt => exact .automaton (Nat.lt_of_lt_of_le hlt hle)
  | pathSystem hlt => exact .pathSystem (Nat.lt_of_lt_of_le hlt hle)
  | list _ ih => exact .list ih

/-- Only handles below the base stand for themselves. -/
theorem Corresponds.before {C : Correspondence} {base : Nat} {v w : Value} (h : v.Corresponds C w)
    (hsame : v = w) (hhandles : ∀ h, C.handles h h → h < base) : v.Before base := by
  induction h with
  | simple hv => exact .simple hv
  | automaton hh _ =>
    injection hsame with hsame
    exact .automaton (hhandles _ (hsame ▸ hh))
  | pathSystem hh =>
    injection hsame with hsame
    exact .pathSystem (hhandles _ (hsame ▸ hh))
  | @list vs ws _ _ ih =>
    obtain rfl : vs = ws := Value.list.inj hsame
    refine .list fun v hv => ih ?_ rfl
    rcases List.mem_iff_getElem.1 hv with ⟨i, hi, rfl⟩
    exact List.mem_iff_getElem.2 ⟨i, by simpa using hi, List.getElem_zip⟩

end Value

/-- A function has no handles of its own. -/
theorem FunctionLibrary.Uniform.before {functions : FunctionLibrary} {base m n : Nat}
    {name : String} {args : List Value} {v : Value}
    (h : functions.Uniform base fun _ => True) (hbase : base ≤ m)
    (hargs : ∀ arg ∈ args, arg.Before m) (hcall : functions.call n name args = .ok v) :
    v.Before m := by
  -- Fresh handles that stand for different ones show which handles are not fresh.
  let C := (Pairing.settled (Nat.le_refl m) (Nat.le_succ m)).correspondence fun _ => True
  have hself : ∀ {h : Nat}, h < m → C.handles h h := fun hlt => .inl ⟨rfl, hlt⟩
  have hsame : List.Forall₂ (Value.Corresponds C) args args :=
    List.forall₂_same.2 fun arg harg =>
      (hargs arg harg).corresponds arg.within_univ fun _ => hself
  have hcalls := h C rfl id (fun _ hlt => hself (Nat.lt_of_lt_of_le hlt hbase)) n n name args args
    (fun _ => rfl) hsame
  rw [hcall] at hcalls
  refine Value.Corresponds.before hcalls rfl ?_
  rintro h (⟨_, hlt⟩ | ⟨k, hk, hk'⟩)
  · exact hlt
  · omega

/-! ## Workspaces -/

structure Workspace.Dated (base : Nat) (w : Workspace) : Prop where
  base_le : base ≤ w.supply.handles
  memos {n : NodeId} {v : Value} : w.cache.memo n = .done v → v.Before w.supply.handles
  bindings {frame : String × Value} : frame ∈ w.bindings.frames →
    frame.2.Before w.supply.handles

/-! ## Evaluations -/

namespace Eval

def Keeps {α : Type} (base : Nat) (x : Eval α) : Prop :=
  ∀ w : Workspace, w.Dated base →
    (x w).2.Dated base ∧ w.supply.handles ≤ (x w).2.supply.handles

structure Brings (base : Nat) (x : Eval Value) : Prop where
  keeps : Keeps base x
  before {w w₁ : Workspace} {v : Value} : w.Dated base → x w = (.ok v, w₁) →
    v.Before w₁.supply.handles

end Eval

/-- Handles are below the next one, or below the base. -/
def Provenance.handles (base : Nat) : Provenance where
  region _ := True
  value s v := v.Before (max base s.handles)
  serials _ _ := True
  value_mono h hv := hv.mono (Nat.max_le.2
    ⟨Nat.le_max_left _ _, Nat.le_trans h.handles_le (Nat.le_max_right _ _)⟩)
  serials_mono _ h := h
  serials_nil _ := trivial
  serials_draw _ h := h
  simple hv := .simple hv
  automaton _ := .automaton (Nat.lt_of_lt_of_le (Nat.lt_succ_self _) (Nat.le_max_right _ _))
  pathSystem _ := .pathSystem (Nat.lt_of_lt_of_le (Nat.lt_succ_self _) (Nat.le_max_right _ _))
  serials_of_automaton _ := trivial

section Dated

variable {base : Nat} {s : Supply} {w : Workspace}

theorem Workspace.Dated.traced (h : w.Dated base) : w.Traced (.handles base) w.supply where
  precedes := .refl _
  memos _ hdone := (h.memos hdone).mono (Nat.le_max_right _ _)
  bindings hframe := (h.bindings hframe).mono (Nat.le_max_right _ _)

/-- Once the supply is past the base, nothing else is known of values. -/
theorem Provenance.before_of_value {v : Value} (hv : (handles base).value s v)
    (hbase : base ≤ s.handles) : v.Before s.handles :=
  Value.Before.mono hv (Nat.max_le.2 ⟨hbase, Nat.le_refl _⟩)

theorem Workspace.Traced.dated (h : w.Traced (.handles base) s) (hbase : base ≤ s.handles) :
    w.Dated base := by
  have hle : base ≤ w.supply.handles := Nat.le_trans hbase h.precedes.handles_le
  exact ⟨hle, fun hdone => Provenance.before_of_value (h.memos trivial hdone) hle,
    fun hframe => Provenance.before_of_value (h.bindings hframe) hle⟩

end Dated

/-! ## Scopes -/

namespace Evaluation

open Eval

/-- What comes from outside was there before. -/
structure Supplied (base : Nat) (scope : Scope) : Prop where
  literal {n : NodeId} {v : Value} : scope.nodes.get n = .ok (.literal v) → v.Before base
  shared {x : String} {v : Value} : scope.shared.bind (·.get x) = some v → v.Before base
  functions : scope.functions.Uniform base fun _ => True

variable {base : Nat} {scope : Scope}

theorem Supplied.traceable (h : Supplied base scope) : Traceable (.handles base) scope where
  literal _ hget _ := (h.literal hget).mono (Nat.le_max_left _ _)
  shared _ _ hx _ := (h.shared hx).mono (Nat.le_max_left _ _)
  transposed _ _ := trivial
  argument _ _ _ := trivial
  call _ _ hargs hcall := h.functions.before (Nat.le_max_left _ _) hargs hcall

theorem result_brings (hsupplied : Supplied base scope) (id : NodeId) :
    Brings base (Evaluation.result scope id) := by
  have htraces : ∀ w : Workspace, w.Dated base →
      (Evaluation.result scope id).Ensures w
        (fun v w' => w'.Traced (.handles base) w.supply ∧
          (Provenance.handles base).value w'.supply v)
        fun _ w' => w'.Traced (.handles base) w.supply :=
    fun w hw => (result_traces hsupplied.traceable id w hw.traced).mono
      (fun _ _ hresult => ⟨hresult.1, hresult.2 trivial⟩) fun _ _ hfails => hfails
  refine ⟨fun w hw => ?_, fun {w w₁ v} hw heq => ?_⟩
  · have hresult := htraces w hw
    unfold Ensures at hresult
    rcases hx : Evaluation.result scope id w with ⟨failure | v, w₁⟩
    · rw [hx] at hresult
      exact ⟨hresult.dated hw.base_le, hresult.precedes.handles_le⟩
    · rw [hx] at hresult
      exact ⟨hresult.1.dated hw.base_le, hresult.1.precedes.handles_le⟩
  · have hresult := htraces w hw
    unfold Ensures at hresult
    rw [heq] at hresult
    exact Provenance.before_of_value hresult.2
      (Nat.le_trans hw.base_le hresult.1.precedes.handles_le)

end Evaluation
end PathQuery

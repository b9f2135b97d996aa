import PathQuery.Proofs.Evaluation.Reset
import PathQuery.Proofs.Evaluation.Restored

/-!
# A reset after an abandoned evaluation

A function that panics abandons the evaluation that has called it.  Nodes stay in progress then, and
edges that guards have bound stay bound.  A reset makes up for the former and not for the latter.

* `Query.Attempted`: what becomes of a query by evaluations that can be abandoned, runs and resets;
* `Attempted.agrees`: it stays the same query, with edges on top of its variables;
* `reset_recovers`: after a reset it answers what a new query with these variables answers;
* `reset_keeps_edge`: and that can be something else than without the edges.
-/

namespace PathQuery
namespace Query

variable {q q' : Query} {g : Graph} {shared : Option SharedEnvironment} {supply : Supply}

/-- Nothing is asked of how the evaluations end. -/
inductive Attempted (q : Query) : Query → Prop where
  | new : Attempted q q
  | evaluated {q' : Query} (g : Graph) (shared : Option SharedEnvironment) (supply : Supply) :
    Attempted q q' → Attempted q (q'.evaluate g shared supply).2.1
  | reset {q' : Query} : Attempted q q' → Attempted q q'.reset

/-- The query with edges bound on top of its variables. -/
def under (q : Query) (edges : List (String × Incidence)) : Query :=
  { q with bindings := q.bindings.above edges }

/-- Guards that are left have taken back their edges; those that are abandoned have not. -/
theorem evaluate_under (q : Query) (g : Graph) (shared : Option SharedEnvironment)
    (supply : Supply) : ∃ edges, (q.under edges).Agrees (q.evaluate g shared supply).2.1 := by
  let w : Workspace := ⟨q.cache, q.bindings, supply⟩
  have hresult := Evaluation.result_lenient (q.scope g shared) _ q.root _ w (w.held_lenient _)
  unfold Eval.Ensures at hresult
  rw [evaluate_apply]
  rcases hx : Evaluation.result (q.scope g shared) q.root w with ⟨failure | v, w₁⟩
  · rw [hx] at hresult
    rcases hresult.above with ⟨edges, habove⟩
    exact ⟨edges, rfl, rfl, rfl, rfl, habove⟩
  · rw [hx] at hresult
    exact ⟨[], rfl, rfl, rfl, rfl, hresult.1.bindings_eq⟩

theorem Attempted.agrees (h : q.Attempted q') : ∃ edges, (q.under edges).Agrees q' := by
  -- Edges that one evaluation has left lie under those of the next one.
  induction h with
  | new => exact ⟨[], .refl q⟩
  | @evaluated q' g shared supply _ ih =>
    rcases ih with ⟨outer, houter⟩
    rcases q'.evaluate_under g shared supply with ⟨inner, hinner⟩
    have hbindings : (q'.under inner).bindings = (q.under (inner ++ outer)).bindings := by
      simp only [under, houter.bindings_eq, Bindings.above_above]
    exact ⟨inner ++ outer, hinner.nodes_eq.trans houter.nodes_eq,
      hinner.root_eq.trans houter.root_eq, hinner.functions_eq.trans houter.functions_eq,
      hinner.limits_eq.trans houter.limits_eq, hinner.bindings_eq.trans hbindings⟩
  | @reset q' _ ih =>
    rcases ih with ⟨edges, hedges⟩
    exact ⟨edges, hedges.trans (.reset q')⟩

/-- Edges refer to no node. -/
theorem SelfContained.under {env : SharedEnvironment} (h : q.SelfContained env)
    (edges : List (String × Incidence)) : (q.under edges).SelfContained env where
  entries := h.entries
  bindings {frame} hframe := by
    rcases List.mem_append.1 hframe with hedge | hframe
    · rcases List.mem_map.1 hedge with ⟨x, _, rfl⟩
      exact .simple (.edge x.2)
    · exact h.bindings hframe
  literals := h.literals
  functions := h.functions

/-- Whatever a query knows, after a reset it answers what a new query answers. -/
theorem reset_evaluate (hcontained : q.SelfContained (shared.getD {})) (hagrees : q.Agrees q')
    (g : Graph) (supply : Supply) :
    (q'.reset.evaluate g shared supply).1 = (q.renewed.evaluate g shared supply).1 := by
  have hentries : ∀ {n : NodeId} {x : String} {v : Value}, q.nodes.Below q.root n →
      q.nodes.get n = .ok (.var x) → shared.bind (·.get x) = some v →
      v.Within (q.nodes.Below q.root) := by
    intro n x v hn hget hv
    cases shared with
    | none => cases hv
    | some env => exact hcontained.entries hn hget hv
  have hprepared : Evaluation.Prepared (.equality (q.nodes.Below q.root)) (fun _ => False)
      (q.renewed.scope g shared) shared :=
    Evaluation.prepared_equality (fun hn hc => hn.tail hc)
      (fun hn hget => hcontained.literals hn hget)
      (fun _ _ _ _ hargs hcall => hcontained.functions hargs hcall) hentries
  -- Neither query knows anything about the nodes where both stay.
  have hcache : q.renewed.cache.Corresponds (.equality (q.nodes.Below q.root)) q'.reset.cache := by
    intro n hn
    have hbelow : q'.nodes.Below q'.root n := by
      rw [hagrees.nodes_eq, hagrees.root_eq]
      exact hn
    rw [q'.memo_reset hbelow]
    exact .uninitialized
  have hcorresponds : q.renewed.Corresponds (.equality (q.nodes.Below q.root)) q'.reset :=
    (((Agrees.renewed q).trans hagrees).trans (.reset q')).corresponds hcache
      fun _ => hcontained.bindings
  have houtcomes := hcorresponds.outcomes hprepared .refl (supply.corresponds_self _)
  exact (houtcomes.eq_of_exact trivial).symm

/-- A reset takes back what is in progress below the root, however often and wherever evaluations
were abandoned.  Edges that are still bound stay so, and the query answers what a new one with the
same variables and these edges answers.  If there are none, it is as good as new. -/
theorem reset_recovers (hattempted : q.Attempted q')
    (hcontained : q.SelfContained (shared.getD {})) :
    (∀ n, q.nodes.Below q.root n → q'.reset.cache.memo n = .uninitialized) ∧
      (∃ edges, q'.reset.bindings = q.bindings.above edges ∧ ∀ g supply,
        (q'.reset.evaluate g shared supply).1 =
          ((q.under edges).renewed.evaluate g shared supply).1) ∧
      (q'.bindings = q.bindings → ∀ g supply,
        (q'.reset.evaluate g shared supply).1 = (q.renewed.evaluate g shared supply).1) := by
  rcases hattempted.agrees with ⟨edges, hagrees⟩
  refine ⟨?_, ⟨edges, hagrees.bindings_eq, ?_⟩, ?_⟩
  · intro n hn
    refine q'.memo_reset ?_
    rw [hagrees.nodes_eq, hagrees.root_eq]
    exact hn
  · intro g supply
    exact reset_evaluate (hcontained.under edges) hagrees g supply
  · intro hbindings g supply
    have hsame : q.Agrees q' := { hagrees with bindings_eq := hbindings }
    exact reset_evaluate hcontained hsame g supply

/-! ## An edge that stays -/

/-- The roads that are open, and then the road itself, which is bound nowhere else. -/
def leavingRoad : SyntaxGraph where
  nodes := #[some (.var "road"), some (.call "isOpen" []),
    some (.simplePath .outgoing [⟨"road", false⟩] [] (some ⟨1, some "road"⟩)),
    some (.literal (.vertex 0)), some (.forwardVertexSet 3 2), some (.compare .eq 4 0)]

/-- The first call panics. -/
def failsOnce : FunctionLibrary where
  call n _ _ := if n = 0 then .error (.panic (some "no answer")) else .ok (.bool true)

def askingOnce : Query where
  nodes := leavingRoad
  root := 5
  functions := failsOnce

theorem selfContained_askingOnce : askingOnce.SelfContained {} where
  entries _ _ hx := by cases hx
  bindings hframe := absurd hframe List.not_mem_nil
  literals {n v} _ hget := by
    have hliteral : v = .vertex 0 := by
      simpa [askingOnce, leavingRoad] using SyntaxGraph.mem_of_get hget
    exact hliteral ▸ .simple (.vertex 0)
  functions {n name args v} _ hcall := by
    change (if n = 0 then Except.error (Failure.panic (some "no answer"))
      else Except.ok (Value.bool true)) = .ok v at hcall
    split at hcall
    · cases hcall
    · cases hcall
      exact .simple (.bool true)

theorem reset_recovers_askingOnce :
    askingOnce.Attempted (askingOnce.evaluate road none {}).2.1 ∧
      askingOnce.SelfContained ((none : Option SharedEnvironment).getD {}) ∧
      ((askingOnce.evaluate road none {}).2.1.reset.cache.memo 1 = .uninitialized) ∧
      ∃ edges, (askingOnce.evaluate road none {}).2.1.reset.bindings = Bindings.above {} edges ∧
        ((askingOnce.evaluate road none {}).2.1.reset.evaluate road none { calls := 1 }).1 =
          ((askingOnce.under edges).renewed.evaluate road none { calls := 1 }).1 := by
  have hattempted : askingOnce.Attempted (askingOnce.evaluate road none {}).2.1 :=
    .evaluated road none {} .new
  have hcontained : askingOnce.SelfContained ((none : Option SharedEnvironment).getD {}) :=
    selfContained_askingOnce
  have hbelow : leavingRoad.Below 5 1 := Cache.mem_below_iff.1 (by decide +kernel)
  rcases reset_recovers hattempted hcontained with ⟨hcache, ⟨edges, hbindings, hevaluate⟩, _⟩
  exact ⟨hattempted, hcontained, hcache 1 hbelow, edges, hbindings, hevaluate road _⟩

/-- The function panics inside the guard.  After the reset the road is found where a new query finds
nothing. -/
theorem reset_keeps_edge :
    (askingOnce.evaluate road none {}).1 = .error (.panic (some "no answer")) ∧
      ((askingOnce.evaluate road none {}).2.1.reset.evaluate road none { calls := 1 }).1 =
        .ok (.bool false) ∧
      (askingOnce.renewed.evaluate road none { calls := 1 }).1 =
        .error (.error (.unresolvedVariable "road")) :=
  ⟨by decide +kernel, by decide +kernel, by decide +kernel⟩

end Query
end PathQuery

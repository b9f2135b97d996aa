import PathQuery.Proofs.Evaluation.Conduct

/-!
# All evaluations behave

* `evaluateGuard_behaves`, `callFunction_behaves`, `var_behaves`: the operations behave if the nodes
  do that they ask for;
* `rule_behaves`: so do rules;
* `step_behaves`: so does a node behind the cache, and a node that is met again is admitted to be
  cyclic;
* `resultWithin_behaves`: so do all evaluations, whatever is being computed around them.
-/

namespace PathQuery
namespace Evaluation

open Eval

variable {scope : Scope} {K : Conduct scope} {busy : NodeId → Prop} {id : NodeId}
  {result : NodeId → Eval Value}

/-- What a node is worth to the node that asks for it. -/
abbrev Asked (K : Conduct scope) (busy : NodeId → Prop) (id : NodeId) (x : Eval Value) : Prop :=
  Behaves K busy id (Value.Fits K.sound (K.asks id)) x

/-! ## Operations -/

section Guards

variable (hchildren : ∀ c, K.asks id c → Asked K busy id (result c))
include hchildren

theorem evaluateGuard_behaves {guard : Guard} (hguard : K.asks id guard.predicate)
    (e : Incidence) :
    Behaves K busy id (fun _ => True) (evaluateGuard scope result guard e) := by
  rcases guard with ⟨predicate, _ | x⟩
  · exact (hchildren predicate hguard).bind fun v _ => .pure trivial
  · intro β w hw
    have hcondition := hchildren predicate hguard _ _ (hw.entered (K.owns_of_asks hguard) x e)
    unfold Ensures at hcondition ⊢
    rw [evaluateGuard_apply]
    rcases hx : result predicate (w.entered scope.nodes predicate x e) with ⟨failure | v, w₁⟩
    · rw [hx] at hcondition
      cases failure with
      | error error => exact (hcondition.held rfl).left.broken hcondition.admitted
      -- The binding stays when the guard is abandoned.
      | panic message =>
        rcases hcondition.above with ⟨edges, habove⟩
        exact ⟨hcondition.admitted, nofun, edges ++ [(x, e)], habove.trans (β.above_push x e edges)⟩
      | exhausted =>
        rcases hcondition.above with ⟨edges, habove⟩
        exact ⟨hcondition.admitted, nofun, edges ++ [(x, e)], habove.trans (β.above_push x e edges)⟩
    · rw [hx] at hcondition
      exact ⟨hcondition.1.left, trivial⟩

end Guards

theorem callFunction_behaves (function : String) {vs : List Value}
    (hvs : ∀ v ∈ vs, v.Fits K.sound (K.asks id)) :
    Behaves K busy id (Value.Fits K.sound (K.reaches id)) (callFunction scope function vs) := by
  refine Behaves.callNumber.bind fun k _ => ?_
  have hreaches : ∀ v ∈ vs, v.Fits K.sound (K.reaches id) :=
    fun v hv => (hvs v hv).mono fun _ => K.reaches_of_asks
  cases hcall : scope.functions.call k function vs with
  | ok v => exact .pure (K.call hreaches hcall)
  | error failure => exact .throw (K.admits_call hcall)

theorem var_behaves {name : String} (howns : K.owns id)
    (hget : scope.nodes.get id = .ok (.var name)) :
    Behaves K busy id (Value.Fits K.sound (K.reaches id)) (readVariable scope name) := by
  intro β w hw
  -- What is bound is read from the workspace as it is.
  have hlookup : Behaves K busy id (Value.Fits K.sound (K.reaches id))
      (ofExcept (lookup scope β name)) := by
    unfold lookup
    cases hbound : β.get name with
    | some v => exact .pure ((hw.bound_get hbound).mono fun _ => K.reaches_of_outside)
    | none =>
      cases hshared : scope.shared.bind (·.get name) with
      | some v => exact .pure ((K.shared howns hget hshared).mono fun _ => K.reaches_of_outside)
      | none => exact .fail nofun
  obtain rfl := hw.bindings_eq
  exact hlookup _ w hw

/-! ## All rules -/

/-- What a node may ask for, its value may refer to; the other way round there is no need. -/
def kinship (K : Conduct scope) (id : NodeId) : Kinship scope.graph scope.graph where
  alike := Both (Value.Fits K.sound (K.asks id))
  gives := Both (Value.Fits K.sound (K.reaches id))
  building := .both (Automaton.Fits.kept K.sound (K.asks id))
  handles := Eq
  reads := by
    rintro v _ ⟨rfl, hv⟩
    refine .refl ?_
    rintro handle a rfl
    have hread : (Value.automaton handle a).toAutomaton "automaton" = .ok a := rfl
    exact ⟨rfl, hv.toAutomaton hread⟩
  compareValues_eq := by
    rintro op x _ y _ ⟨rfl, -⟩ ⟨rfl, -⟩
    rfl
  simple hv := ⟨rfl, .simple hv⟩
  automaton := by
    rintro handle _ a _ rfl ⟨rfl, ha⟩
    exact ⟨rfl, (Value.Fits.of_automaton ha handle).mono fun _ => K.reaches_of_asks⟩
  pathSystem := by
    rintro handle _ ps rfl
    exact ⟨rfl, .pathSystem handle ps⟩

section Rules

variable (hchildren : ∀ c, K.asks id c → Asked K busy id (result c))
include hchildren

theorem host_behaves : Host.Related (Behaves.lifting K busy id) (kinship K id) (K.asks id)
    (fun γ => K.asks id γ.predicate) (host scope result) (host scope result) where
  throws := K.admits_error
  vertices _ := rfl
  result {c} hc := (hchildren c hc).mono fun v hv => ⟨v, rfl, hv⟩
  guard e hγ := (evaluateGuard_behaves hchildren hγ e).mono fun accepted _ => ⟨accepted, rfl⟩
  call function args args' hargs := by
    obtain ⟨rfl, hfit⟩ := eq_of_forall₂_both hargs
    exact (callFunction_behaves function hfit).mono fun v hv => ⟨v, rfl, hv⟩
  fresh := by
    rintro x _ ⟨rfl, hx⟩
    exact (Behaves.fresh hx).mono fun a ha => ⟨a, rfl, ha⟩
  handle := Behaves.freshHandle.mono fun handle _ => ⟨handle, rfl⟩

theorem traverses_behaves : Host.Traverses (Behaves.lifting K busy id) scope scope
    (Both (Automaton.Fits K.sound (K.asks id))) (host scope result) (host scope result) := by
  rintro a _ ⟨rfl, ha⟩ start
  have htakes : ∀ t ∈ a.transitions, t.symbol.isEpsilon = false → ∀ v e,
      (Behaves.lifting K busy id).simulation.rel ((host scope result).takes scope.graph t v e)
        ((host scope result).takes scope.graph t v e) := by
    intro t ht _ v e
    have hwithin : t.symbol.Within (K.asks id) := ha.symbols ht
    refine (host_behaves hchildren).takes (fun _ _ => rfl) ?_ ?_
    · exact fun c γ hc hγ => hwithin.guard hc hγ
    · exact fun c node hsymbol => hwithin.edge hsymbol
  exact (Behaves.lifting K busy id).simulation.traverse scope.limits scope.graph
    (Behaves.allows ha) htakes start

/-- The rule of a node asks for children, and for what is reached from their values. -/
theorem rule_behaves {node : Node} (howns : K.owns id) (hget : scope.nodes.get id = .ok node) :
    Behaves K busy id (Value.Fits K.sound (K.reaches id)) (rule scope result id node) := by
  have hchild : ∀ {c : NodeId}, c ∈ node.children → K.asks id c := by
    intro c hc
    refine K.asks_child howns ?_
    rw [SyntaxGraph.childrenOf, hget]
    exact hc
  have hrule : (Behaves.lifting K busy id).rel (kinship K id).gives
      ((host scope result).rule scope id node) ((host scope result).rule scope id node) := by
    refine (host_behaves hchildren).rule (traverses_behaves hchildren) id hchild ?_ ?_ ?_
    · rintro v rfl
      exact ⟨rfl, K.literal howns hget⟩
    · rintro name rfl
      exact (var_behaves howns hget).mono fun v hv => ⟨v, rfl, hv⟩
    · intro symbol symbol' hsymbol hsymbol'
      obtain rfl : symbol = symbol' := Option.some.inj (hsymbol.symm.trans hsymbol')
      exact ⟨rfl, .single (.of_node hsymbol fun _ => hchild)⟩
  rw [← host_rule]
  refine hrule.mono ?_
  rintro v ⟨_, _, hv⟩
  exact hv

end Rules

/-! ## Behind the cache -/

/-- The node and those that are being computed already. -/
def Computing (busy : NodeId → Prop) (id n : NodeId) : Prop :=
  n = id ∨ busy n

/-- The node is computed while it is in progress, and is not in progress afterwards. -/
theorem compute_behaves (howns : K.owns id) (hid : ¬ busy id) {node : Node}
    (hget : scope.nodes.get id = .ok node)
    (hchildren : ∀ c, K.asks id c → Asked K (Computing busy id) id (result c)) {β : Bindings}
    {w : Workspace} (hw : w.Held K (Computing busy id) β) :
    (compute scope result id node).Ensures w
      (fun v w' => w'.Held K busy β ∧ v.Fits K.sound (K.reaches id))
      fun failure w' => w'.Broken K busy β id failure := by
  have hrule := rule_behaves hchildren howns hget β w hw
  have hothers : ∀ n, n ≠ id → (busy n ↔ Computing busy id n) :=
    fun n hn => (or_iff_right hn).symm
  unfold Ensures at hrule ⊢
  rw [compute_apply]
  rcases hx : rule scope result id node w with ⟨failure | v, w₁⟩
  · rw [hx] at hrule
    -- An error takes the mark back; after a panic or without depth the entry stays in progress.
    cases failure with
    | error e =>
      have haborted := (hrule.held rfl).change howns (w₁.cache.memo_abort id)
        (iff_of_false Memo.noConfusion hid) hothers nofun
      exact haborted.broken hrule.admitted
    | panic message => exact ⟨hrule.admitted, nofun, hrule.above⟩
    | exhausted => exact ⟨hrule.admitted, nofun, hrule.above⟩
  · rw [hx] at hrule
    refine ⟨hrule.1.change howns (w₁.cache.memo_finish id v) (iff_of_false Memo.noConfusion hid)
      hothers ?_, hrule.2⟩
    rintro _ ⟨⟩
    exact hrule.2

/-- Whatever is being computed has asked for the node.  So if the node itself is, it has asked for
itself. -/
theorem step_behaves (howns : K.owns id) (hbusy : ∀ n, busy n → K.asks n id)
    (hchildren : ∀ node, scope.nodes.get id = .ok node → ¬ busy id →
      ∀ c, K.asks id c → Asked K (Computing busy id) id (result c)) :
    Behaves K busy id (Value.Fits K.sound (K.reaches id)) (step scope result id) := by
  intro β w hw
  cases hget : scope.nodes.get id with
  | error e =>
    have hnot : ∀ m, e ≠ .cyclicEvaluation m := by
      rintro m rfl
      unfold SyntaxGraph.get at hget
      split at hget <;> cases hget
    unfold Ensures
    rw [step_of_error hget]
    exact hw.broken (K.admits_error hnot)
  | ok node =>
    unfold Ensures
    rw [step_apply hget]
    cases hm : w.cache.memo id with
    | done v => exact ⟨hw.extend id, hw.known hm⟩
    -- The node is met again while it is being computed.
    | inProgress => exact (hw.extend id).broken (K.admits_cyclic (hbusy id (hw.busy_iff.1 hm)))
    | uninitialized =>
      have hid : ¬ busy id := by
        intro hid
        rw [hw.busy_iff.2 hid] at hm
        cases hm
      refine compute_behaves howns hid hget (hchildren node hget hid) ?_
      exact hw.change howns (w.cache.memo_start id) (iff_of_true rfl (.inl rfl))
        (fun n hn => or_iff_right hn) nofun

/-- The nodes that are computed around a child have asked for it, too. -/
theorem asks_of_computing (hbusy : ∀ n, busy n → K.asks n id) {c : NodeId} (hc : K.asks id c)
    {n : NodeId} (hn : Computing busy id n) : K.asks n c := by
  rcases hn with rfl | hn
  · exact hc
  · exact K.asks_trans (hbusy n hn) hc

/-- The value of an asked node, as the asking node may use it. -/
theorem asked_of_behaves {c : NodeId} {x : Eval Value} (hc : K.asks id c)
    (hx : Behaves K busy c (Value.Fits K.sound (K.reaches c)) x) : Asked K busy id x :=
  (hx.asked hc).mono fun _ hv => hv.mono fun _ => K.asks_of_reaches hc

theorem resultWithin_behaves (hexhausted : ∀ n, K.admits n .exhausted) (depth : Nat)
    (howns : K.owns id) (hbusy : ∀ n, busy n → K.asks n id) :
    Behaves K busy id (Value.Fits K.sound (K.reaches id)) (resultWithin scope depth id) := by
  induction depth generalizing id busy with
  | zero => exact .throw (hexhausted id)
  | succ depth ih =>
    refine step_behaves howns hbusy ?_
    intro node _ _ c hc
    exact asked_of_behaves hc (ih (K.owns_of_asks hc) fun n => asks_of_computing hbusy hc)

end Evaluation
end PathQuery

import PathQuery.Proofs.Evaluation.Enclosed
import PathQuery.Proofs.Evaluation.Formula
import PathQuery.Proofs.Evaluation.Watched

/-!
# Negations pushed inward

A formula and its normal form are different nodes over the same operands.  Both are evaluated as if
the operands alone were asked for, one after the other, so what is true of the two formulas over any
monad is true of their nodes.

* `Watched.inquire`: asks for an operand from outside, where no rule is under way;
* `InStep`: how a node that is watched ends, next to the formula that it is;
* `Ready`: the nodes of a formula were not started, and its operands do not meet them;
* `evaluate_inStep`, `logical_inStep`: nodes end as their formulas do;
* `normal_agrees`: the normal form has the truth of the formula, and asks for the same operands.
-/

namespace PathQuery

namespace Watched

open Evaluation

def inquire (scope : Scope) (n : NodeId) : Watched Value := do
  note n
  lift (Evaluation.result scope n)

variable {region : NodeId → Prop} {β : Bindings} {own owns above : List NodeId} {id : NodeId}
  {w w' : Workspace} {asked : List NodeId}

/-! ## Evaluations in step -/

/-- The same was asked for, and it has come to the same.  The first evaluation started in the given
workspace and has changed what is known about the region and about nodes of its own. -/
structure InStep (region : NodeId → Prop) (own : List NodeId) (β : Bindings) (w : Workspace)
    (o o' : Except Failure Value × Workspace × List NodeId) : Prop where
  outcome_eq : o.1 = o'.1
  asked_eq : o.2.2 = o'.2.2
  corresponds : Orderly o.1 → o.2.1.Corresponds (.equality region) β β o'.2.1
  kept : Orderly o.1 → ∀ n, ¬ region n → n ∉ own → o.2.1.cache.memo n = w.cache.memo n

namespace InStep

theorem pure (hw : w.Corresponds (.equality region) β β w') (v : Value) (asked : List NodeId) :
    InStep region [] β w ((Pure.pure v : Watched Value) (w, asked))
      ((Pure.pure v : Watched Value) (w', asked)) :=
  ⟨rfl, rfl, fun _ => hw, fun _ _ _ _ => rfl⟩

theorem mono {o o' : Except Failure Value × Workspace × List NodeId}
    (h : InStep region own β w o o') (hsub : own ⊆ owns) : InStep region owns β w o o' where
  outcome_eq := h.outcome_eq
  asked_eq := h.asked_eq
  corresponds := h.corresponds
  kept horderly n hn hown := h.kept horderly n hn fun hmem => hown (hsub hmem)

theorem bind {x x' : Watched Value} {f f' : Value → Watched Value}
    (hx : InStep region own β w (x (w, asked)) (x' (w', asked)))
    (hf : ∀ v w₁ asked w₁', w₁.Corresponds (.equality region) β β w₁' →
      (∀ n, ¬ region n → n ∉ own → w₁.cache.memo n = w.cache.memo n) →
        InStep region owns β w₁ (f v (w₁, asked)) (f' v (w₁', asked))) :
    InStep region (own ++ owns) β w ((x >>= f) (w, asked)) ((x' >>= f') (w', asked)) := by
  rw [bind_apply, bind_apply]
  generalize x (w, asked) = o at hx ⊢
  generalize x' (w', asked) = o' at hx ⊢
  rcases o with ⟨outcome, w₁, asked₁⟩
  rcases o' with ⟨outcome', w₁', asked₁'⟩
  rcases hx with ⟨houtcome, hasked, hcorresponds, hkept⟩
  obtain rfl : outcome = outcome' := houtcome
  obtain rfl : asked₁ = asked₁' := hasked
  cases outcome with
  | error failure =>
    exact mono ⟨rfl, rfl, hcorresponds, hkept⟩ (List.subset_append_left own owns)
  | ok v =>
    have horderly : Orderly (.ok v) := nofun
    have hrest := hf v w₁ asked₁ w₁' (hcorresponds horderly) (hkept horderly)
    refine ⟨hrest.outcome_eq, hrest.asked_eq, hrest.corresponds, fun hends n hn hown => ?_⟩
    rw [List.mem_append, not_or] at hown
    exact (hrest.kept hends n hn hown.2).trans (hkept horderly n hn hown.1)

theorem map {x x' : Watched Value}
    (hx : InStep region own β w (x (w, asked)) (x' (w', asked))) (g : Value → Value) :
    InStep region own β w ((x >>= fun v => Pure.pure (g v)) (w, asked))
      ((x' >>= fun v => Pure.pure (g v)) (w', asked)) := by
  have hmapped := hx.bind fun v _ asked _ hw _ => .pure hw (g v) asked
  rwa [List.append_nil] at hmapped

/-- The node behind the rule is one of its own nodes. -/
theorem compute {x : Watched Value} {o' : Except Failure Value × Workspace × List NodeId}
    (hid : ¬ region id)
    (h : InStep region own β { w with cache := w.cache.start id }
      (x ({ w with cache := w.cache.start id }, asked)) o') :
    InStep region (id :: own) β w
      (Watched.compute id x ({ w with cache := w.cache.start id }, asked)) o' where
  outcome_eq := h.outcome_eq
  asked_eq := h.asked_eq
  corresponds horderly := (h.corresponds horderly).keep fun n hn =>
    Cache.memo_enter_of_ne _ _ fun heq => hid (heq ▸ hn)
  kept horderly n hn hown := by
    rw [List.mem_cons, not_or] at hown
    refine (Cache.memo_enter_of_ne _ _ hown.1).trans ?_
    rw [h.kept horderly n hn hown.2, Cache.memo_start, if_neg hown.1]

/-- Where the second evaluations have come to the same, so have the first ones. -/
theorem agree {γ : Type} {g : Value → γ} {own' : List NodeId}
    {o₁ o₁' o o' : Except Failure Value × Workspace × List NodeId}
    (h : InStep region own β w o₁ o) (h' : InStep region own' β w o₁' o')
    (houtcome : o.1.map g = o'.1.map g) (hstate : o.2 = o'.2) :
    o₁.1.map g = o₁'.1.map g ∧ o₁.2.2 = o₁'.2.2 ∧
      (Orderly o₁.1 → (∀ n, region n → o₁.2.1.cache.memo n = o₁'.2.1.cache.memo n) ∧
        o₁.2.1.bindings = o₁'.2.1.bindings ∧ o₁.2.1.supply = o₁'.2.1.supply) := by
  rw [← h.outcome_eq, ← h'.outcome_eq] at houtcome
  have hasked : o₁.2.2 = o₁'.2.2 :=
    calc
      o₁.2.2 = o.2.2 := h.asked_eq
      _ = o'.2.2 := congrArg Prod.snd hstate
      _ = o₁'.2.2 := h'.asked_eq.symm
  refine ⟨houtcome, hasked, fun horderly => ?_⟩
  have horderly' : Orderly o₁'.1 := by
    rcases outcomes_of_map_eq houtcome with ⟨v, v', -, hv', -⟩ | ⟨failure, hfailure, hfailure'⟩
    · rw [hv']
      exact nofun
    · rwa [hfailure', ← hfailure]
  have hleft := h.corresponds horderly
  have hright := h'.corresponds horderly'
  rw [← hstate] at hright
  refine ⟨fun n hn => (hleft.memo_eq hn).trans (hright.memo_eq hn).symm, ?_, ?_⟩
  · exact hleft.bindings_eq.trans hright.bindings_eq.symm
  · exact (hleft.supply.eq_of_exact trivial).trans (hright.supply.eq_of_exact trivial).symm

end InStep

/-! ## Nodes that are not started -/

/-- The first nodes are those of a formula, the second ones are being computed around it. -/
structure Ready (nodes : SyntaxGraph) (region : NodeId → Prop) (own above : List NodeId)
    (w : Workspace) : Prop where
  underWay : UnderWay nodes above w
  above_outside {n : NodeId} : n ∈ above → ¬ region n
  outside {n : NodeId} : n ∈ own → ¬ region n
  uninitialized {n : NodeId} : n ∈ own → w.cache.memo n = .uninitialized

namespace Ready

variable {nodes : SyntaxGraph}

theorem disjoint (h : Ready nodes region own above w) {n : NodeId} (hn : n ∈ above) : n ∉ own := by
  intro hown
  have hmemo := h.underWay.inProgress hn
  rw [h.uninitialized hown] at hmemo
  cases hmemo

theorem start (h : Ready nodes region (id :: own) above w) (hlt : id < nodes.size)
    (hid : id ∉ own) :
    Ready nodes region own (id :: above) { w with cache := w.cache.start id } where
  underWay := by
    have habove : id ∉ above := fun hmem => h.disjoint hmem List.mem_cons_self
    refine ⟨List.nodup_cons.2 ⟨habove, h.underWay.nodup⟩, ?_, ?_⟩
    · intro n hn
      rcases List.mem_cons.1 hn with rfl | hn
      · exact hlt
      · exact h.underWay.lt_size hn
    · intro n hn
      rw [Cache.memo_start]
      split
      · rfl
      · rename_i hne
        exact h.underWay.inProgress ((List.mem_cons.1 hn).resolve_left hne)
  above_outside {n} hn := by
    rcases List.mem_cons.1 hn with rfl | hn
    · exact h.outside List.mem_cons_self
    · exact h.above_outside hn
  outside hn := h.outside (List.mem_cons_of_mem id hn)
  uninitialized {n} hn := by
    have hne : n ≠ id := fun heq => hid (heq ▸ hn)
    rw [Cache.memo_start, if_neg hne]
    exact h.uninitialized (List.mem_cons_of_mem id hn)

theorem left (h : Ready nodes region (own ++ owns) above w) : Ready nodes region own above w where
  underWay := h.underWay
  above_outside := h.above_outside
  outside hn := h.outside (List.mem_append_left owns hn)
  uninitialized hn := h.uninitialized (List.mem_append_left owns hn)

/-- The first part has been evaluated meanwhile. -/
theorem right (h : Ready nodes region (own ++ owns) above w) (hdisjoint : ∀ n ∈ own, n ∉ owns)
    {w₁ : Workspace} (hkept : ∀ n, ¬ region n → n ∉ own → w₁.cache.memo n = w.cache.memo n) :
    Ready nodes region owns above w₁ where
  underWay :=
    { nodup := h.underWay.nodup
      lt_size := h.underWay.lt_size
      inProgress := fun {n} hn => by
        rw [hkept n (h.above_outside hn) (h.left.disjoint hn)]
        exact h.underWay.inProgress hn }
  above_outside := h.above_outside
  outside hn := h.outside (List.mem_append_right own hn)
  uninitialized {n} hn := by
    rw [hkept n (h.outside (List.mem_append_right own hn)) fun hown => hdisjoint n hown hn]
    exact h.uninitialized (List.mem_append_right own hn)

end Ready

/-! ## Nodes and their formulas -/

/-- The operands lie in a region that is closed in itself, and none of it is watched. -/
structure Apart (scope : Scope) (region : NodeId → Prop) (watched : List NodeId) (β : Bindings) :
    Prop where
  encloses : scope.Encloses region
  ends : scope.functions.Ends
  bound : β.Corresponds (.equality region) β
  unwatched {n : NodeId} : region n → n ∉ watched

section Nodes

variable {scope : Scope} {watched : List NodeId}

/-- An operand is not watched, so only this is written down. -/
theorem operand_inStep (h : Apart scope region watched β) {n : NodeId} (hn : region n) {calls : Nat}
    (hunder : UnderWay scope.nodes above w) (hcalls : scope.nodes.size < calls + above.length)
    (hw : w.Corresponds (.equality region) β β w') (asked : List NodeId) :
    InStep region [] β w (evaluate scope watched calls n (w, asked))
      (inquire scope n (w', asked)) := by
  have hlength := hunder.length_le
  obtain ⟨depth, rfl⟩ : ∃ depth, calls = depth + 1 := Nat.exists_eq_succ_of_ne_zero (by omega)
  obtain ⟨houtcome, hcorresponds⟩ := resultWithin_inStep h.encloses h.ends h.bound hw hn hunder
    hcalls
  rw [evaluate_of_notMem (h.unwatched hn)]
  exact
    { outcome_eq := houtcome
      asked_eq := rfl
      corresponds := hcorresponds
      kept := fun horderly m hm _ =>
        resultWithin_keeps h.encloses (hw.enclosed h.bound) hn (depth + 1) horderly hm }

/-- The rule of a node of the formula runs with the node itself above. -/
theorem node_inStep {node : Node} (hget : scope.nodes.get id = .ok node) (hid : id ∈ watched)
    (hown : id ∉ own) {calls : Nat} (hready : Ready scope.nodes region (id :: own) above w)
    (hcalls : scope.nodes.size < calls + above.length)
    (hw : w.Corresponds (.equality region) β β w')
    {o' : Except Failure Value × Workspace × List NodeId}
    (hrule : ∀ depth w₁, Ready scope.nodes region own (id :: above) w₁ →
      scope.nodes.size < depth + (id :: above).length →
      w₁.Corresponds (.equality region) β β w' →
        InStep region own β w₁
          ((host scope (evaluate scope watched depth) (resultWithin scope depth)).rule scope id node
            (w₁, asked)) o') :
    InStep region (id :: own) β w (evaluate scope watched calls id (w, asked)) o' := by
  have hlength := hready.underWay.length_le
  obtain ⟨depth, rfl⟩ : ∃ depth, calls = depth + 1 := Nat.exists_eq_succ_of_ne_zero (by omega)
  have houtside : ¬ region id := hready.outside List.mem_cons_self
  rw [evaluate_of_mem hid hget (hready.uninitialized List.mem_cons_self)]
  refine .compute houtside (hrule depth _ ?_ ?_ ?_)
  · exact hready.start (SyntaxGraph.lt_size_of_get hget) hown
  · rw [List.length_cons]
    omega
  · refine hw.keep fun n hn => ?_
    have hne : n ≠ id := fun heq => houtside (heq ▸ hn)
    rw [Cache.memo_start, if_neg hne]

mutual

theorem evaluate_inStep (h : Apart scope region watched β) (f : Formula) {id : NodeId}
    {own above : List NodeId} {calls : Nat} {w w' : Workspace}
    (hf : f.Written scope.nodes region id own) (hmem : ∀ n ∈ own, n ∈ watched)
    (hready : Ready scope.nodes region own above w)
    (hcalls : scope.nodes.size < calls + above.length)
    (hw : w.Corresponds (.equality region) β β w') (asked : List NodeId) :
    InStep region own β w (evaluate scope watched calls id (w, asked))
      (f.eval (inquire scope) (w', asked)) := by
  match f with
  | .operand node =>
    cases hf with
    | operand hnode =>
      exact operand_inStep h hnode hready.underWay hcalls hw asked
  | .compare op lhs rhs =>
    cases hf with
    | compare hget hlhs hrhs =>
      refine node_inStep hget (hmem id List.mem_cons_self) List.not_mem_nil hready hcalls hw
        fun depth w₁ hready hcalls hw => ?_
      have hfirst := operand_inStep h hlhs hready.underWay hcalls hw
      refine (hfirst asked).bind fun x w₂ asked _ hw hkept => ?_
      have hready : Ready scope.nodes region [] (id :: above) w₂ :=
        hready.right (List.forall_mem_nil _) hkept
      have hsecond := operand_inStep h hrhs hready.underWay hcalls hw
      exact (hsecond asked).bind fun y _ asked _ hw _ => .pure hw (compareValues op x y) asked
  | .and items =>
    cases hf with
    | and hget hitems hown =>
      rw [Formula.eval]
      refine node_inStep hget (hmem id List.mem_cons_self) hown hready hcalls hw
        fun depth w₁ hready hcalls hw => ?_
      exact logical_inStep h items hitems (List.forall_mem_cons.1 hmem).2 hready hcalls hw asked
  | .or items =>
    cases hf with
    | or hget hitems hown =>
      rw [Formula.eval]
      refine node_inStep hget (hmem id List.mem_cons_self) hown hready hcalls hw
        fun depth w₁ hready hcalls hw => ?_
      exact logical_inStep h items hitems (List.forall_mem_cons.1 hmem).2 hready hcalls hw asked
  | .not inner =>
    cases hf with
    | not hget hinner hown =>
      rw [Formula.eval]
      refine node_inStep hget (hmem id List.mem_cons_self) hown hready hcalls hw
        fun depth w₁ hready hcalls hw => ?_
      have hmem := (List.forall_mem_cons.1 hmem).2
      exact (evaluate_inStep h inner hinner hmem hready hcalls hw asked).map negate

theorem logical_inStep (h : Apart scope region watched β) (fs : List Formula)
    {ids own above : List NodeId} {calls : Nat} {w w' : Workspace} {decides unknown : Bool}
    {unwatched : NodeId → Eval Value} (hfs : Formula.WrittenAll scope.nodes region fs ids own)
    (hmem : ∀ n ∈ own, n ∈ watched) (hready : Ready scope.nodes region own above w)
    (hcalls : scope.nodes.size < calls + above.length)
    (hw : w.Corresponds (.equality region) β β w') (asked : List NodeId) :
    InStep region own β w
      ((host scope (evaluate scope watched calls) unwatched).logical decides unknown ids (w, asked))
      (Formula.evalAll (inquire scope) decides unknown fs (w', asked)) := by
  match fs with
  | [] =>
    cases hfs with
    | nil => exact .pure hw _ asked
  | f :: fs =>
    cases hfs with
    | cons hf hfs hdisjoint =>
      have hmem := List.forall_mem_append.1 hmem
      rw [Formula.evalAll, Host.logical]
      have hfirst := evaluate_inStep h f hf hmem.1 hready.left hcalls hw asked
      refine hfirst.bind fun v _ asked _ hw hkept => ?_
      have hready := hready.right hdisjoint hkept
      cases v.asBool with
      | none => exact logical_inStep h fs hfs hmem.2 hready hcalls hw asked
      | some b =>
        dsimp only
        split
        · exact (InStep.pure hw _ asked).mono (List.nil_subset _)
        · exact logical_inStep h fs hfs hmem.2 hready hcalls hw asked

end

end Nodes

/-! ## Formulas and their normal forms -/

section Written

variable {scope : Scope} (hencloses : scope.Encloses region) (hends : scope.functions.Ends)
  (hw : w.Enclosed region)
include hencloses hends hw

/-- From where no node of the formula was started. -/
theorem result_inStep {f : Formula} (hf : f.Written scope.nodes region id own)
    (hfresh : ∀ n ∈ own, ¬ region n ∧ w.cache.memo n = .uninitialized) :
    InStep region own w.bindings w (result scope own id (w, []))
      (f.eval (inquire scope) (w, [])) := by
  have hapart : Apart scope region own w.bindings :=
    { encloses := hencloses
      ends := hends
      bound := Bindings.corresponds_self fun _ hframe => hw.bound hframe
      unwatched := fun hn hmem => (hfresh _ hmem).1 hn }
  have hready : Ready scope.nodes region own [] w :=
    { underWay := .nil w
      above_outside := nofun
      outside := fun hn => (hfresh _ hn).1
      uninitialized := fun hn => (hfresh _ hn).2 }
  exact evaluate_inStep hapart f hf (fun _ hn => hn) hready (Nat.lt_succ_self _) hw.corresponds []

/-- A formula and its normal form are written down as different nodes over the same operands, none
of which leads back to them, and both are evaluated in the same workspace.  Then they have the same
truth, or fail in the same way, and the same operands are asked for, one after the other.  Without a
panic they leave the same behind, but for what is known about their own nodes. -/
theorem normal_agrees {f : Formula} {n n' : NodeId} {own own' : List NodeId}
    (hf : f.Written scope.nodes region n own)
    (hnormal : f.normal.Written scope.nodes region n' own')
    (hfresh : ∀ m ∈ own ++ own', ¬ region m ∧ w.cache.memo m = .uninitialized) :
    f.normal.IsNormal ∧ ∃ asked r r' w₁ w₁',
      result scope own n (w, []) = (r, (w₁, asked)) ∧
      result scope own' n' (w, []) = (r', (w₁', asked)) ∧
      Evaluation.result scope n w = (r, w₁) ∧ Evaluation.result scope n' w = (r', w₁') ∧
      r.map Value.asBool = r'.map Value.asBool ∧
      (Orderly r → (∀ m, region m → w₁.cache.memo m = w₁'.cache.memo m) ∧
        w₁.bindings = w₁'.bindings ∧ w₁.supply = w₁'.supply) := by
  have hfresh := List.forall_mem_append.1 hfresh
  have hrun := result_inStep hencloses hends hw hf hfresh.1
  have hrun' := result_inStep hencloses hends hw hnormal hfresh.2
  -- The formulas agree over any monad, so over the one in which operands are written down.
  have heval := congrFun (Formula.asBool_eval_normal (inquire scope) f) (w, [])
  rw [map_apply, map_apply, Prod.mk.injEq] at heval
  obtain ⟨htruth, hasked, hleft⟩ := hrun.agree hrun' heval.1.symm heval.2.symm
  rcases hx : result scope own n (w, []) with ⟨r, w₁, asked⟩
  rcases hx' : result scope own' n' (w, []) with ⟨r', w₁', asked'⟩
  rw [hx, hx'] at htruth hasked hleft
  obtain rfl : asked = asked' := hasked
  exact ⟨Formula.isNormal_pushed false f, asked, r, r', w₁, w₁', rfl, rfl, result_of_watched hx,
    result_of_watched hx', htruth, hleft⟩

end Written

/-! ## A number and a text -/

/-- Not both is the number less than the text and the last literal false; then the same again, with
the negation pushed inward. -/
def mixedTruth : Scope where
  graph := .empty
  nodes := ⟨#[some (.literal (.int 1)), some (.literal (.text "one")), some (.literal (.bool true)),
    some (.compare .lt 0 1), some (.not 2), some (.and [3, 4]), some (.not 5),
    some (.compare .ge 0 1), some (.or [7, 2])]⟩

theorem mixedTruth_encloses : mixedTruth.Encloses (· < 3) where
  closed {n c} hn hc := by
    match n, hn with
    | 0, _ | 1, _ | 2, _ => cases hc
  literal {n v} hn hget := by
    match n, hn with
    | 0, _ | 1, _ | 2, _ =>
      cases hget
      exact .simple ⟨rfl, fun _ heq => by cases heq⟩
  shared _ _ hx := by cases hx
  call _ hcall := .simple (FunctionLibrary.isSimple_of_builtin hcall)

/-- The number and the text cannot be compared, so the last literal decides. -/
theorem normal_agrees_mixedTruth :
    ∃ w₁ w₁',
      result mixedTruth [6, 5, 3, 4] 6 ({}, []) = (.ok (.bool true), (w₁, [0, 1, 2])) ∧
      result mixedTruth [8, 7] 8 ({}, []) = (.ok (.bool true), (w₁', [0, 1, 2])) ∧
      ∀ n < 3, w₁.cache.memo n = w₁'.cache.memo n := by
  have hless : (Formula.compare .lt 0 1).Written mixedTruth.nodes (· < 3) 3 [3] :=
    .compare rfl (by decide) (by decide)
  have hnot : (Formula.not (.operand 2)).Written mixedTruth.nodes (· < 3) 4 [4] :=
    .not rfl (.operand (by decide)) (by decide)
  have hf : (Formula.not (.and [.compare .lt 0 1, .not (.operand 2)])).Written mixedTruth.nodes
      (· < 3) 6 [6, 5, 3, 4] :=
    .not rfl (.and rfl (.cons hless (.cons hnot .nil (by decide)) (by decide)) (by decide))
      (by decide)
  have hless' : (Formula.compare .ge 0 1).Written mixedTruth.nodes (· < 3) 7 [7] :=
    .compare rfl (by decide) (by decide)
  have hnormal : (Formula.or [.compare .ge 0 1, .operand 2]).Written mixedTruth.nodes (· < 3) 8
      [8, 7] :=
    .or rfl (.cons hless' (.cons (.operand (by decide)) .nil (by decide)) (by decide)) (by decide)
  have hw : ({} : Workspace).Enclosed (· < 3) :=
    { bound := fun hframe => by cases hframe
      known := fun _ hdone => by cases hdone }
  have hfresh : ∀ m ∈ [6, 5, 3, 4] ++ [8, 7],
      ¬ m < 3 ∧ ({} : Workspace).cache.memo m = .uninitialized :=
    fun m hm => ⟨by revert m; decide, Cache.memo_empty m⟩
  obtain ⟨-, asked, r, r', w₁, w₁', hx, hx', -, -, -, hleft⟩ :=
    normal_agrees mixedTruth_encloses FunctionLibrary.ends_builtin hw hf hnormal hfresh
  have hfound : (result mixedTruth [6, 5, 3, 4] 6 ({}, [])).1 = .ok (.bool true) := by
    decide +kernel
  have hfound' : (result mixedTruth [8, 7] 8 ({}, [])).1 = .ok (.bool true) := by decide +kernel
  have hasked : (result mixedTruth [6, 5, 3, 4] 6 ({}, [])).2.2 = [0, 1, 2] := by decide +kernel
  rw [hx] at hfound hasked
  rw [hx'] at hfound'
  obtain rfl : r = .ok (.bool true) := hfound
  obtain rfl : r' = .ok (.bool true) := hfound'
  obtain rfl : asked = [0, 1, 2] := hasked
  exact ⟨w₁, w₁', hx, hx', (hleft fun _ heq => by cases heq).1⟩

end Watched
end PathQuery

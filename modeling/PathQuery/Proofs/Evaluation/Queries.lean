import PathQuery.Proofs.Evaluation.Mirrored
import PathQuery.Query

/-!
# Queries in step

* `Query.Corresponds`: queries that know corresponding things;
* `Corresponds.evaluate`: they are evaluated in step;
* `Correspondence.equality`: the correspondence of an evaluation with itself;
* `Query.Agrees`: queries that differ only in what they know;
* `evaluate_agrees`: an evaluation that ends with a value or an error changes nothing else.
-/

namespace PathQuery

namespace Query

/-- The queries differ in what they know and in what their names stand for. -/
structure Corresponds (C : Correspondence) (q q' : Query) : Prop where
  nodes_eq : q'.nodes = q.nodes
  root_eq : q'.root = q.root
  functions_eq : q'.functions = q.functions
  limits_eq : q'.limits = q.limits
  cache : q.cache.Corresponds C q'.cache
  bindings : q.bindings.Corresponds C q'.bindings

variable {C : Correspondence} {spared : Failure → Prop} {q q' : Query} {g : Graph}
  {shared shared' : Option SharedEnvironment} {supply supply' : Supply}

theorem evaluate_apply (q : Query) (g : Graph) (shared : Option SharedEnvironment)
    (supply : Supply) :
    q.evaluate g shared supply =
      match Evaluation.result (q.scope g shared) q.root ⟨q.cache, q.bindings, supply⟩ with
      | (.ok v, w) =>
        (.ok v, { q with cache := w.cache, bindings := w.bindings, evaluatedAt := some g.version },
          w.supply)
      | (.error failure, w) =>
        (.error failure, { q with cache := w.cache, bindings := w.bindings }, w.supply) := by
  unfold evaluate
  rcases Evaluation.result (q.scope g shared) q.root ⟨q.cache, q.bindings, supply⟩ with
    ⟨failure | v, w⟩
  · rfl
  · rfl

theorem Corresponds.scope_eq (h : q.Corresponds C q') (g : Graph)
    (shared shared' : Option SharedEnvironment) :
    q'.scope g shared' = (q.scope g shared).sharing shared' := by
  simp only [scope, Scope.sharing, h.nodes_eq, h.functions_eq, h.limits_eq]

/-- The bindings are those that the queries had before. -/
theorem Corresponds.evaluate (h : q.Corresponds C q')
    (hprepared : Evaluation.Prepared C spared (q.scope g shared) shared')
    (hroot : C.region q.root) (hsupply : supply.Corresponds C supply') :
    match q.evaluate g shared supply with
    | (.ok v, r, s) => ∃ v' r' s', q'.evaluate g shared' supply' = (.ok v', r', s') ∧
        v.Corresponds C v' ∧ r.Corresponds C r' ∧ s.Corresponds C s' ∧ r.bindings = q.bindings
    | (.error failure, r, s) => spared failure ∨
        ∃ r' s', q'.evaluate g shared' supply' = (.error failure, r', s') ∧
          ∀ e, failure = .error e →
            r.Corresponds C r' ∧ s.Corresponds C s' ∧ r.bindings = q.bindings := by
  have hstart : Workspace.Corresponds C q.bindings q'.bindings ⟨q.cache, q.bindings, supply⟩
      ⟨q'.cache, q'.bindings, supply'⟩ := ⟨h.cache, rfl, rfl, hsupply⟩
  have hresult := Evaluation.result_mirrors hprepared h.bindings hroot _ _ hstart
  have hscope : Evaluation.result (q'.scope g shared') q'.root =
      Evaluation.result ((q.scope g shared).sharing shared') q.root := by
    rw [h.scope_eq g shared, h.root_eq]
  rw [evaluate_apply, evaluate_apply, hscope]
  have hlater : ∀ {w w' : Workspace} {m m' : Option Nat},
      w.Corresponds C q.bindings q'.bindings w' →
      Corresponds C { q with cache := w.cache, bindings := w.bindings, evaluatedAt := m }
        { q' with cache := w'.cache, bindings := w'.bindings, evaluatedAt := m' } := by
    intro w w' m m' hw
    refine ⟨h.nodes_eq, h.root_eq, h.functions_eq, h.limits_eq, hw.cache, ?_⟩
    simp only [hw.bindings_eq, hw.bindings_eq']
    exact h.bindings
  rcases hx : Evaluation.result (q.scope g shared) q.root ⟨q.cache, q.bindings, supply⟩ with
    ⟨failure | v, w⟩
  · rw [hx] at hresult
    rcases hresult with hspared | ⟨w', hy, hkept⟩
    · exact .inl hspared
    · refine .inr ⟨_, _, by rw [hy], ?_⟩
      intro e he
      have hw := hkept e he
      exact ⟨hlater hw, hw.supply, hw.bindings_eq⟩
  · rw [hx] at hresult
    rcases hresult with ⟨v', w', hy, hw, hv⟩
    exact ⟨v', _, _, by rw [hy], hv, hlater hw, hw.supply, hw.bindings_eq⟩

/-- When nothing is spared, the outcomes correspond. -/
theorem Corresponds.outcomes (h : q.Corresponds C q')
    (hprepared : Evaluation.Prepared C (fun _ => False) (q.scope g shared) shared')
    (hroot : C.region q.root) (hsupply : supply.Corresponds C supply') :
    C.Outcomes (q.evaluate g shared supply).1 (q'.evaluate g shared' supply').1 := by
  have hevaluate := h.evaluate hprepared hroot hsupply
  rcases hx : q.evaluate g shared supply with ⟨failure | v, r, s⟩
  · rw [hx] at hevaluate
    rcases hevaluate with hfalse | ⟨r', s', hy, _⟩
    · exact hfalse.elim
    · rw [hy]
      exact rfl
  · rw [hx] at hevaluate
    rcases hevaluate with ⟨v', r', s', hy, hv, _⟩
    rw [hy]
    exact hv

end Query

/-! ## An evaluation and itself -/

/-- All nodes to which the value refers lie in the region. -/
inductive Value.Within (region : NodeId → Prop) : Value → Prop where
  | simple {v : Value} : v.IsSimple → Within region v
  | automaton {h : Nat} {a : Automaton} :
    (∀ {t : Transition}, t ∈ a.transitions → t.symbol.Within region) →
    Within region (.automaton h a)
  | pathSystem {h : Nat} {ps : PathSystem} : Within region (.pathSystem h ps)
  | list {items : List Value} : (∀ v ∈ items, Within region v) → Within region (.list items)

/-- Nothing may be different. -/
def Correspondence.equality (region : NodeId → Prop) : Correspondence where
  handles := Eq
  start := 0
  start' := 0
  region := region
  exact := True
  one_to_one := by
    rintro h _ k _ rfl rfl
    rfl
  handles_fresh _ := rfl
  eq_of_exact _ heq := heq

namespace Value

variable {region : NodeId → Prop} {v : Value}

theorem Corresponds.within {C : Correspondence} {w : Value} (h : v.Corresponds C w) :
    v.Within C.region := by
  induction h with
  | simple hv => exact .simple hv
  | automaton _ hab => exact .automaton hab.twin.symbols
  | pathSystem _ => exact .pathSystem
  | @list vs ws hlength hitems ih =>
    have hboth : List.Forall₂ (fun v w => v.Within C.region ∧ v.Corresponds C w) vs ws :=
      List.forall₂_iff_zip.2 ⟨hlength, fun hvw => ⟨ih hvw, hitems hvw⟩⟩
    exact .list ((List.forall₂_and_left _ _).1 hboth).1

theorem Within.mono {region' : NodeId → Prop} (h : v.Within region)
    (hsub : ∀ n, region n → region' n) : v.Within region' := by
  induction h with
  | simple hv => exact .simple hv
  | automaton hsymbols => exact .automaton fun ht => (hsymbols ht).mono hsub
  | pathSystem => exact .pathSystem
  | list _ ih => exact .list ih

theorem Within.corresponds_of {C : Correspondence} (h : v.Within C.region)
    (hself : ∀ k, C.handles k k) : v.Corresponds C v := by
  induction h with
  | simple hv => exact .simple hv
  | automaton hsymbols => exact .automaton (hself _) ⟨.refl hsymbols, fun _ => rfl⟩
  | pathSystem => exact .pathSystem (hself _)
  | list _ ih => exact .of_forall₂ (List.forall₂_same.2 ih)

theorem Within.corresponds (h : v.Within region) : v.Corresponds (.equality region) v :=
  h.corresponds_of fun _ => rfl

/-- Everything refers to some nodes or other. -/
theorem within_univ : ∀ v : Value, v.Within fun _ => True
  | .automaton _ _ => by
    refine .automaton fun {t} _ => ?_
    cases t.symbol with
    | epsilon => trivial
    | step _ => exact fun _ _ => trivial
    | stepAlong _ _ => exact ⟨fun _ _ => trivial, trivial⟩
  | .pathSystem _ _ => .pathSystem
  | .list items => .list fun v _ => within_univ v
  | .null => .simple .null
  | .bool b => .simple (.bool b)
  | .int i => .simple (.int i)
  | .float _ => .simple ⟨rfl, fun _ heq => by cases heq⟩
  | .text _ => .simple ⟨rfl, fun _ heq => by cases heq⟩
  | .vertex v => .simple (.vertex v)
  | .edge e => .simple (.edge e)
  | .vertexSet s => .simple (.vertexSet s)

end Value

section Equality

variable {region : NodeId → Prop}

theorem Supply.corresponds_self (region : NodeId → Prop) (s : Supply) :
    s.Corresponds (.equality region) s :=
  ⟨⟨s.handles, (Nat.zero_add _).symm, (Nat.zero_add _).symm⟩, fun _ => rfl⟩

theorem Bindings.corresponds_self {β : Bindings}
    (h : ∀ frame ∈ β.frames, frame.2.Within region) : β.Corresponds (.equality region) β :=
  List.forall₂_same.2 fun frame hframe => ⟨rfl, (h frame hframe).corresponds⟩

theorem Cache.corresponds_self (cache : Cache) :
    cache.Corresponds (.equality fun _ => True) cache := by
  intro n _
  cases cache.memo n with
  | uninitialized => exact .uninitialized
  | inProgress => exact .inProgress
  | done v => exact .done v.within_univ.corresponds

theorem Workspace.corresponds_self (w : Workspace) :
    w.Corresponds (.equality fun _ => True) w.bindings w.bindings w :=
  ⟨w.cache.corresponds_self, rfl, rfl, w.supply.corresponds_self _⟩

section Workspace

variable {β β' : Bindings} {w w' w'' : Workspace}

theorem Memo.Corresponds.eq {memo memo' : Memo} (h : memo.Corresponds (.equality region) memo') :
    memo = memo' := by
  cases h with
  | done hv => rw [hv.eq_of_exact trivial]
  | _ => rfl

theorem Workspace.Corresponds.memo_eq (h : w.Corresponds (.equality region) β β' w') {n : NodeId}
    (hn : region n) : w.cache.memo n = w'.cache.memo n :=
  (h.cache n hn).eq

theorem Workspace.Corresponds.symm_trans (h : w.Corresponds (.equality region) β β w')
    {region' : NodeId → Prop} (hsub : ∀ n, region' n → region n)
    (h' : w.Corresponds (.equality region') β β w'') :
    w'.Corresponds (.equality region') β β w'' where
  cache n hn := by
    rw [← h.memo_eq (hsub n hn)]
    exact h'.cache n hn
  bindings_eq := h.bindings_eq'
  bindings_eq' := h'.bindings_eq'
  supply := by
    rw [← h.supply.eq_of_exact trivial]
    exact h'.supply

end Workspace

/-- Functions that hand out nothing that refers to other nodes than what they are given. -/
theorem FunctionLibrary.respects_equality {functions : FunctionLibrary}
    (h : ∀ n name args v, (∀ arg ∈ args, arg.Within region) →
      functions.call n name args = .ok v → v.Within region) :
    functions.Respects (.equality region) := by
  intro m n name args args' hmn hargs
  obtain rfl : m = n := hmn trivial
  obtain rfl : args = args' := by
    rw [← List.forall₂_eq_eq_eq]
    exact hargs.imp fun _ _ hv => hv.eq_of_exact trivial
  cases hcall : functions.call m name args with
  | error failure => exact rfl
  | ok v =>
    have hwithin : ∀ arg ∈ args, arg.Within region :=
      fun arg harg => (List.forall₂_same.1 hargs arg harg).within
    exact (h m name args v hwithin hcall).corresponds

/-- What is the same for both evaluations. -/
theorem Evaluation.prepared_equality {scope : Scope} {spared : Failure → Prop}
    (closed : ∀ {n c : NodeId}, region n → c ∈ scope.nodes.childrenOf n → region c)
    (literal : ∀ {n : NodeId} {v : Value}, region n → scope.nodes.get n = .ok (.literal v) →
      v.Within region)
    (functions : ∀ n name args v, (∀ arg ∈ args, arg.Within region) →
      scope.functions.call n name args = .ok v → v.Within region)
    (shared : ∀ {n : NodeId} {x : String} {v : Value}, region n →
      scope.nodes.get n = .ok (.var x) → scope.shared.bind (·.get x) = some v → v.Within region) :
    Prepared (.equality region) spared scope scope.shared where
  closed := closed
  literal hn hget := (literal hn hget).corresponds
  functions := FunctionLibrary.respects_equality functions
  shared {n x} hn hget := by
    cases hx : scope.shared.bind (·.get x) with
    | none => exact .inr ⟨rfl, .inl rfl⟩
    | some v => exact .inl ⟨v, v, rfl, rfl, (shared hn hget hx).corresponds⟩

/-- If all nodes are compared, nothing is asked of the surroundings. -/
theorem Evaluation.prepared_univ (scope : Scope) (spared : Failure → Prop) :
    Prepared (.equality fun _ => True) spared scope scope.shared :=
  prepared_equality (fun _ _ => trivial) (fun {_ v} _ _ => v.within_univ)
    (fun _ _ _ v _ _ => v.within_univ) fun {_ _ v} _ _ _ => v.within_univ

end Equality

/-! ## The end of an evaluation -/

/-- A value or an error, not a panic. -/
def Orderly (outcome : Except Failure Value) : Prop :=
  ∀ failure, outcome = .error failure → ∃ e, failure = .error e

namespace Query

/-- The question is the same, and the names stand for the same. -/
structure Agrees (q q' : Query) : Prop where
  nodes_eq : q'.nodes = q.nodes
  root_eq : q'.root = q.root
  functions_eq : q'.functions = q.functions
  limits_eq : q'.limits = q.limits
  bindings_eq : q'.bindings = q.bindings

namespace Agrees

variable {q q' q'' : Query}

theorem refl (q : Query) : q.Agrees q :=
  ⟨rfl, rfl, rfl, rfl, rfl⟩

theorem trans (h : q.Agrees q') (h' : q'.Agrees q'') : q.Agrees q'' :=
  ⟨h'.nodes_eq.trans h.nodes_eq, h'.root_eq.trans h.root_eq, h'.functions_eq.trans h.functions_eq,
    h'.limits_eq.trans h.limits_eq, h'.bindings_eq.trans h.bindings_eq⟩

theorem symm (h : q.Agrees q') : q'.Agrees q :=
  ⟨h.nodes_eq.symm, h.root_eq.symm, h.functions_eq.symm, h.limits_eq.symm, h.bindings_eq.symm⟩

theorem reset (q : Query) : q.Agrees q.reset :=
  ⟨rfl, rfl, rfl, rfl, rfl⟩

theorem corresponds {region : NodeId → Prop} (h : q.Agrees q')
    (cache : q.cache.Corresponds (.equality region) q'.cache)
    (bindings : ∀ frame ∈ q.bindings.frames, frame.2.Within region) :
    q.Corresponds (.equality region) q' where
  nodes_eq := h.nodes_eq
  root_eq := h.root_eq
  functions_eq := h.functions_eq
  limits_eq := h.limits_eq
  cache := cache
  bindings := by
    rw [h.bindings_eq]
    exact Bindings.corresponds_self bindings

end Agrees

/-- Guards take back what they bind, also when their condition ends with an error. -/
theorem evaluate_agrees (q : Query) (g : Graph) (shared : Option SharedEnvironment)
    (supply : Supply) (horderly : Orderly (q.evaluate g shared supply).1) :
    q.Agrees (q.evaluate g shared supply).2.1 := by
  -- The query is compared with itself.
  have hself : q.Corresponds (.equality fun _ => True) q :=
    (Agrees.refl q).corresponds q.cache.corresponds_self fun frame _ => frame.2.within_univ
  have hprepared : Evaluation.Prepared (.equality fun _ => True) (fun _ => False)
      (q.scope g shared) shared := Evaluation.prepared_univ _ _
  have hevaluate := hself.evaluate hprepared trivial (supply.corresponds_self _)
  have hchanged : ∃ cache bindings evaluatedAt,
      (q.evaluate g shared supply).2.1 = { q with cache, bindings, evaluatedAt } := by
    rw [evaluate_apply]
    rcases Evaluation.result (q.scope g shared) q.root ⟨q.cache, q.bindings, supply⟩ with
      ⟨failure | v, w⟩
    · exact ⟨_, _, _, rfl⟩
    · exact ⟨_, _, _, rfl⟩
  have hbindings : (q.evaluate g shared supply).2.1.bindings = q.bindings := by
    rcases hx : q.evaluate g shared supply with ⟨failure | v, r, s⟩
    · rw [hx] at hevaluate horderly
      rcases horderly failure rfl with ⟨e, rfl⟩
      rcases hevaluate with hfalse | ⟨_, _, _, hkept⟩
      · exact hfalse.elim
      · exact (hkept e rfl).2.2
    · rw [hx] at hevaluate
      rcases hevaluate with ⟨_, _, _, _, _, _, _, hkept⟩
      exact hkept
  rcases hchanged with ⟨cache, bindings, evaluatedAt, heq⟩
  rw [heq] at hbindings ⊢
  exact ⟨rfl, rfl, rfl, rfl, hbindings⟩

end Query

end PathQuery

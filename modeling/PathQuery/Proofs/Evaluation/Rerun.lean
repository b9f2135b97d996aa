import PathQuery.Proofs.Evaluation.Handed
import PathQuery.Proofs.Evaluation.Queries

/-!
# The same query at another time

A query that is run at another time, with the results of other queries under other handles and
beside results that it does not look at, answers the same but for handles and serials.

* `Corresponds.trans`: one correspondence after another;
* `Correspondence.renumbering`: nothing but serials is different;
* `Query.Before`: queries that know and hold only what was there before;
* `Before.run_before`: what such a query answers has handles from its supply;
* `Before.run_elsewhere`: and corresponds to what it answers elsewhere;
* `Query.ResolvesOnly`: the query does not look at other names than these.
-/

namespace PathQuery

/-! ## Correspondences one after another -/

theorem Automaton.Twin.trans {P Q : Symbol → Prop} {a b c : Automaton} (h : a.Twin P b)
    (h' : b.Twin Q c) : a.Twin P c where
  states := h.states.trans h'.states
  transitions := h.transitions.trans h'.transitions
  initial := h.initial.trans h'.initial
  closures := h.closures.trans h'.closures
  fault := h.fault.trans h'.fault
  symbols := h.symbols

/-- Serials were drawn in between, so that later ones are different. -/
def Correspondence.renumbering : Correspondence :=
  { equality fun _ => True with
    exact := False
    eq_of_exact := False.elim }

theorem Correspondence.renumbering_refl (outcome : Except Failure Value) :
    renumbering.Outcomes outcome outcome := by
  cases outcome with
  | error failure => exact rfl
  | ok v => exact v.within_univ.corresponds_of fun _ => rfl

namespace Value

variable {C D E : Correspondence} {bound : Nat} {u v w : Value}

/-- Only the handles in the first value matter. -/
theorem Corresponds.trans (h : u.Corresponds C v) (h' : v.Corresponds D w) (hu : u.Before bound)
    (hexact : ¬ E.exact) (hregion : ∀ n, C.region n → E.region n)
    (hhandles : ∀ {h k l : Nat}, C.handles h k → D.handles k l → h < bound → E.handles h l) :
    u.Corresponds E w := by
  induction h generalizing w with
  | simple hv =>
    rw [← h'.eq_of_isSimple hv]
    exact .simple hv
  | automaton hh hab =>
    cases h' with
    | simple hv => exact (not_isSimple_automaton _ _ hv).elim
    | automaton hk hbc =>
      cases hu with
      | simple hv => exact (not_isSimple_automaton _ _ hv).elim
      | automaton hlt =>
        refine .automaton (hhandles hh hk hlt) ⟨?_, fun he => (hexact he).elim⟩
        exact (hab.twin.trans hbc.twin).mono fun _ hsymbol => hsymbol.mono hregion
  | pathSystem hh =>
    cases h' with
    | simple hv => exact (not_isSimple_pathSystem _ _ hv).elim
    | pathSystem hk =>
      cases hu with
      | simple hv => exact (not_isSimple_pathSystem _ _ hv).elim
      | pathSystem hlt => exact .pathSystem (hhandles hh hk hlt)
  | @list us vs hlength hitems ih =>
    cases h' with
    | simple hv => exact (not_isSimple_list _ hv).elim
    | @list _ ws hlength' hitems' =>
      cases hu with
      | simple hv => exact (not_isSimple_list _ hv).elim
      | list hbefore =>
        refine .list (hlength.trans hlength') ?_
        intro u w huw
        rcases List.mem_iff_getElem.1 huw with ⟨i, hi, heq⟩
        rw [List.length_zip] at hi
        rw [List.getElem_zip, Prod.mk.injEq] at heq
        rcases heq with ⟨rfl, rfl⟩
        have huv : (us[i], vs[i]) ∈ us.zip vs :=
          List.mem_iff_getElem.2 ⟨i, by rw [List.length_zip]; omega, List.getElem_zip⟩
        have hvw : (vs[i], ws[i]) ∈ vs.zip ws :=
          List.mem_iff_getElem.2 ⟨i, by rw [List.length_zip]; omega, List.getElem_zip⟩
        exact ih huv (hitems' hvw) (hbefore _ (List.getElem_mem _))

/-- Handles that do not occur in the value need not be related. -/
theorem Corresponds.mono (h : u.Corresponds C v) (hu : u.Before bound) (hexact : ¬ E.exact)
    (hregion : ∀ n, C.region n → E.region n)
    (hhandles : ∀ {h k : Nat}, C.handles h k → h < bound → E.handles h k) : u.Corresponds E v :=
  h.trans v.within_univ.corresponds hu hexact hregion fun {_ k _} hh hkl hlt => by
    obtain rfl : k = _ := hkl
    exact hhandles hh hlt

end Value

theorem FunctionLibrary.Uniform.mono {functions : FunctionLibrary} {base base' : Nat}
    {region : NodeId → Prop} (h : functions.Uniform base region) (hle : base ≤ base') :
    functions.Uniform base' region :=
  fun C hregion hexact hhandles =>
    h C hregion hexact fun k hk => hhandles k (Nat.lt_of_lt_of_le hk hle)

/-! ## Queries -/

namespace Query

/-- Nothing that the query knows or holds was made later. -/
structure Before (base : Nat) (q : Query) : Prop where
  memos {n : NodeId} {v : Value} : q.cache.memo n = .done v → v.Before base
  bindings {frame : String × Value} : frame ∈ q.bindings.frames → frame.2.Before base
  literals {n : NodeId} {v : Value} : q.nodes.get n = .ok (.literal v) → v.Before base

variable {q : Query} {g : Graph} {env env' : SharedEnvironment} {supply supply' : Supply}
  {base : Nat}

/-- A reset finds nothing out. -/
theorem memo_of_reset {n : NodeId} {v : Value} (h : q.reset.cache.memo n = .done v) :
    q.cache.memo n = .done v := by
  rw [Query.reset, Cache.resetAllFrom, Cache.memo_forgetAll] at h
  split at h
  · cases h
  · exact h

theorem Before.reset (h : q.Before base) : q.reset.Before base where
  memos hdone := h.memos (memo_of_reset hdone)
  bindings := h.bindings
  literals := h.literals

/-- Handles of what is answered come from the supply, as those of the other results do. -/
theorem Before.run_before (h : q.Before base) (huniform : q.functions.Uniform base fun _ => True)
    (hbase : base ≤ supply.handles) (henv : ∀ x v, env.get x = some v → v.Before supply.handles)
    {v : Value} {rest : Query} {later : Supply}
    (hrun : q.run g env supply = (.ok v, rest, later)) :
    v.Before later.handles ∧ supply.handles ≤ later.handles := by
  have hsupplied : Evaluation.Supplied supply.handles (q.reset.scope g (some env)) :=
    ⟨fun hget => (h.literals hget).mono hbase, fun hx => henv _ _ hx, huniform.mono hbase⟩
  have hdated : Workspace.Dated supply.handles ⟨q.reset.cache, q.reset.bindings, supply⟩ :=
    ⟨Nat.le_refl _, fun hdone => (h.reset.memos hdone).mono hbase,
      fun hframe => (h.bindings hframe).mono hbase⟩
  have hbrings := Evaluation.result_brings hsupplied q.reset.root
  have hkept := hbrings.keeps _ hdated
  rw [Query.run, evaluate_apply] at hrun
  rcases hx : Evaluation.result (q.reset.scope g (some env)) q.reset.root
    ⟨q.reset.cache, q.reset.bindings, supply⟩ with ⟨failure | u, w⟩
  · rw [hx] at hrun
    cases hrun
  · have hbefore := hbrings.before hdated hx
    rw [hx] at hrun hkept
    cases hrun
    exact ⟨hbefore, hkept.2⟩

/-- Every result that the query found is found elsewhere, under a handle that stands for the first
one.  What else is there does not matter to a query that had all it was looking for. -/
theorem Before.run_elsewhere (h : q.Before base)
    (huniform : q.functions.Uniform base fun _ => True) {start start' : Nat}
    (P : Pairing start start') (hstart : supply.handles = start)
    (hstart' : supply'.handles = start') (hbase : ∀ k < base, P.pairs k k)
    (henv : ∀ x v, env.get x = some v →
      ∃ w, env'.get x = some w ∧ v.Corresponds (P.correspondence fun _ => True) w)
    {v : Value} {rest : Query} {later : Supply}
    (hrun : q.run g env supply = (.ok v, rest, later)) :
    ∃ w rest' later', q.run g env' supply' = (.ok w, rest', later') ∧
      v.Corresponds (P.correspondence fun _ => True) w ∧
      ∃ n, later.handles = start + n ∧ later'.handles = start' + n := by
  -- What was there before stands for itself; the rest of what the query finds is paired in `P`.
  let C := P.correspondence fun _ => True
  have hexact : ¬ C.exact := id
  have hself : ∀ {v : Value}, v.Before base → v.Corresponds C v := fun {v} hv =>
    hv.corresponds v.within_univ fun k hk => .inl (hbase k hk)
  have hcorresponds : q.reset.Corresponds C q.reset := by
    refine ⟨rfl, rfl, rfl, rfl, fun n _ => ?_, ?_⟩
    · cases hm : q.reset.cache.memo n with
      | uninitialized => exact .uninitialized
      | inProgress => exact .inProgress
      | done v => exact .done (hself (h.reset.memos hm))
    · exact List.forall₂_same.2 fun frame hframe => ⟨rfl, hself (h.bindings hframe)⟩
  have hprepared : Evaluation.Prepared C (fun _ => True) (q.reset.scope g (some env)) (some env') :=
    { closed := fun _ _ => trivial
      literal := fun _ hget => hself (h.literals hget)
      functions := huniform C rfl hexact fun k hk => .inl (hbase k hk)
      shared := fun {n x} _ _ => by
        change (∃ v w, env.get x = some v ∧ env'.get x = some w ∧ v.Corresponds C w) ∨
          (env.get x = none ∧ (env'.get x = none ∨ True))
        cases hx : env.get x with
        | none => exact .inr ⟨rfl, .inr trivial⟩
        | some v =>
          rcases henv x v hx with ⟨w, hw, hvw⟩
          exact .inl ⟨v, w, rfl, hw, hvw⟩ }
  have hevaluate := hcorresponds.evaluate hprepared trivial
    (Supply.corresponds_start hexact hstart hstart')
  have hfirst : q.reset.evaluate g (some env) supply = (.ok v, rest, later) := hrun
  rw [hfirst] at hevaluate
  rcases hevaluate with ⟨w, rest', later', hsecond, hvw, _, hlater, _⟩
  exact ⟨w, rest', later', hsecond, hvw, hlater.handles⟩

/-! ## Names -/

/-- Whatever else is there, the query answers the same. -/
def ResolvesOnly (q : Query) (g : Graph) (names : String → Prop) (env : SharedEnvironment)
    (supply : Supply) : Prop :=
  ∀ env' : SharedEnvironment, (∀ x, names x → env'.get x = env.get x) →
    (q.run g env' supply).1 = (q.run g env supply).1

/-- A query resolves no other names than those of the variables in a region that it never leaves,
whatever it is given. -/
theorem resolvesOnly_of_region {names : String → Prop} {region : NodeId → Prop}
    (root : region q.root)
    (closed : ∀ {n c : NodeId}, region n → c ∈ q.nodes.childrenOf n → region c)
    (vars : ∀ {n : NodeId} {x : String}, region n → q.nodes.get n = .ok (.var x) → names x)
    (entries : ∀ {x : String} {v : Value}, names x → env.get x = some v → v.Within region)
    (memos : ∀ {n : NodeId} {v : Value}, region n → q.cache.memo n = .done v → v.Within region)
    (bindings : ∀ frame ∈ q.bindings.frames, frame.2.Within region)
    (literals : ∀ {n : NodeId} {v : Value}, region n → q.nodes.get n = .ok (.literal v) →
      v.Within region)
    (functions : ∀ n name args v, (∀ arg ∈ args, arg.Within region) →
      q.functions.call n name args = .ok v → v.Within region)
    (g : Graph) (supply : Supply) : q.ResolvesOnly g names env supply := by
  intro env' hsame
  have hcache : q.reset.cache.Corresponds (.equality region) q.reset.cache := by
    intro n hn
    cases hm : q.reset.cache.memo n with
    | uninitialized => exact .uninitialized
    | inProgress => exact .inProgress
    | done v => exact .done (memos hn (memo_of_reset hm)).corresponds
  have hself : q.reset.Corresponds (.equality region) q.reset :=
    (Agrees.refl q.reset).corresponds hcache bindings
  have hprepared : Evaluation.Prepared (.equality region) (fun _ => False)
      (q.reset.scope g (some env)) (some env') :=
    { closed := closed
      literal := fun hn hget => (literals hn hget).corresponds
      functions := FunctionLibrary.respects_equality functions
      shared := fun {n x} hn hget => by
        change (∃ v w, env.get x = some v ∧ env'.get x = some w ∧
          v.Corresponds (.equality region) w) ∨
            (env.get x = none ∧ (env'.get x = none ∨ False))
        have hx := vars hn hget
        rw [hsame x hx]
        cases there : env.get x with
        | none => exact .inr ⟨rfl, .inl rfl⟩
        | some v => exact .inl ⟨v, v, rfl, rfl, (entries hx there).corresponds⟩ }
  have houtcomes := hself.outcomes hprepared root (supply.corresponds_self _)
  exact (houtcomes.eq_of_exact trivial).symm

/-- If it has leave to resolve all names in its syntax graph, it does not matter where it comes. -/
theorem resolvesOnly_of_vars {names : String → Prop}
    (vars : ∀ {n : NodeId} {x : String}, q.nodes.get n = .ok (.var x) → names x) (g : Graph)
    (env : SharedEnvironment) (supply : Supply) : q.ResolvesOnly g names env supply :=
  resolvesOnly_of_region trivial (fun _ _ => trivial) (fun _ => vars)
    (fun {_ v} _ _ => v.within_univ) (fun {_ v} _ _ => v.within_univ)
    (fun frame _ => frame.2.within_univ) (fun {_ v} _ _ => v.within_univ)
    (fun _ _ _ v _ _ => v.within_univ) g supply

end Query

end PathQuery

import PathQuery.Evaluation.Evaluator
import PathQuery.Proofs.Evaluation.Cache
import PathQuery.Proofs.Evaluation.Uncached

/-!
# The cache is transparent where conditions keep to themselves

* `Coherent`: the invariant.  Values that are known and trusted are those that an evaluation without
  a cache finds under the current bindings;
* `Coherent.enter`, `Coherent.leave`: what a guard does to the cache on the way in and on the way
  out;
* `resultWithin_follows`: an evaluation with the cache ends as one without it does.
-/

namespace PathQuery
namespace Evaluation

open Eval

/-! ## The cache in front of the rules -/

section Step

variable {scope : Scope} {result : NodeId → Eval Value} {id : NodeId} {node : Node}

theorem step_of_error {e : EvalError} (hget : scope.nodes.get id = .error e) (w : Workspace) :
    step scope result id w = (.error (.error e), w) := by
  unfold step
  rw [hget]
  rfl

theorem step_apply (hget : scope.nodes.get id = .ok node) (w : Workspace) :
    step scope result id w =
      match w.cache.memo id with
      | .done v => (.ok v, { w with cache := w.cache.extend id })
      | .inProgress =>
        (.error (.error (.cyclicEvaluation id)), { w with cache := w.cache.extend id })
      | .uninitialized => compute scope result id node { w with cache := w.cache.start id } := by
  unfold step
  rw [hget, ofExcept_ok_bind]
  refine (modifyGet_bind_apply _ _ w).trans ?_
  rw [Cache.begin]
  cases w.cache.memo id <;> rfl

theorem compute_apply (w : Workspace) :
    compute scope result id node w =
      match rule scope result id node w with
      | (.ok v, w) => (.ok v, { w with cache := w.cache.finish id v })
      | (.error (.error e), w) => (.error (.error e), { w with cache := w.cache.abort id })
      | (.error failure, w) => (.error failure, w) := by
  unfold compute
  rw [bind_apply, outcome]
  rcases rule scope result id node w with ⟨(_ | _ | _) | v, w₁⟩ <;> rfl

end Step

variable {scope : Scope} {base : Nat}

/-! ## Situations -/

/-- What holds when a node is asked for while others are being computed. -/
structure Situation (scope : Scope) (base : Nat) (Γ : Region scope.nodes) (busy : List NodeId)
    (β : Bindings) (level : Level) (depth : Nat) (id : NodeId) : Prop where
  trusts : Γ.trusts id
  settled : SettledBindings scope base β
  computing : Busy scope.nodes busy id
  /-- There is depth for all nodes that are not being computed yet. -/
  depth_lt : scope.nodes.size < busy.length + depth
  stuck {n : NodeId} : n ∈ busy → scope.nodes.Below id n → Stuck scope base level β n

namespace Situation

variable {Γ : Region scope.nodes} {busy : List NodeId} {β : Bindings} {level : Level} {depth : Nat}
  {id : NodeId}

theorem child (h : Situation scope base Γ busy β level depth id) {n c : NodeId}
    (hn : Relation.ReflTransGen scope.nodes.Asks id n) (hc : scope.nodes.Asks n c) :
    Situation scope base Γ busy β level depth c := by
  have hbelow : scope.nodes.Below id c := (SyntaxGraph.below_of_asks hn).trans hc.below
  exact ⟨Γ.trusts_of_asks h.trusts (hn.tail hc), h.settled, h.computing.below hbelow, h.depth_lt,
    fun hm hcm => h.stuck hm (hbelow.trans hcm)⟩

theorem condition (h : Situation scope base Γ busy β level depth id)
    (hgrounded : Grounded scope base) (hconfined : scope.nodes.Confined) {n predicate : NodeId}
    {x : String} (e : Incidence) (hn : Relation.ReflTransGen scope.nodes.Asks id n)
    (hbinds : scope.nodes.Binds n predicate x) :
    Situation scope base (.under hconfined predicate) busy (β.push x (.edge e)) level depth
      predicate := by
  have hholder : scope.nodes.Below id n := SyntaxGraph.below_of_asks hn
  have hbelow : scope.nodes.Below id predicate := hholder.trans hbinds.below
  -- A node that leads to the guard does not depend on its variable, so it is as stuck inside the
  -- condition as outside.
  refine ⟨Region.under_trusts_root hconfined predicate, h.settled.push x e,
    h.computing.below hbelow, h.depth_lt, ?_⟩
  intro m hm hpm
  exact (h.stuck hm (hbelow.trans hpm)).push hgrounded hconfined h.settled hbinds
    ((h.computing.leads hm).trans hholder) hpm

/-- The node itself is computed now. -/
theorem start (h : Situation scope base Γ busy β level (depth + 1) id) {node : Node}
    (hget : scope.nodes.get id = .ok node) (hid : id ∉ busy) {inner : Level}
    (hinner : ∀ n, Stuck scope base level β n → Stuck scope base inner β n)
    (hself : Stuck scope base inner β id) :
    Situation scope base Γ (id :: busy) β inner depth id := by
  refine ⟨h.trusts, h.settled, h.computing.cons hget hid, ?_, ?_⟩
  · have hlt := h.depth_lt
    rw [List.length_cons]
    lia
  · intro n hn hbelow
    rcases List.mem_cons.1 hn with rfl | hn
    · exact hself
    · exact hinner n (h.stuck hn hbelow)

end Situation

/-! ## What is expected -/

/-- At a level an answer can be missing for want of depth. -/
def Level.Spares : Level → Failure → Prop
  | upTo _, failure => failure = .exhausted
  | unlimited, _ => False

/-- Without a level, nodes that depend on themselves are noticed. -/
def expected (scope : Scope) (base depth : Nat) (busy : List NodeId) : Level → Answering
  | .upTo k => uncached scope base k none
  | .unlimited => uncached scope base depth (some busy)

/-- An expected value is found at some depth although nothing is noticed. -/
theorem expected_ok (hgrounded : Grounded scope base) {depth : Nat} {busy : List NodeId}
    {level : Level} {β : Bindings} {id : NodeId} {v : Value}
    (hsettled : SettledBindings scope base β)
    (h : expected scope base depth busy level id β = .ok v) :
    ∃ k, uncached scope base k none id β = .ok v := by
  cases level with
  | upTo k => exact ⟨k, h⟩
  | unlimited => exact ⟨_, uncached_ok hgrounded hsettled h⟩

section Expected

variable {Γ : Region scope.nodes} {depth : Nat} {busy : List NodeId} {β : Bindings} {id : NodeId}
  {level : Level}
  (hcared : ∀ failure, expected scope base (depth + 1) busy level id β = .error failure →
    ¬ level.Spares failure)
include hcared

theorem expected_of_error {e : EvalError} (hget : scope.nodes.get id = .error e) :
    expected scope base (depth + 1) busy level id β = .error (.error e) := by
  cases level with
  | upTo k =>
    cases k with
    -- Without any depth the answer is a spared failure.
    | zero => exact absurd rfl (hcared _ rfl)
    | succ k => rw [expected, uncached, hget]
  | unlimited => rw [expected, uncached, hget]

theorem expected_of_busy {node : Node} (hget : scope.nodes.get id = .ok node) (hid : id ∈ busy)
    (hstuck : Stuck scope base level β id) :
    expected scope base (depth + 1) busy level id β = .error (.error (.cyclicEvaluation id)) := by
  cases level with
  | upTo k => exact absurd rfl (hcared _ (hstuck k (Nat.le_refl k)))
  | unlimited =>
    rw [expected, uncached, hget]
    simp only [Option.getD_some, if_pos hid]

theorem expected_of_known (hgrounded : Grounded scope base) (hconfined : scope.nodes.Confined)
    (h : Situation scope base Γ busy β level (depth + 1) id) {k : Nat} {v : Value}
    (hknown : uncached scope base k none id β = .ok v) :
    expected scope base (depth + 1) busy level id β = .ok v := by
  have hfound : uncached scope base k none id β ≠ .error .exhausted := by
    rw [hknown]
    intro heq
    cases heq
  cases level with
  | upTo m =>
    -- Whichever depth is larger, both are enough.
    rcases Nat.le_total k m with hle | hle
    · exact (uncached_eq hgrounded hle h.settled (fun _ _ => rfl) hfound).trans hknown
    · have heq := uncached_eq hgrounded hle h.settled (fun _ _ => rfl) fun heq => hcared _ heq rfl
      exact heq.symm.trans hknown
  | unlimited =>
    exact (uncached_busy hgrounded hconfined h.settled h.computing h.depth_lt
      (fun n hn hbelow => (h.stuck hn hbelow).lower trivial) hfound).trans hknown

/-- One step: there is a level for the children, at which the node itself has no value. -/
theorem exists_level (hgrounded : Grounded scope base) (hconfined : scope.nodes.Confined)
    (h : Situation scope base Γ busy β level (depth + 1) id) {node : Node}
    (hget : scope.nodes.get id = .ok node) (hid : id ∉ busy) :
    ∃ inner : Level, (∀ n, Stuck scope base level β n → Stuck scope base inner β n) ∧
      Stuck scope base inner β id ∧
      expected scope base (depth + 1) busy level id β =
        answer scope base (expected scope base depth (id :: busy) inner) id node β ∧
      ∀ failure, expected scope base (depth + 1) busy level id β = .error failure →
        ¬ inner.Spares failure := by
  have hunfold : ∀ k, uncached scope base (k + 1) none id β =
      answer scope base (uncached scope base k none) id node β := by
    intro k
    rw [uncached, hget]
    rfl
  cases level with
  | upTo k =>
    have hfound : uncached scope base k none id β ≠ .error .exhausted :=
      fun heq => hcared _ heq rfl
    -- The least depth that is enough for the node; one less is not, and is enough for the children.
    rcases exists_depth hgrounded h.settled hfound with ⟨j, hj, hnot, heq⟩
    exact ⟨.upTo j, fun n hn => hn.lower (Nat.le_of_lt hj), .of_eq hgrounded h.settled hnot,
      heq.symm.trans (hunfold j), hcared⟩
  | unlimited =>
    -- A node that has a value at some depth goes on at a level.  One that has none at all depends on
    -- itself, and what is expected of it is the error of the first node that is met again.
    by_cases hfinite : ∃ k, uncached scope base k none id β ≠ .error .exhausted
    · rcases hfinite with ⟨k, hfound⟩
      rcases exists_depth hgrounded h.settled hfound with ⟨j, _, hnot, heq⟩
      have hnoticed := uncached_busy hgrounded hconfined h.settled h.computing h.depth_lt
        (fun n hn hbelow => (h.stuck hn hbelow).lower trivial) hfound
      refine ⟨.upTo j, fun n hn => hn.lower trivial, .of_eq hgrounded h.settled hnot,
        hnoticed.trans (heq.symm.trans (hunfold j)), ?_⟩
      rintro failure hfailure rfl
      exact hfound (hnoticed.symm.trans hfailure)
    · refine ⟨.unlimited, fun n hn => hn, ?_, ?_, fun _ _ hspared => hspared⟩
      · intro k _
        by_contra hfound
        exact hfinite ⟨k, hfound⟩
      · simp only [expected]
        rw [uncached, hget]
        simp only [Option.getD_some, if_neg hid, Option.map_some]

end Expected

/-! ## The invariant -/

/-- The evaluations below one guard.  The cache outside the region is as it was when the guard was
entered. -/
structure Coherent (scope : Scope) (base : Nat) (Γ : Region scope.nodes) (busy : List NodeId)
    (β : Bindings) (outside : NodeId → Memo) (o : Owners) (w : Workspace) : Prop where
  bindings_eq : w.bindings = β
  base_le : base ≤ w.supply.handles
  unowned {h : Nat} : w.supply.handles ≤ h → o h = none
  busy_iff {n : NodeId} : w.cache.memo n = .inProgress ↔ n ∈ busy
  known {n : NodeId} {v : Value} : Γ.trusts n → w.cache.memo n = .done v →
    ∃ k v', uncached scope base k none n β = .ok v' ∧
      v.Alike (scope.nodes.Refers n) base o n v'
  outside_eq {n : NodeId} : ¬ Γ.reaches n → w.cache.memo n = outside n

namespace Coherent

variable {Γ : Region scope.nodes} {busy : List NodeId} {β : Bindings} {outside : NodeId → Memo}
  {o : Owners} {w : Workspace}

theorem counters (h : Coherent scope base Γ busy β outside o w) (serials calls : Nat) :
    Coherent scope base Γ busy β outside o
      { w with supply := ⟨serials, w.supply.handles, calls⟩ } :=
  ⟨h.bindings_eq, h.base_le, h.unowned, h.busy_iff, h.known, h.outside_eq⟩

/-- The next handle goes to a node. -/
theorem claim (h : Coherent scope base Γ busy β outside o w) (id : NodeId) :
    ∃ o₁, o.Grows o₁ ∧ o₁ w.supply.handles = some id ∧
      Coherent scope base Γ busy β outside o₁
        { w with supply := { w.supply with handles := w.supply.handles + 1 } } := by
  -- No handle that was not given out has an owner, so none loses it.
  have hgrows : o.Grows (Function.update o w.supply.handles (some id)) := by
    refine ⟨?_⟩
    intro handle c howner
    rw [Function.update_of_ne, howner]
    rintro rfl
    rw [h.unowned (Nat.le_refl _)] at howner
    cases howner
  refine ⟨_, hgrows, Function.update_self _ _ _, h.bindings_eq, Nat.le_succ_of_le h.base_le, ?_,
    h.busy_iff, ?_, h.outside_eq⟩
  · intro handle hle
    rw [Function.update_of_ne (Nat.ne_of_gt hle)]
    exact h.unowned (Nat.le_of_succ_le hle)
  · intro n v hn hmemo
    rcases h.known hn hmemo with ⟨k, v', hv', halike⟩
    exact ⟨k, v', hv', halike.mono hgrows⟩

/-- The memo of one node of the region changes. -/
theorem change (h : Coherent scope base Γ busy β outside o w) {cache : Cache} {id : NodeId}
    {memo : Memo} {busy' : List NodeId}
    (hcache : ∀ n, cache.memo n = if n = id then memo else w.cache.memo n) (hid : Γ.reaches id)
    (hprogress : memo = .inProgress ↔ id ∈ busy')
    (hothers : ∀ n, n ≠ id → (n ∈ busy' ↔ n ∈ busy))
    (hknown : ∀ v, memo = .done v → ∃ k v', uncached scope base k none id β = .ok v' ∧
      v.Alike (scope.nodes.Refers id) base o id v') :
    Coherent scope base Γ busy' β outside o { w with cache } := by
  refine ⟨h.bindings_eq, h.base_le, h.unowned, ?_, ?_, ?_⟩
  · intro n
    rw [hcache]
    split
    · rename_i heq
      rw [heq]
      exact hprogress
    · rename_i hne
      exact h.busy_iff.trans (hothers n hne).symm
  · intro n v hn hmemo
    rw [hcache] at hmemo
    split at hmemo
    · rename_i heq
      subst heq
      exact hknown v hmemo
    · exact h.known hn hmemo
  · intro n hn
    rw [hcache, if_neg]
    · exact h.outside_eq hn
    · rintro rfl
      exact hn hid

theorem same (h : Coherent scope base Γ busy β outside o w) {cache : Cache}
    (hcache : ∀ n, cache.memo n = w.cache.memo n) :
    Coherent scope base Γ busy β outside o { w with cache } := by
  refine ⟨h.bindings_eq, h.base_le, h.unowned, ?_, ?_, ?_⟩
  · intro n
    rw [hcache]
    exact h.busy_iff
  · intro n v hn hmemo
    rw [hcache] at hmemo
    exact h.known hn hmemo
  · intro n hn
    rw [hcache]
    exact h.outside_eq hn

section Marks

variable {id : NodeId} (hid : Γ.reaches id)
include hid

theorem start (h : Coherent scope base Γ busy β outside o w) :
    Coherent scope base Γ (id :: busy) β outside o { w with cache := w.cache.start id } := by
  refine h.change (w.cache.memo_start id) hid ?_ ?_ ?_
  · exact ⟨fun _ => List.mem_cons_self, fun _ => rfl⟩
  · intro n hn
    rw [List.mem_cons, or_iff_right hn]
  · intro v heq
    cases heq

/-- The mark of the last busy node is replaced: by its value, or by nothing. -/
theorem unmark {before : List NodeId} (hbefore : id ∉ before)
    (h : Coherent scope base Γ (id :: before) β outside o w) {cache : Cache} {memo : Memo}
    (hcache : ∀ n, cache.memo n = if n = id then memo else w.cache.memo n)
    (hmemo : memo ≠ .inProgress)
    (hknown : ∀ v, memo = .done v → ∃ k v', uncached scope base k none id β = .ok v' ∧
      v.Alike (scope.nodes.Refers id) base o id v') :
    Coherent scope base Γ before β outside o { w with cache } := by
  refine h.change hcache hid ?_ ?_ hknown
  · exact ⟨fun heq => absurd heq hmemo, fun hmem => absurd hmem hbefore⟩
  · intro n hn
    rw [List.mem_cons, or_iff_right hn]

theorem finish {before : List NodeId} (hbefore : id ∉ before)
    (h : Coherent scope base Γ (id :: before) β outside o w) {k : Nat} {v v' : Value}
    (hv' : uncached scope base k none id β = .ok v')
    (halike : v.Alike (scope.nodes.Refers id) base o id v') :
    Coherent scope base Γ before β outside o { w with cache := w.cache.finish id v } := by
  refine h.unmark hid hbefore (w.cache.memo_finish id v) Memo.noConfusion ?_
  intro u hu
  cases hu
  exact ⟨k, v', hv', halike⟩

theorem abort {before : List NodeId} (hbefore : id ∉ before)
    (h : Coherent scope base Γ (id :: before) β outside o w) :
    Coherent scope base Γ before β outside o { w with cache := w.cache.abort id } := by
  refine h.unmark hid hbefore (w.cache.memo_abort id) Memo.noConfusion ?_
  intro v heq
  cases heq

end Marks

section Guards

variable (hconfined : scope.nodes.Confined) {holder predicate : NodeId} {x : String}
  {e : Incidence}

/-- When a guard is entered, nothing is known of the nodes below its condition. -/
theorem enter (h : Coherent scope base Γ busy β outside o w) :
    Coherent scope base (.under hconfined predicate) busy (β.push x (.edge e))
      (w.entered scope.nodes predicate x e).cache.memo o
      (w.entered scope.nodes predicate x e) := by
  refine ⟨?_, h.base_le, h.unowned, ?_, ?_, fun _ => rfl⟩
  · rw [← h.bindings_eq]
    rfl
  · intro n
    exact (w.cache.memo_resetFrom_eq_inProgress).trans h.busy_iff
  · intro n v hn hmemo
    -- All that the condition may ask for was just forgotten.
    exact absurd hmemo (w.cache.memo_resetFrom_of_below hn.1 v)

include hconfined

/-- When it is left, what is trusted outside keeps its value: it does not depend on the edge. -/
theorem leave (hgrounded : Grounded scope base) (hsettled : SettledBindings scope base β)
    (h : Coherent scope base Γ busy β outside o w) (hholder : Γ.reaches holder)
    (hbinds : scope.nodes.Binds holder predicate x) {o₁ : Owners} {w₁ : Workspace}
    (ho : o.Grows o₁)
    (h₁ : Coherent scope base (.under hconfined predicate) busy (β.push x (.edge e))
      (w.entered scope.nodes predicate x e).cache.memo o₁ w₁) :
    Coherent scope base Γ busy β outside o₁ w₁.left := by
  have hpredicate : Γ.reaches predicate := Γ.reaches_below hholder hbinds.below
  have hfrozen : ∀ {n}, ¬ scope.nodes.Below predicate n → w₁.cache.memo n = w.cache.memo n := by
    intro n hn
    rw [h₁.outside_eq hn]
    exact w.cache.memo_resetFrom_of_not_below hn
  refine ⟨?_, h₁.base_le, h₁.unowned, h₁.busy_iff, ?_, ?_⟩
  · rw [Workspace.left, h₁.bindings_eq]
    rfl
  · intro n v hn hmemo
    -- Below the condition a memo may be from inside the guard; elsewhere it is from before.
    by_cases hbelow : scope.nodes.Below predicate n
    · have hinside := Γ.under_trusts hconfined hholder hbinds hn hbelow
      rcases h₁.known hinside hmemo with ⟨k, v', hv', halike⟩
      refine ⟨k, v', ?_, halike⟩
      -- The node is not private to this guard, so it does not mention the edge.
      have hlookup : ∀ y, scope.nodes.Mentions y n →
          lookup scope β y = lookup scope (β.push x (.edge e)) y := by
        intro y hy
        rw [lookup_push, if_neg]
        rintro rfl
        exact Γ.not_private hn hholder ⟨hbinds, hbelow, hy⟩
      rw [← hv']
      refine uncached_eq hgrounded (Nat.le_refl k) (hsettled.push x e) hlookup ?_
      rw [hv']
      intro heq
      cases heq
    · rw [Workspace.left, hfrozen hbelow] at hmemo
      rcases h.known hn hmemo with ⟨k, v', hv', halike⟩
      exact ⟨k, v', hv', halike.mono ho⟩
  · intro n hn
    -- The region is closed, so the condition lies inside it.
    have hbelow : ¬ scope.nodes.Below predicate n :=
      fun hbelow => hn (Γ.reaches_below hpredicate hbelow)
    exact (hfrozen hbelow).trans (h.outside_eq hn)

end Guards

end Coherent

/-! ## Evaluations -/

/-- However a value was found, it is in the cache afterwards. -/
theorem memo_of_resultWithin {depth : Nat} {id : NodeId} {w w₁ : Workspace} {v : Value}
    (h : resultWithin scope depth id w = (.ok v, w₁)) :
    (∃ node, scope.nodes.get id = .ok node) ∧ w₁.cache.memo id = .done v := by
  cases depth with
  | zero => cases h
  | succ depth =>
    unfold resultWithin at h
    cases hget : scope.nodes.get id with
    | error e =>
      rw [step_of_error hget] at h
      cases h
    | ok node =>
      refine ⟨⟨node, rfl⟩, ?_⟩
      rw [step_apply hget] at h
      cases hmemo : w.cache.memo id with
      | done u =>
        simp only [hmemo] at h
        cases h
        exact (w.cache.memo_extend id id).trans hmemo
      | inProgress =>
        simp only [hmemo] at h
        cases h
      | uninitialized =>
        simp only [hmemo, compute_apply] at h
        split at h
        · cases h
          rw [Cache.memo_finish, if_pos rfl]
        · cases h
        · cases h

/-- A value that is known is not computed. -/
theorem resultWithin_of_memo {depth : Nat} {id : NodeId} {node : Node} {w : Workspace} {v : Value}
    (hget : scope.nodes.get id = .ok node) (hdone : w.cache.memo id = .done v) :
    resultWithin scope (depth + 1) id w = (.ok v, { w with cache := w.cache.extend id }) := by
  unfold resultWithin
  rw [step_apply hget, hdone]

theorem resultWithin_again {depth : Nat} {id : NodeId} {w w₁ : Workspace} {v : Value}
    (h : resultWithin scope depth id w = (.ok v, w₁)) :
    ∃ w₂, resultWithin scope depth id w₁ = (.ok v, w₂) := by
  cases depth with
  | zero => cases h
  | succ depth =>
    obtain ⟨⟨node, hget⟩, hdone⟩ := memo_of_resultWithin h
    exact ⟨_, resultWithin_of_memo hget hdone⟩

/-- The cached evaluation has the invariant, the other one the bindings. -/
def coherence (scope : Scope) (base : Nat) (Γ : Region scope.nodes) (busy : List NodeId)
    (β : Bindings) (outside : NodeId → Memo) (level : Level) : Terms where
  spared := level.Spares
  left := Coherent scope base Γ busy β outside
  right w := w.bindings = β

/-- The same while the rule of a node is compared with the one in a workspace of its own. -/
def coherenceOf (scope : Scope) (base : Nat) (Γ : Region scope.nodes) (busy : List NodeId)
    (β : Bindings) (outside : NodeId → Memo) (level : Level) (id : NodeId) : Terms :=
  { coherence scope base Γ busy β outside level with
    right := fun w => w.bindings = β ∧ w.supply.handles = base + id }

section Children

variable {depth : Nat} {Γ : Region scope.nodes} {busy : List NodeId} {β : Bindings} {level : Level}
  {id : NodeId} (hgrounded : Grounded scope base) (hconfined : scope.nodes.Confined)
  (hchildren : ∀ {Γ : Region scope.nodes} {β : Bindings} {c : NodeId},
    Situation scope base Γ busy β level depth c → ∀ outside o,
      Follows (coherence scope base Γ busy β outside level)
        (fun o => Value.Alike (scope.nodes.Refers c) base o c) o (resultWithin scope depth c)
        (answering (expected scope base depth busy level) c))
  (h : Situation scope base Γ busy β level depth id)
include hgrounded hconfined hchildren h

theorem resultWithin_answers (outside : NodeId → Memo) (o : Owners) :
    Answers scope base (coherenceOf scope base Γ busy β outside level id) o
      (resultWithin scope depth) (expected scope base depth busy level) id where
  steady := ⟨fun serials calls hw => hw.counters serials calls, fun _ _ hw => hw⟩
  asked hn hc := answering_right (hchildren (h.child hn hc) outside o) fun _ hw => hw.1
  again := resultWithin_again
  bound {n predicate x} e hn hbinds := by
    have hholder : Γ.reaches n := Γ.reaches_of_trusts (Γ.trusts_of_asks h.trusts hn)
    -- The condition is compared in a region of its own, which is entered and left with the guard.
    refine evaluateGuard_follows ?_
    intro o' w w' _ hw hw'
    refine ⟨coherenceOf scope base (.under hconfined predicate) busy (β.push x (.edge e))
        (w.entered scope.nodes predicate x e).cache.memo level id,
      scope.nodes.Refers predicate, base, predicate,
      answering_right (hchildren (h.condition hgrounded hconfined e hn hbinds) _ o')
        fun _ hw => hw.1,
      hw.enter hconfined, ⟨?_, hw'.2⟩, fun _ hspared => hspared, ?_, ?_⟩
    · rw [← hw'.1]
      rfl
    · intro o₁ w₁ ho₁ hw₁
      exact hw.leave hconfined hgrounded h.settled hholder hbinds ho₁ hw₁
    · rintro w₁ ⟨hbindings, hhandles⟩
      refine ⟨?_, hhandles⟩
      rw [Workspace.left, hbindings]
      rfl
  lookup {x o' w w'} _ hw hw' := by
    rw [hw.bindings_eq, hw'.1]
    exact ⟨rfl, h.settled x⟩
  literal := hgrounded.literal
  functions := hgrounded.functions

/-- The node is the last of those that are being computed, and its value is asked for outside. -/
theorem compute_follows {node : Node} (hget : scope.nodes.get id = .ok node)
    {before : List NodeId} (hcons : busy = id :: before) {outside : NodeId → Memo} {o : Owners}
    {w : Workspace} (hw : Coherent scope base Γ busy β outside o w)
    (hcared : ∀ failure,
      answer scope base (expected scope base depth busy level) id node β = .error failure →
        ¬ level.Spares failure)
    (hknown : ∀ v, answer scope base (expected scope base depth busy level) id node β = .ok v →
      ∃ k, uncached scope base k none id β = .ok v) :
    match answer scope base (expected scope base depth busy level) id node β with
    | .ok v' => ∃ v w₁ o₁, compute scope (resultWithin scope depth) id node w = (.ok v, w₁) ∧
        o.Grows o₁ ∧ Coherent scope base Γ before β outside o₁ w₁ ∧
        v.Alike (scope.nodes.Refers id) base o₁ id v'
    | .error failure => ∃ w₁,
        compute scope (resultWithin scope depth) id node w = (.error failure, w₁) ∧
          ∀ e, failure = .error e → ∃ o₁, o.Grows o₁ ∧
            Coherent scope base Γ before β outside o₁ w₁ := by
  -- The node leaves the busy ones again when its memo is set.
  subst hcons
  have hbefore : id ∉ before := (List.nodup_cons.1 h.computing.nodup).1
  have hreaches := Γ.reaches_of_trusts h.trusts
  have hclaims : Claims base (coherenceOf scope base Γ (id :: before) β outside level id)
      (Coherent scope base Γ (id :: before) β outside) id :=
    ⟨fun hw => hw, fun hw => ⟨hw.base_le, hw.claim id⟩, fun hw => hw.2⟩
  have hrule := (resultWithin_answers hgrounded hconfined hchildren h outside o).rule_finishes
    hclaims hget o w (standingWorkspace base id β) (.refl o) hw ⟨rfl, rfl⟩
  unfold answer at hcared hknown ⊢
  rw [compute_apply]
  rcases hy : rule scope (answering (expected scope base depth (id :: before) level)) id node
    (standingWorkspace base id β) with ⟨failure | v', w₁'⟩
  · rw [hy] at hcared hrule
    rcases hrule with hspared | ⟨w₁, hx, hkept⟩
    · exact absurd hspared (hcared failure rfl)
    · rw [hx]
      cases failure with
      | error e =>
        refine ⟨_, rfl, ?_⟩
        intro _ _
        rcases hkept e rfl with ⟨o₁, ho₁, hw₁⟩
        exact ⟨o₁, ho₁, hw₁.abort hreaches hbefore⟩
      | _ => exact ⟨_, rfl, fun _ heq => by cases heq⟩
  · rw [hy] at hknown hrule
    rcases hrule with ⟨v, w₁, o₁, hx, ho₁, hw₁, halike⟩
    rw [hx]
    have halike := halike.unnumbered_right
    rcases hknown _ rfl with ⟨k, hk⟩
    exact ⟨v, _, o₁, rfl, ho₁, hw₁.finish hreaches hbefore hk halike, halike⟩

end Children

theorem resultWithin_follows (hgrounded : Grounded scope base)
    (hconfined : scope.nodes.Confined) {depth : Nat} {Γ : Region scope.nodes}
    {busy : List NodeId} {β : Bindings} {level : Level} {id : NodeId}
    (hsituation : Situation scope base Γ busy β level depth id) (outside : NodeId → Memo)
    (o : Owners) :
    Follows (coherence scope base Γ busy β outside level)
      (fun o => Value.Alike (scope.nodes.Refers id) base o id) o (resultWithin scope depth id)
      (answering (expected scope base depth busy level) id) := by
  induction depth generalizing Γ busy β outside level id o with
  | zero => exact absurd hsituation.computing.length_le (Nat.not_le_of_lt hsituation.depth_lt)
  | succ depth ih =>
    intro o' w w' ho h hw'
    have hw' : w'.bindings = β := hw'
    simp only [answering, hw']
    -- Nothing is to be shown of a spared failure.
    by_cases hcared : ∀ failure, expected scope base (depth + 1) busy level id β = .error failure →
        ¬ level.Spares failure
    case neg =>
      push Not at hcared
      rcases hcared with ⟨failure, hfailure, hspared⟩
      rw [hfailure]
      exact .inl hspared
    unfold resultWithin
    cases hget : scope.nodes.get id with
    | error e =>
      rw [expected_of_error hcared hget, step_of_error hget]
      exact .inr ⟨w, rfl, fun _ _ => ⟨o', .refl o', h⟩⟩
    | ok node =>
      rw [step_apply hget]
      cases hmemo : w.cache.memo id with
      | done v =>
        rcases h.known hsituation.trusts hmemo with ⟨k, v', hv', halike⟩
        rw [expected_of_known hcared hgrounded hconfined hsituation hv']
        exact ⟨v, _, o', rfl, .refl o', h.same (w.cache.memo_extend id), hw', halike⟩
      | inProgress =>
        have hmem : id ∈ busy := h.busy_iff.1 hmemo
        rw [expected_of_busy hcared hget hmem (hsituation.stuck hmem .refl)]
        exact .inr ⟨_, rfl, fun _ _ => ⟨o', .refl o', h.same (w.cache.memo_extend id)⟩⟩
      | uninitialized =>
        have hid : id ∉ busy := by
          intro hmem
          rw [h.busy_iff.2 hmem] at hmemo
          cases hmemo
        rcases exists_level hcared hgrounded hconfined hsituation hget hid with
          ⟨inner, hinner, hself, hexpected, hcared'⟩
        -- The memo is marked, so the node is computed with itself among the busy ones.
        have hstart := h.start (Γ.reaches_of_trusts hsituation.trusts)
        have hknown : ∀ v, expected scope base (depth + 1) busy level id β = .ok v →
            ∃ k, uncached scope base k none id β = .ok v :=
          fun _ hv => expected_ok hgrounded hsituation.settled hv
        rw [hexpected] at hcared' hknown ⊢
        have hcompute := compute_follows hgrounded hconfined (fun hchild => ih hchild)
          (hsituation.start hget hid hinner hself) hget rfl hstart hcared' hknown
        cases hρ : answer scope base (expected scope base depth (id :: busy) inner) id node β with
        | error failure =>
          rw [hρ] at hcompute
          exact .inr hcompute
        | ok v' =>
          rw [hρ] at hcompute
          rcases hcompute with ⟨v, w₁, o₁, hx, ho₁, hw₁, halike⟩
          exact ⟨v, w₁, o₁, hx, ho₁, hw₁, hw', halike⟩

end Evaluation
end PathQuery

import PathQuery.Proofs.Evaluation.Cache
import PathQuery.Proofs.Evaluation.Correspondence
import PathQuery.Proofs.Evaluation.Guards
import PathQuery.Proofs.Evaluation.Related

/-!
# Two evaluations in step

* `Bindings.Corresponds`, `Supply.Corresponds`, `Cache.Corresponds`: the parts of workspaces;
* `Workspace.Corresponds`: the workspaces of two evaluations that have come equally far;
* `Eval.Mirrors`: the second evaluation ends as the first one does, and the workspaces correspond
  again;
* `Mirrors.bind`, `Mirrors.fresh` and so on: one rule for each way to build an evaluation;
* `Mirrors.lifting`: the contract as a relation that the rules respect;
* `evaluateGuard_mirrors`: guards are entered and left in step.
-/

namespace PathQuery

/-! ## Workspaces -/

inductive Memo.Corresponds (C : Correspondence) : Memo → Memo → Prop where
  | uninitialized : Corresponds C .uninitialized .uninitialized
  | inProgress : Corresponds C .inProgress .inProgress
  | done {v w : Value} : v.Corresponds C w → Corresponds C (.done v) (.done w)

theorem Memo.Corresponds.isInProgress_eq {C : Correspondence} {m m' : Memo}
    (h : m.Corresponds C m') : m.isInProgress = m'.isInProgress := by
  cases h <;> rfl

def Bindings.Corresponds (C : Correspondence) (β β' : Bindings) : Prop :=
  List.Forall₂ (fun x y => x.1 = y.1 ∧ x.2.Corresponds C y.2) β.frames β'.frames

namespace Bindings.Corresponds

variable {C : Correspondence} {β β' : Bindings}

theorem push (h : β.Corresponds C β') (name : String) {v w : Value} (hv : v.Corresponds C w) :
    (β.push name v).Corresponds C (β'.push name w) :=
  .cons ⟨rfl, hv⟩ h

/-- Both bind the name to corresponding values, or neither binds it. -/
theorem get (h : β.Corresponds C β') (name : String) :
    (∃ v w, β.get name = some v ∧ β'.get name = some w ∧ v.Corresponds C w) ∨
      β.get name = none ∧ β'.get name = none := by
  rcases β with ⟨frames⟩
  rcases β' with ⟨frames'⟩
  unfold Corresponds at h
  simp only [Bindings.get] at h ⊢
  induction h with
  | nil => exact .inr ⟨rfl, rfl⟩
  | @cons x y frames frames' hxy _ ih =>
    rcases x with ⟨key, v⟩
    rcases y with ⟨key', w⟩
    obtain ⟨rfl, hv⟩ : key = key' ∧ v.Corresponds C w := hxy
    rw [List.lookup_cons, List.lookup_cons]
    cases name == key with
    | true => exact .inl ⟨v, w, rfl, rfl, hv⟩
    | false => exact ih

end Bindings.Corresponds

/-- As many handles were given out on both sides. -/
structure Supply.Corresponds (C : Correspondence) (s s' : Supply) : Prop where
  handles : ∃ n, s.handles = C.start + n ∧ s'.handles = C.start' + n
  eq_of_exact : C.exact → s = s'

namespace Supply.Corresponds

variable {C : Correspondence} {s s' : Supply}

theorem serials (h : s.Corresponds C s') {m n : Nat} (hmn : C.exact → m = n) :
    Corresponds C { s with serials := m } { s' with serials := n } :=
  ⟨h.handles, fun he => by rw [h.eq_of_exact he, hmn he]⟩

theorem nextCall (h : s.Corresponds C s') :
    Corresponds C { s with calls := s.calls + 1 } { s' with calls := s'.calls + 1 } :=
  ⟨h.handles, fun he => by rw [h.eq_of_exact he]⟩

theorem nextHandle (h : s.Corresponds C s') :
    Corresponds C { s with handles := s.handles + 1 } { s' with handles := s'.handles + 1 } := by
  refine ⟨?_, fun he => by rw [h.eq_of_exact he]⟩
  rcases h.handles with ⟨n, hn, hn'⟩
  refine ⟨n + 1, ?_, ?_⟩
  · rw [hn, Nat.add_assoc]
  · rw [hn', Nat.add_assoc]

theorem handle (h : s.Corresponds C s') : C.handles s.handles s'.handles := by
  rcases h.handles with ⟨n, hn, hn'⟩
  rw [hn, hn']
  exact C.handles_fresh n

end Supply.Corresponds

/-- Only what is known about the region matters. -/
def Cache.Corresponds (C : Correspondence) (cache cache' : Cache) : Prop :=
  ∀ n, C.region n → (cache.memo n).Corresponds C (cache'.memo n)

structure Workspace.Corresponds (C : Correspondence) (β β' : Bindings) (w w' : Workspace) :
    Prop where
  cache : w.cache.Corresponds C w'.cache
  bindings_eq : w.bindings = β
  bindings_eq' : w'.bindings = β'
  supply : w.supply.Corresponds C w'.supply

namespace Workspace.Corresponds

variable {C : Correspondence} {β β' : Bindings} {w w' : Workspace}

/-- The memo of one node has changed. -/
theorem change (h : w.Corresponds C β β' w') {cache cache' : Cache} {id : NodeId} {m m' : Memo}
    (hcache : ∀ n, cache.memo n = if n = id then m else w.cache.memo n)
    (hcache' : ∀ n, cache'.memo n = if n = id then m' else w'.cache.memo n)
    (hm : m.Corresponds C m') :
    Corresponds C β β' { w with cache } { w' with cache := cache' } := by
  refine ⟨?_, h.bindings_eq, h.bindings_eq', h.supply⟩
  intro n hn
  rw [hcache, hcache']
  split
  · exact hm
  · exact h.cache n hn

/-- The first cache has changed, but not in the region. -/
theorem keep (h : w.Corresponds C β β' w') {cache : Cache}
    (hcache : ∀ n, C.region n → cache.memo n = w.cache.memo n) :
    Corresponds C β β' { w with cache } w' where
  cache n hn := by
    rw [hcache n hn]
    exact h.cache n hn
  bindings_eq := h.bindings_eq
  bindings_eq' := h.bindings_eq'
  supply := h.supply

theorem extend (h : w.Corresponds C β β' w') (id : NodeId) :
    Corresponds C β β' { w with cache := w.cache.extend id }
      { w' with cache := w'.cache.extend id } := by
  refine ⟨?_, h.bindings_eq, h.bindings_eq', h.supply⟩
  intro n hn
  simp only [Cache.memo_extend]
  exact h.cache n hn

theorem entered (h : w.Corresponds C β β' w') (nodes : SyntaxGraph) (predicate : NodeId)
    (x : String) (e : Incidence) :
    (w.entered nodes predicate x e).Corresponds C (β.push x (.edge e)) (β'.push x (.edge e))
      (w'.entered nodes predicate x e) := by
  refine ⟨?_, ?_, ?_, h.supply⟩
  · intro n hn
    have hmemo := h.cache n hn
    simp only [Workspace.entered, Cache.resetFrom, Cache.memo_forgetAll, hmemo.isInProgress_eq]
    split
    · exact .uninitialized
    · exact hmemo
  · rw [← h.bindings_eq]
    rfl
  · rw [← h.bindings_eq']
    rfl

theorem left {x : String} {e : Incidence}
    (h : w.Corresponds C (β.push x (.edge e)) (β'.push x (.edge e)) w') :
    w.left.Corresponds C β β' w'.left := by
  refine ⟨h.cache, ?_, ?_, h.supply⟩
  · rw [Workspace.left, h.bindings_eq]
    rfl
  · rw [Workspace.left, h.bindings_eq']
    rfl

end Workspace.Corresponds

namespace Eval

/-- Failures that are spared say nothing about the second evaluation.  A panic says nothing about
the workspaces. -/
def Mirrors {α γ : Type} (C : Correspondence) (spared : Failure → Prop) (β β' : Bindings)
    (R : α → γ → Prop) (x : Eval α) (y : Eval γ) : Prop :=
  ∀ w w' : Workspace, w.Corresponds C β β' w' →
    match x w with
    | (.ok r, w₁) => ∃ r' w₁', y w' = (.ok r', w₁') ∧ w₁.Corresponds C β β' w₁' ∧ R r r'
    | (.error failure, w₁) => spared failure ∨ ∃ w₁', y w' = (.error failure, w₁') ∧
        ∀ e, failure = .error e → w₁.Corresponds C β β' w₁'

namespace Mirrors

variable {α α' γ γ' : Type} {C : Correspondence} {spared : Failure → Prop} {β β' : Bindings}
  {R : α → γ → Prop} {S : α' → γ' → Prop} {x : Eval α} {y : Eval γ}

theorem pure {r : α} {r' : γ} (h : R r r') :
    Mirrors C spared β β' R (Pure.pure r) (Pure.pure r') :=
  fun _ w' hw => ⟨r', w', rfl, hw, h⟩

theorem bind {f : α → Eval α'} {k : γ → Eval γ'} (hxy : Mirrors C spared β β' R x y)
    (hfk : ∀ r r', R r r' → Mirrors C spared β β' S (f r) (k r')) :
    Mirrors C spared β β' S (x >>= f) (y >>= k) := by
  intro w w' hw
  have hstart := hxy w w' hw
  rw [bind_apply]
  rcases hx : x w with ⟨failure | r, w₁⟩
  · rw [hx] at hstart
    rcases hstart with hspared | ⟨w₁', hy, hkept⟩
    · exact .inl hspared
    · refine .inr ⟨w₁', ?_, hkept⟩
      rw [bind_apply, hy]
  · rw [hx] at hstart
    rcases hstart with ⟨r', w₁', hy, hw₁, hr⟩
    simp only
    rw [bind_apply, hy]
    exact hfk r r' hr w₁ w₁' hw₁

variable (C spared β β' R) in
theorem throw (failure : Failure) :
    Mirrors C spared β β' R (throwThe Failure failure) (throwThe Failure failure) :=
  fun _ w' hw => .inr ⟨w', rfl, fun _ _ => hw⟩

variable (C spared β β' R) in
theorem fail (e : EvalError) : Mirrors C spared β β' R (Eval.fail e) (Eval.fail e) :=
  throw C spared β β' R (.error e)

/-- The first evaluation fails in a way after which nothing is said. -/
theorem of_spared {e : EvalError} (h : spared (.error e)) :
    Mirrors C spared β β' R (Eval.fail e) y :=
  fun _ _ _ => .inl h

/-! ## Numbers that are given out once -/

/-- Automata that are made in the same way. -/
theorem fresh {x y : Fresh Automaton}
    (htwin : ∀ m n, (x m).1.Twin (Symbol.Within C.region) (y n).1) (hexact : C.exact → x = y) :
    Mirrors C spared β β' (Automaton.Corresponds C) (Eval.fresh x) (Eval.fresh y) := by
  intro w w' hw
  have hsame : C.exact → x w.supply.serials = y w'.supply.serials :=
    fun he => by rw [hexact he, hw.supply.eq_of_exact he]
  refine ⟨_, _, rfl, ⟨hw.cache, hw.bindings_eq, hw.bindings_eq', ?_⟩, htwin _ _, ?_⟩
  · exact hw.supply.serials fun he => congrArg Prod.snd (hsame he)
  · exact fun he => congrArg Prod.fst (hsame he)

theorem callNumber : Mirrors C spared β β' (fun m n => C.exact → m = n) Eval.callNumber
    Eval.callNumber := by
  intro w w' hw
  refine ⟨_, _, rfl, ⟨hw.cache, hw.bindings_eq, hw.bindings_eq', hw.supply.nextCall⟩, ?_⟩
  exact fun he => congrArg Supply.calls (hw.supply.eq_of_exact he)

theorem freshHandle : Mirrors C spared β β' C.handles Eval.freshHandle Eval.freshHandle := by
  intro w w' hw
  exact ⟨_, _, rfl, ⟨hw.cache, hw.bindings_eq, hw.bindings_eq', hw.supply.nextHandle⟩,
    hw.supply.handle⟩

/-- As a relation that the rules respect. -/
def lifting (C : Correspondence) (spared : Failure → Prop) (β β' : Bindings) :
    PartialLifting (ExceptT Failure (StateM Workspace)) (ExceptT Failure (StateM Workspace)) where
  rel r x y := Mirrors C spared β β' r x y
  throws _ := True
  pure := Mirrors.pure
  throw r failure _ := Mirrors.throw C spared β β' r failure
  bind := Mirrors.bind

end Mirrors

end Eval

/-! ## Guards -/

namespace Evaluation

open Eval

variable {C : Correspondence} {spared : Failure → Prop} {β β' : Bindings} {scope scope' : Scope}
  {result result' : NodeId → Eval Value} {predicate : NodeId}

/-- The condition is evaluated in step whatever is bound, so also under the binding that the guard
makes. -/
theorem evaluateGuard_mirrors (hnodes : scope.nodes = scope'.nodes)
    (h : ∀ {β β'}, β.Corresponds C β' →
      Mirrors C spared β β' (Value.Corresponds C) (result predicate) (result' predicate))
    (hβ : β.Corresponds C β') (thisEdge : Option String) (e : Incidence) :
    Mirrors C spared β β' Eq (evaluateGuard scope result ⟨predicate, thisEdge⟩ e)
      (evaluateGuard scope' result' ⟨predicate, thisEdge⟩ e) := by
  cases thisEdge with
  | none =>
    refine (h hβ).bind ?_
    intro v v' hv
    exact Mirrors.pure hv.isTrue_eq
  | some x =>
    intro w w' hw
    -- Both sides forget what they know below the condition before they evaluate it.
    have hcondition := h (hβ.push x (.simple (.edge e))) _ _ (hw.entered scope.nodes predicate x e)
    simp only [evaluateGuard_apply, ← hnodes]
    rcases hx : result predicate (w.entered scope.nodes predicate x e) with ⟨failure | v, w₁⟩
    · rw [hx] at hcondition
      rcases hcondition with hspared | ⟨w₁', hy, hkept⟩
      · cases failure <;> exact .inl hspared
      · rw [hy]
        cases failure with
        | error error => exact .inr ⟨w₁'.left, rfl, fun _ _ => (hkept error rfl).left⟩
        | _ => exact .inr ⟨w₁', rfl, fun _ heq => by cases heq⟩
    · rw [hx] at hcondition
      rcases hcondition with ⟨v', w₁', hy, hw₁, hv⟩
      rw [hy]
      exact ⟨v'.isTrue, w₁'.left, rfl, hw₁.left, hv.isTrue_eq⟩

end Evaluation
end PathQuery

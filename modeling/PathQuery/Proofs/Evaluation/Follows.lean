import PathQuery.Proofs.Evaluation.Alike
import PathQuery.Proofs.Evaluation.Ensures
import PathQuery.Proofs.Path.Simulation

/-!
# Two evaluations side by side

* `Terms`: what two evaluations are compared under;
* `Eval.Follows`: whenever the second evaluation ends, the first one ends in the same way, and
  invariants of the two workspaces are kept;
* `Follows.pure`, `Follows.bind`, `Follows.foldlM` and so on: one rule for each way to build an
  evaluation;
* `pairing`: evaluations with equal results, as a relation that traversals respect.
-/

namespace PathQuery

namespace Owners.Grows

theorem refl (o : Owners) : o.Grows o :=
  ⟨fun h => h⟩

theorem trans {o o' o'' : Owners} (h : o.Grows o') (h' : o'.Grows o'') : o.Grows o'' :=
  ⟨fun hc => h'.keeps (h.keeps hc)⟩

end Owners.Grows

namespace Eval

/-- Failures of the second evaluation after which nothing is said of the first one, and invariants
of the first and of the second workspace. -/
structure Terms where
  spared : Failure → Prop
  left : Owners → Workspace → Prop
  right : Workspace → Prop

/-- The owners can only grow.  After a panic nothing is left to rely on. -/
def Follows {α γ : Type} (T : Terms) (R : Owners → α → γ → Prop) (o : Owners) (x : Eval α)
    (y : Eval γ) : Prop :=
  ∀ (o' : Owners) (w w' : Workspace), o.Grows o' → T.left o' w → T.right w' →
    match y w' with
    | (.ok r', w₁') => ∃ r w₁ o₁, x w = (.ok r, w₁) ∧ o'.Grows o₁ ∧ T.left o₁ w₁ ∧ T.right w₁' ∧
        R o₁ r r'
    | (.error failure, _) => T.spared failure ∨ ∃ w₁, x w = (.error failure, w₁) ∧
        ∀ e, failure = .error e → ∃ o₁, o'.Grows o₁ ∧ T.left o₁ w₁

namespace Follows

variable {α α' γ γ' : Type} {T : Terms}
  {R : Owners → α → γ → Prop} {o : Owners} {x : Eval α} {y : Eval γ}

theorem later {o' : Owners} (h : Follows T R o x y) (ho : o.Grows o') : Follows T R o' x y :=
  fun o'' w w' ho' => h o'' w w' (ho.trans ho')

theorem mono {S : Owners → α → γ → Prop} (h : Follows T R o x y)
    (hRS : ∀ o r r', R o r r' → S o r r') : Follows T S o x y := by
  intro o' w w' ho hI hJ
  have hxy := h o' w w' ho hI hJ
  rcases hy : y w' with ⟨failure | r', w₁'⟩
  · rw [hy] at hxy
    exact hxy
  · rw [hy] at hxy
    rcases hxy with ⟨r, w₁, o₁, hx, ho₁, hI₁, hJ₁, hr⟩
    exact ⟨r, w₁, o₁, hx, ho₁, hI₁, hJ₁, hRS o₁ r r' hr⟩

theorem pure {r : α} {r' : γ} (h : ∀ o', o.Grows o' → R o' r r') :
    Follows T R o (Pure.pure r) (Pure.pure r') := by
  intro o' w w' ho hI hJ
  exact ⟨r, w, o', rfl, .refl o', hI, hJ, h o' ho⟩

theorem bind {S : Owners → α' → γ' → Prop} {f : α → Eval α'} {k : γ → Eval γ'}
    (hxy : Follows T R o x y)
    (hfk : ∀ o' r r', o.Grows o' → R o' r r' → Follows T S o' (f r) (k r')) :
    Follows T S o (x >>= f) (y >>= k) := by
  intro o' w w' ho hI hJ
  have hstart := hxy o' w w' ho hI hJ
  rw [bind_apply]
  rcases hy : y w' with ⟨failure | r', w₁'⟩
  · rw [hy] at hstart
    rcases hstart with hspared | ⟨w₁, hx, hkept⟩
    · exact .inl hspared
    · refine .inr ⟨w₁, ?_, hkept⟩
      rw [bind_apply, hx]
  · rw [hy] at hstart
    rcases hstart with ⟨r, w₁, o₁, hx, ho₁, hI₁, hJ₁, hr⟩
    have hrest := hfk o₁ r r' (ho.trans ho₁) hr o₁ w₁ w₁' (.refl o₁) hI₁ hJ₁
    simp only
    rw [bind_apply, hx]
    rcases hk : k r' w₁' with ⟨failure | s', w₂'⟩
    · rw [hk] at hrest
      rcases hrest with hspared | ⟨w₂, hf, hkept⟩
      · exact .inl hspared
      · refine .inr ⟨w₂, hf, ?_⟩
        intro e he
        rcases hkept e he with ⟨o₂, ho₂, hI₂⟩
        exact ⟨o₂, ho₁.trans ho₂, hI₂⟩
    · rw [hk] at hrest
      rcases hrest with ⟨s, w₂, o₂, hf, ho₂, hI₂, hJ₂, hs⟩
      exact ⟨s, w₂, o₂, hf, ho₁.trans ho₂, hI₂, hJ₂, hs⟩

variable (T R o) in
theorem throw (failure : Failure) :
    Follows T R o (throwThe Failure failure) (throwThe Failure failure) := by
  intro o' w w' _ hI _
  exact .inr ⟨w, rfl, fun _ _ => ⟨o', .refl o', hI⟩⟩

variable (T R o) in
theorem fail (e : EvalError) : Follows T R o (Eval.fail e) (Eval.fail e) :=
  throw T R o (.error e)

theorem ofExcept {r : Except EvalError α} {r' : Except EvalError γ}
    (h : (∃ a b, r = .ok a ∧ r' = .ok b ∧ ∀ o', o.Grows o' → R o' a b) ∨
      ∃ e, r = .error e ∧ r' = .error e) :
    Follows T R o (Eval.ofExcept r) (Eval.ofExcept r') := by
  rcases h with ⟨a, b, rfl, rfl, hab⟩ | ⟨e, rfl, rfl⟩
  · exact pure hab
  · exact fail T R o e

theorem mapM {f : α' → Eval α} {k : α' → Eval γ} {xs : List α'}
    (h : ∀ a ∈ xs, Follows T R o (f a) (k a))
    (hgrows : ∀ {o o' r r'}, o.Grows o' → R o r r' → R o' r r') :
    Follows T (fun o => List.Forall₂ (R o)) o (xs.mapM f) (xs.mapM k) := by
  induction xs generalizing o with
  | nil =>
    simp only [List.mapM_nil]
    exact pure fun _ _ => .nil
  | cons a xs ih =>
    simp only [List.mapM_cons]
    refine (h a List.mem_cons_self).bind ?_
    intro o₁ r r' ho₁ hr
    refine (ih fun b hb => (h b (List.mem_cons_of_mem a hb)).later ho₁).bind ?_
    intro o₂ rs rs' ho₂ hrs
    exact pure fun o₃ ho₃ => .cons (hgrows (ho₂.trans ho₃) hr) (hrs.imp fun _ _ => hgrows ho₃)

theorem foldlM {f : α → α' → Eval α} {k : γ → α' → Eval γ} {xs : List α'}
    (h : ∀ a ∈ xs, ∀ o' r r', o.Grows o' → R o' r r' → Follows T R o' (f r a) (k r' a))
    (hgrows : ∀ {o o' r r'}, o.Grows o' → R o r r' → R o' r r') {r : α} {r' : γ}
    (hr : R o r r') : Follows T R o (xs.foldlM f r) (xs.foldlM k r') := by
  induction xs generalizing o r r' with
  | nil =>
    exact pure fun o' ho => hgrows ho hr
  | cons a xs ih =>
    rw [List.foldlM_cons, List.foldlM_cons]
    refine (h a List.mem_cons_self o r r' (.refl o) hr).bind ?_
    intro o₁ s s' ho₁ hs
    refine ih ?_ hs
    intro b hb o₂ t t' ho₂ ht
    exact h b (List.mem_cons_of_mem a hb) o₂ t t' (ho₁.trans ho₂) ht

/-! ## Numbers that are given out once -/

/-- The counters of which nothing is asked. -/
structure Steady (T : Terms) : Prop where
  left {o : Owners} {w : Workspace} (serials calls : Nat) : T.left o w →
    T.left o { w with supply := ⟨serials, w.supply.handles, calls⟩ }
  right {w : Workspace} (serials calls : Nat) : T.right w →
    T.right { w with supply := ⟨serials, w.supply.handles, calls⟩ }

theorem fresh (hsteady : Steady T) {x : Fresh α} {y : Fresh γ}
    (h : ∀ m n o', o.Grows o' → R o' (x m).1 (y n).1) :
    Follows T R o (Eval.fresh x) (Eval.fresh y) := by
  intro o' w w' ho hI hJ
  exact ⟨_, _, o', rfl, .refl o', hsteady.left _ w.supply.calls hI,
    hsteady.right _ w'.supply.calls hJ, h _ _ o' ho⟩

theorem callNumber (hsteady : Steady T) :
    Follows T (fun _ _ _ => True) o Eval.callNumber Eval.callNumber := by
  intro o' w w' ho hI hJ
  exact ⟨_, _, o', rfl, .refl o', hsteady.left w.supply.serials _ hI,
    hsteady.right w'.supply.serials _ hJ, trivial⟩

/-! ## Traversals -/

/-- Evaluations that have equal results. -/
def pairing (T : Terms) (o : Owners) :
    Simulation (ExceptT Failure (StateM Workspace)) (ExceptT Failure (StateM Workspace)) where
  rel x y := Follows T (fun _ => Eq) o x y
  pure _ := Follows.pure fun _ _ => rfl
  throw failure := Follows.throw T (fun _ => Eq) o failure
  bind hxy hfk := Follows.bind hxy fun _ r _ ho heq => heq ▸ (hfk r).later ho

end Follows

/-! ## The end of an evaluation -/

/-- The same when the second evaluation goes no further, so that nothing is kept of its
workspace. -/
def Finishes {α γ : Type} (T : Terms) (K : Owners → Workspace → Prop)
    (R : Owners → α → γ → Prop) (o : Owners) (x : Eval α) (y : Eval γ) : Prop :=
  ∀ (o' : Owners) (w w' : Workspace), o.Grows o' → T.left o' w → T.right w' →
    match (y w').1 with
    | .ok r' => ∃ r w₁ o₁, x w = (.ok r, w₁) ∧ o'.Grows o₁ ∧ K o₁ w₁ ∧ R o₁ r r'
    | .error failure => T.spared failure ∨ ∃ w₁, x w = (.error failure, w₁) ∧
        ∀ e, failure = .error e → ∃ o₁, o'.Grows o₁ ∧ K o₁ w₁

namespace Finishes

variable {α α' γ γ' : Type} {T : Terms} {K : Owners → Workspace → Prop}
  {R : Owners → α → γ → Prop} {S : Owners → α' → γ' → Prop} {o : Owners} {x : Eval α} {y : Eval γ}

theorem of_follows (hxy : Follows T R o x y) (hK : ∀ {o w}, T.left o w → K o w) :
    Finishes T K R o x y := by
  intro o' w w' ho hI hJ
  have hstart := hxy o' w w' ho hI hJ
  rcases hy : y w' with ⟨failure | r', w₁'⟩
  · rw [hy] at hstart
    rcases hstart with hspared | ⟨w₁, hx, hkept⟩
    · exact .inl hspared
    · refine .inr ⟨w₁, hx, ?_⟩
      intro e he
      rcases hkept e he with ⟨o₁, ho₁, hI₁⟩
      exact ⟨o₁, ho₁, hK hI₁⟩
  · rw [hy] at hstart
    rcases hstart with ⟨r, w₁, o₁, hx, ho₁, hI₁, _, hr⟩
    exact ⟨r, w₁, o₁, hx, ho₁, hK hI₁, hr⟩

theorem bind {f : α → Eval α'} {k : γ → Eval γ'} (hxy : Follows T R o x y)
    (hK : ∀ {o w}, T.left o w → K o w)
    (hfk : ∀ o' r r', o.Grows o' → R o' r r' → Finishes T K S o' (f r) (k r')) :
    Finishes T K S o (x >>= f) (y >>= k) := by
  intro o' w w' ho hI hJ
  have hstart := hxy o' w w' ho hI hJ
  rw [bind_apply]
  rcases hy : y w' with ⟨failure | r', w₁'⟩
  · rw [hy] at hstart
    rcases hstart with hspared | ⟨w₁, hx, hkept⟩
    · exact .inl hspared
    · refine .inr ⟨w₁, ?_, ?_⟩
      · rw [bind_apply, hx]
      · intro e he
        rcases hkept e he with ⟨o₁, ho₁, hI₁⟩
        exact ⟨o₁, ho₁, hK hI₁⟩
  · rw [hy] at hstart
    rcases hstart with ⟨r, w₁, o₁, hx, ho₁, hI₁, hJ₁, hr⟩
    have hrest := hfk o₁ r r' (ho.trans ho₁) hr o₁ w₁ w₁' (.refl o₁) hI₁ hJ₁
    simp only
    rw [bind_apply, hx]
    rcases hk : k r' w₁' with ⟨failure | s', w₂'⟩
    · rw [hk] at hrest
      rcases hrest with hspared | ⟨w₂, hf, hkept⟩
      · exact .inl hspared
      · refine .inr ⟨w₂, hf, ?_⟩
        intro e he
        rcases hkept e he with ⟨o₂, ho₂, hK₂⟩
        exact ⟨o₂, ho₁.trans ho₂, hK₂⟩
    · rw [hk] at hrest
      rcases hrest with ⟨s, w₂, o₂, hf, ho₂, hK₂, hs⟩
      exact ⟨s, w₂, o₂, hf, ho₁.trans ho₂, hK₂, hs⟩

end Finishes

end Eval
end PathQuery

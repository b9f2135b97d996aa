import PathQuery.Evaluation.Basic

/-!
# What evaluations ensure

* `Eval.Outcomes`: two evaluations end with values in a relation, or with one failure;
* `Eval.Ensures`: how an evaluation ends, with a value or with a failure, and in which workspace;
* `Ensures.pure`, `Ensures.bind`, `Ensures.foldlM` and so on: one rule for each way to build an
  evaluation.
-/

namespace PathQuery

theorem bind_apply {σ α γ : Type} (x : ExceptT Failure (StateM σ) α)
    (f : α → ExceptT Failure (StateM σ) γ) (s : σ) :
    (x >>= f) s =
      match x s with
      | (.ok r, s) => f r s
      | (.error failure, s) => (.error failure, s) := by
  change ExceptT.bindCont f (x s).1 (x s).2 = _
  rcases x s with ⟨r | r, s'⟩
  · rfl
  · rfl

theorem map_apply {σ α γ : Type} (g : α → γ) (x : ExceptT Failure (StateM σ) α) (s : σ) :
    (g <$> x) s = ((x s).1.map g, (x s).2) := by
  rw [← bind_pure_comp, bind_apply]
  rcases x s with ⟨failure | a, s'⟩ <;> rfl

/-- Both are values with one image, or both are the same failure. -/
theorem outcomes_of_map_eq {ε α γ : Type} {f : α → γ} {r r' : Except ε α}
    (h : r.map f = r'.map f) :
    (∃ a a', r = .ok a ∧ r' = .ok a' ∧ f a = f a') ∨ ∃ e, r = .error e ∧ r' = .error e := by
  cases r with
  | error e =>
    cases r' with
    | error e' =>
      cases h
      exact .inr ⟨e, rfl, rfl⟩
    | ok a' => cases h
  | ok a =>
    cases r' with
    | error e' => cases h
    | ok a' => exact .inl ⟨a, a', rfl, rfl, Except.ok.inj h⟩

namespace Eval

/-- Values in a relation, or the same failure. -/
inductive Outcomes {α : Type} (r : α → α → Prop) : Except Failure α → Except Failure α → Prop where
  | ok {a b : α} : r a b → Outcomes r (.ok a) (.ok b)
  | error (failure : Failure) : Outcomes r (.error failure) (.error failure)

theorem Outcomes.eq {α : Type} {o o' : Except Failure α} (h : Outcomes Eq o o') : o = o' := by
  cases h with
  | ok h => rw [h]
  | error failure => rfl

theorem outcomes_iff_map_eq {α γ : Type} {f : α → γ} {o o' : Except Failure α} :
    Outcomes (fun a b => f a = f b) o o' ↔ o.map f = o'.map f := by
  constructor
  · rintro (h | _)
    · exact congrArg Except.ok h
    · rfl
  · intro h
    rcases outcomes_of_map_eq h with ⟨a, b, rfl, rfl, heq⟩ | ⟨failure, rfl, rfl⟩
    · exact .ok heq
    · exact .error failure

section Apply

variable {α γ : Type}

theorem ofExcept_ok_bind (a : α) (k : α → Eval γ) : (ofExcept (.ok a) >>= k) = k a :=
  rfl

theorem modifyCache_bind_apply (f : Cache → Cache) (k : Unit → Eval γ) (w : Workspace) :
    (modifyCache f >>= k) w = k () { w with cache := f w.cache } :=
  rfl

theorem modifyBindings_bind_apply (f : Bindings → Bindings) (k : Unit → Eval γ) (w : Workspace) :
    (modifyBindings f >>= k) w = k () { w with bindings := f w.bindings } :=
  rfl

theorem modifyGet_bind_apply (f : Workspace → α × Workspace) (k : α → Eval γ) (w : Workspace) :
    (MonadStateOf.modifyGet f >>= k) w = k (f w).1 (f w).2 :=
  rfl

theorem outcome_bind_apply (x : Eval α) (k : Except Failure α → Eval γ) (w : Workspace) :
    (outcome x >>= k) w = k (x w).1 (x w).2 :=
  rfl

end Apply

/-- The outcome has the first property if it is a value, else the second one. -/
def Ensures {α : Type} (x : Eval α) (w : Workspace) (post : α → Workspace → Prop)
    (fails : Failure → Workspace → Prop) : Prop :=
  match x w with
  | (.ok r, w) => post r w
  | (.error failure, w) => fails failure w

namespace Ensures

variable {α γ : Type} {w : Workspace} {post : α → Workspace → Prop}
  {fails : Failure → Workspace → Prop}

theorem pure {r : α} (h : post r w) : Ensures (Pure.pure r) w post fails :=
  h

theorem bind {x : Eval α} {f : α → Eval γ} {post' : γ → Workspace → Prop}
    (hx : Ensures x w post fails) (hf : ∀ r w', post r w' → Ensures (f r) w' post' fails) :
    Ensures (x >>= f) w post' fails := by
  unfold Ensures at hx ⊢
  rw [bind_apply]
  rcases hxw : x w with ⟨r | r, w'⟩
  · rw [hxw] at hx
    exact hx
  · rw [hxw] at hx
    exact hf r w' hx

/-- What follows may be replaced by what does the same after every result that can come. -/
theorem bind_congr {x : Eval α} {f k : α → Eval γ} (hx : Ensures x w post fails)
    (hfk : ∀ r w', post r w' → f r w' = k r w') : (x >>= f) w = (x >>= k) w := by
  unfold Ensures at hx
  rw [bind_apply, bind_apply]
  rcases hxw : x w with ⟨failure | r, w'⟩
  · rfl
  · rw [hxw] at hx
    exact hfk r w' hx

theorem mono {x : Eval α} {post' : α → Workspace → Prop} {fails' : Failure → Workspace → Prop}
    (hx : Ensures x w post fails) (hpost : ∀ r w', post r w' → post' r w')
    (hfails : ∀ failure w', fails failure w' → fails' failure w') :
    Ensures x w post' fails' := by
  unfold Ensures at hx ⊢
  rcases hxw : x w with ⟨r | r, w'⟩
  · rw [hxw] at hx
    exact hfails r w' hx
  · rw [hxw] at hx
    exact hpost r w' hx

theorem fail {e : EvalError} (h : fails (.error e) w) : Ensures (Eval.fail e) w post fails :=
  h

theorem fresh {x : Fresh α}
    (h : post (x w.supply.serials).1
      { w with supply := { w.supply with serials := (x w.supply.serials).2 } }) :
    Ensures (Eval.fresh x) w post fails :=
  h

/-! What follows a primitive evaluation goes on in the workspace that it leaves. -/

section Bind

variable {post' : γ → Workspace → Prop}

theorem ofExcept_bind {r : Except EvalError α} {f : α → Eval γ}
    (hok : ∀ a, r = .ok a → Ensures (f a) w post' fails)
    (herror : ∀ e, r = .error e → fails (.error e) w) :
    Ensures (Eval.ofExcept r >>= f) w post' fails := by
  cases r with
  | error e => exact herror e rfl
  | ok a => exact hok a rfl

theorem fresh_bind {x : Fresh α} {f : α → Eval γ}
    (h : Ensures (f (x w.supply.serials).1)
      { w with supply := { w.supply with serials := (x w.supply.serials).2 } } post' fails) :
    Ensures (Eval.fresh x >>= f) w post' fails :=
  h

theorem freshHandle_bind {f : Nat → Eval γ}
    (h : Ensures (f w.supply.handles)
      { w with supply := { w.supply with handles := w.supply.handles + 1 } } post' fails) :
    Ensures (Eval.freshHandle >>= f) w post' fails :=
  h

theorem modifyGet_bind {x : Workspace → α × Workspace} {f : α → Eval γ}
    (h : Ensures (f (x w).1) (x w).2 post' fails) :
    Ensures (MonadStateOf.modifyGet x >>= f) w post' fails :=
  h

theorem modifyCache_bind {x : Cache → Cache} {f : Unit → Eval γ}
    (h : Ensures (f ()) { w with cache := x w.cache } post' fails) :
    Ensures (Eval.modifyCache x >>= f) w post' fails :=
  h

theorem outcome_bind {x : Eval α} {f : Except Failure α → Eval γ}
    (h : Ensures x w (fun r w' => Ensures (f (.ok r)) w' post' fails)
      fun failure w' => Ensures (f (.error failure)) w' post' fails) :
    Ensures (Eval.outcome x >>= f) w post' fails := by
  unfold Ensures at h
  change Ensures (f (x w).1) (x w).2 post' fails
  rcases hxw : x w with ⟨r | r, w'⟩
  · rw [hxw] at h
    exact h
  · rw [hxw] at h
    exact h

end Bind

/-- A fold keeps what each of its steps keeps; the invariant can speak of the elements so far. -/
theorem foldlM {f : α → γ → Eval α} {xs : List γ} (invariant : List γ → α → Workspace → Prop)
    (seen : List γ)
    (hf : ∀ x ∈ xs, ∀ seen s w', invariant seen s w' →
      Ensures (f s x) w' (invariant (seen ++ [x])) fails)
    {s : α} (hs : invariant seen s w) :
    Ensures (xs.foldlM f s) w (invariant (seen ++ xs)) fails := by
  induction xs generalizing s seen w with
  | nil =>
    rw [List.append_nil]
    exact hs
  | cons x xs ih =>
    rw [List.foldlM_cons]
    refine (hf x List.mem_cons_self seen s w hs).bind ?_
    intro t w' ht
    have htail := ih (seen ++ [x]) (fun y hy => hf y (List.mem_cons_of_mem x hy)) ht
    rwa [List.append_assoc, List.singleton_append] at htail

end Ensures

end Eval

end PathQuery

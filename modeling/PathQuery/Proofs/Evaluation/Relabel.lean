import PathQuery.Proofs.Automaton.Relabel
import PathQuery.Proofs.Evaluation.Alike
import PathQuery.Proofs.Evaluation.Cache
import PathQuery.Proofs.Evaluation.Ensures
import PathQuery.Proofs.Evaluation.Related

/-!
# Two evaluations that differ in constraints only

* `Value.relabel`: a value, with the constraints of an automaton replaced;
* `same_relabel`, `compareValues_relabel` and so on: no operation of the language looks at
  constraints;
* `FunctionLibrary.Ignores`: functions that do not look at them either;
* `Workspace.Matches`: workspaces that are the same after the replacement;
* `Eval.Parallel`: evaluations that end the same but for constraints whenever they start so;
* `Parallel.bind`, `Parallel.fresh` and so on: one rule for each way to build an evaluation;
* `alongside`: the contract as a relation that the rules respect.
-/

namespace PathQuery

variable (φ : Relabeling)

/-! ## Values -/

namespace Value

/-- What is inside a list is nothing that an evaluation has made. -/
def relabel : Value → Value
  | automaton h a => automaton h (a.map φ)
  | v => v

/-- The values are the same, or they are automata. -/
theorem eq_or_automaton {v v' : Value} (hv : v.relabel φ = v'.relabel φ) :
    v = v' ∨ ∃ h a a', v = automaton h a ∧ v' = automaton h a' ∧ a.map φ = a'.map φ := by
  cases v with
  | automaton h a =>
    cases v' with
    | automaton h' a' =>
      obtain ⟨rfl, ha⟩ : h = h' ∧ a.map φ = a'.map φ := Value.automaton.inj hv
      exact .inr ⟨h, a, a', rfl, rfl, ha⟩
    | _ => cases hv
  | _ =>
    cases v' with
    | automaton h' a' => cases hv
    | _ => exact .inl hv

@[simp] theorem isTrue_relabel (v : Value) : (v.relabel φ).isTrue = v.isTrue := by
  cases v <;> rfl

@[simp] theorem asBool_relabel (v : Value) : (v.relabel φ).asBool = v.asBool := by
  cases v <;> rfl

theorem isEdge_relabel (node : NodeId) (e : Incidence) (v : Value) :
    Host.isEdge node e (v.relabel φ) = Host.isEdge node e v := by
  cases v <;> rfl

@[simp] theorem toVertexSet_relabel (v : Value) (context : String) :
    (v.relabel φ).toVertexSet context = v.toVertexSet context := by
  cases v <;> rfl

theorem toAutomaton_relabel (v : Value) (context : String) :
    (v.relabel φ).toAutomaton context = (v.toAutomaton context).map (Automaton.map φ) := by
  cases v <;> rfl

@[simp] theorem negate_relabel (v : Value) :
    Evaluation.negate (v.relabel φ) = Evaluation.negate v := by
  cases v <;> rfl

@[simp] theorem attributeOf_relabel (g : Graph) (name : String) (v : Value) :
    Evaluation.attributeOf g name (v.relabel φ) = Evaluation.attributeOf g name v := by
  cases v <;> rfl

@[simp] theorem order_relabel (v w : Value) : (v.relabel φ).order (w.relabel φ) = v.order w := by
  cases v <;> cases w <;> rfl

theorem same_relabel_left (v w : Value) : (v.relabel φ).same w = v.same w := by
  cases v with
  | automaton h a => cases w <;> simp [relabel, same, order]
  | _ => rfl

theorem same_relabel_right (v w : Value) : v.same (w.relabel φ) = v.same w := by
  cases w with
  | automaton h a => cases v <;> simp [relabel, same, order]
  | _ => rfl

@[simp] theorem same_relabel (v w : Value) : (v.relabel φ).same (w.relabel φ) = v.same w := by
  rw [same_relabel_left, same_relabel_right]

@[simp] theorem compareValues_relabel (op : CompareOp) (v w : Value) :
    Evaluation.compareValues op (v.relabel φ) (w.relabel φ) = Evaluation.compareValues op v w := by
  cases op <;> simp only [Evaluation.compareValues, same_relabel, order_relabel]

/-- What ignores constraints is the same for values that differ in constraints. -/
theorem congr_of_relabel {α : Type} {f : Value → α} (hf : ∀ v, f (v.relabel φ) = f v) {v v' : Value}
    (h : v.relabel φ = v'.relabel φ) : f v = f v' :=
  calc
    f v = f (v.relabel φ) := (hf v).symm
    _ = f (v'.relabel φ) := congrArg f h
    _ = f v' := hf v'

end Value

/-- Applied to arguments that differ in constraints, the functions answer the same but for
constraints. -/
def FunctionLibrary.Ignores (functions : FunctionLibrary) : Prop :=
  ∀ (n : Nat) (name : String) (args args' : List Value),
    args.map (Value.relabel φ) = args'.map (Value.relabel φ) →
      (functions.call n name args).map (Value.relabel φ) =
        (functions.call n name args').map (Value.relabel φ)

theorem FunctionLibrary.ignores_builtin : builtin.Ignores φ := by
  intro n name args args' hargs
  have hrelated : List.Forall₂ (fun v v' => Value.relabel φ v = Value.relabel φ v') args args' := by
    rw [← List.forall₂_eq_eq_eq, List.forall₂_map_left_iff, List.forall₂_map_right_iff] at hargs
    exact hargs
  have hcall : Builtin.call name args = Builtin.call name args' := by
    refine Builtin.call_eq_of_related hrelated ?_ ?_ ?_ ?_ name
    · exact Value.congr_of_relabel φ fun v => by cases v <;> rfl
    · exact Value.congr_of_relabel φ fun v => by cases v <;> rfl
    · intro v v' h context
      exact Value.congr_of_relabel (f := (Value.toVertexSet · context)) φ
        (fun v => v.toVertexSet_relabel φ context) h
    · -- What is searched and what is searched for are replaced one after the other.
      intro v v' w w' hv hw
      have hleft : Builtin.contains v w = Builtin.contains v' w :=
        Value.congr_of_relabel (f := (Builtin.contains · w)) φ (fun v => by cases v <;> rfl) hv
      have hright : Builtin.contains v' w = Builtin.contains v' w' := by
        refine Value.congr_of_relabel φ (fun w => ?_) hw
        cases v' with
        | list items => simp only [Builtin.contains, Value.same_relabel_right]
        | _ => cases w <;> rfl
      rw [hleft, hright]
  simp only [builtin, hcall]

/-! ## Workspaces -/

def Memo.relabel : Memo → Memo
  | done v => done (v.relabel φ)
  | m => m

theorem Memo.isInProgress_relabel (m : Memo) : (m.relabel φ).isInProgress = m.isInProgress := by
  cases m <;> rfl

def Bindings.relabel (b : Bindings) : Bindings :=
  ⟨b.frames.map fun frame => (frame.1, frame.2.relabel φ)⟩

theorem Bindings.get_relabel (b : Bindings) (name : String) :
    (b.relabel φ).get name = (b.get name).map (Value.relabel φ) := by
  rcases b with ⟨frames⟩
  simp only [get, relabel]
  induction frames with
  | nil => rfl
  | cons frame frames ih =>
    rw [List.map_cons, List.lookup_cons, List.lookup_cons]
    cases name == frame.1 with
    | true => rfl
    | false => exact ih

/-- The same is known and bound, but for constraints, and the same numbers are free. -/
structure Workspace.Matches (w w' : Workspace) : Prop where
  memo (id : NodeId) : (w.cache.memo id).relabel φ = (w'.cache.memo id).relabel φ
  bindings : w.bindings.relabel φ = w'.bindings.relabel φ
  supply : w.supply = w'.supply

namespace Workspace.Matches

variable {φ} {w w' : Workspace}

/-- The caches are changed in ways that correspond. -/
theorem withCache (h : w.Matches φ w') {cache cache' : Cache}
    (hcache : ∀ id, (cache.memo id).relabel φ = (cache'.memo id).relabel φ) :
    Matches φ { w with cache } { w' with cache := cache' } :=
  ⟨hcache, h.bindings, h.supply⟩

theorem setMemo (h : w.Matches φ w') {cache cache' : Cache} {id : NodeId} {m m' : Memo}
    (hcache : ∀ n, cache.memo n = if n = id then m else w.cache.memo n)
    (hcache' : ∀ n, cache'.memo n = if n = id then m' else w'.cache.memo n)
    (hm : m.relabel φ = m'.relabel φ) :
    Matches φ { w with cache } { w' with cache := cache' } := by
  refine h.withCache fun n => ?_
  rw [hcache, hcache']
  split
  · exact hm
  · exact h.memo n

theorem resetFrom (h : w.Matches φ w') (nodes : SyntaxGraph) (root : NodeId) :
    Matches φ { w with cache := w.cache.resetFrom nodes root }
      { w' with cache := w'.cache.resetFrom nodes root } := by
  refine h.withCache fun n => ?_
  have hprogress : (w.cache.memo n).isInProgress = (w'.cache.memo n).isInProgress := by
    rw [← Memo.isInProgress_relabel φ, h.memo n, Memo.isInProgress_relabel]
  simp only [Cache.resetFrom, Cache.memo_forgetAll, hprogress]
  split
  · rfl
  · exact h.memo n

theorem push (h : w.Matches φ w') (name : String) (v : Value) :
    Matches φ { w with bindings := w.bindings.push name v }
      { w' with bindings := w'.bindings.push name v } := by
  refine ⟨h.memo, ?_, h.supply⟩
  have hframes := congrArg Bindings.frames h.bindings
  simp only [Bindings.relabel, Bindings.push, List.map_cons] at hframes ⊢
  rw [hframes]

theorem pop (h : w.Matches φ w') :
    Matches φ { w with bindings := w.bindings.pop.2 }
      { w' with bindings := w'.bindings.pop.2 } := by
  refine ⟨h.memo, ?_, h.supply⟩
  have hframes := congrArg Bindings.frames h.bindings
  simp only [Bindings.relabel, Bindings.pop, List.map_tail] at hframes ⊢
  rw [hframes]

end Workspace.Matches

/-! ## Evaluations -/

namespace Eval

/-- A map says what is compared of the results. -/
def Parallel {α γ : Type} (f : α → γ) (x y : Eval α) : Prop :=
  ∀ w w' : Workspace, w.Matches φ w' →
    (x w).1.map f = (y w').1.map f ∧ (x w).2.Matches φ (y w').2

namespace Parallel

variable {φ} {α β γ δ : Type} {f : α → γ} {k : β → δ} {x y : Eval α}

theorem pure {r r' : α} (h : f r = f r') : Parallel φ f (Pure.pure r) (Pure.pure r') :=
  fun _ _ hw => ⟨congrArg Except.ok h, hw⟩

theorem bind {m m' : α → Eval β} (hxy : Parallel φ f x y)
    (h : ∀ r r', f r = f r' → Parallel φ k (m r) (m' r')) :
    Parallel φ k (x >>= m) (y >>= m') := by
  intro w w' hw
  rcases hxy w w' hw with ⟨hvalue, hlater⟩
  rw [bind_apply, bind_apply]
  rcases hx : x w with ⟨r, w₁⟩
  rcases hy : y w' with ⟨r', w₁'⟩
  rw [hx, hy] at hvalue hlater
  rcases outcomes_of_map_eq hvalue with ⟨a, a', rfl, rfl, heq⟩ | ⟨failure, rfl, rfl⟩
  · exact h a a' heq w₁ w₁' hlater
  · exact ⟨rfl, hlater⟩

/-- The results are equal. -/
theorem bind_same {m m' : α → Eval β} (hxy : Parallel φ id x y)
    (h : ∀ r, Parallel φ k (m r) (m' r)) : Parallel φ k (x >>= m) (y >>= m') := by
  refine hxy.bind fun r r' heq => ?_
  obtain rfl : r = r' := heq
  exact h r

variable (φ f) in
theorem throw (failure : Failure) :
    Parallel φ f (throwThe Failure failure) (throwThe Failure failure) :=
  fun _ _ hw => ⟨rfl, hw⟩

theorem ofExcept {r r' : Except EvalError α} (h : r.map f = r'.map f) :
    Parallel φ f (Eval.ofExcept r) (Eval.ofExcept r') := by
  rcases outcomes_of_map_eq h with ⟨a, a', rfl, rfl, heq⟩ | ⟨e, rfl, rfl⟩
  · exact pure heq
  · exact throw φ f (.error e)

theorem outcome (hxy : Parallel φ f x y) :
    Parallel φ (Except.map f) (Eval.outcome x) (Eval.outcome y) := by
  intro w w' hw
  rcases hxy w w' hw with ⟨hvalue, hlater⟩
  exact ⟨congrArg Except.ok hvalue, hlater⟩

theorem modifyCache {change change' : Cache → Cache}
    (h : ∀ {w w' : Workspace}, w.Matches φ w' →
      Workspace.Matches φ { w with cache := change w.cache }
        { w' with cache := change' w'.cache }) :
    Parallel φ id (Eval.modifyCache change) (Eval.modifyCache change') :=
  fun _ _ hw => ⟨rfl, h hw⟩

theorem modifyBindings {change : Bindings → Bindings}
    (h : ∀ {w w' : Workspace}, w.Matches φ w' →
      Workspace.Matches φ { w with bindings := change w.bindings }
        { w' with bindings := change w'.bindings }) :
    Parallel φ id (Eval.modifyBindings change) (Eval.modifyBindings change) :=
  fun _ _ hw => ⟨rfl, h hw⟩

variable (φ) in
theorem getBindings : Parallel φ (Bindings.relabel φ) Eval.getBindings Eval.getBindings :=
  fun _ _ hw => ⟨congrArg Except.ok hw.bindings, hw⟩

/-- The same numbers are drawn on both sides. -/
theorem fresh {x y : Fresh Automaton} (h : Automaton.map φ <$> x = Automaton.map φ <$> y) :
    Parallel φ (Automaton.map φ) (Eval.fresh x) (Eval.fresh y) := by
  intro w w' hw
  have hdrawn : (Automaton.map φ <$> x) w.supply.serials =
      (Automaton.map φ <$> y) w'.supply.serials := by
    rw [h, hw.supply]
  refine ⟨congrArg (fun r : Automaton × Nat => Except.ok r.1) hdrawn, hw.memo, hw.bindings, ?_⟩
  exact congrArg₂ (fun (s : Supply) (serials : Nat) => { s with serials }) hw.supply
    (congrArg Prod.snd hdrawn)

variable (φ) in
theorem freshHandle : Parallel φ id Eval.freshHandle Eval.freshHandle := by
  intro w w' hw
  exact ⟨congrArg (fun s : Supply => Except.ok s.handles) hw.supply, hw.memo, hw.bindings,
    congrArg (fun s : Supply => { s with handles := s.handles + 1 }) hw.supply⟩

variable (φ) in
theorem callNumber : Parallel φ id Eval.callNumber Eval.callNumber := by
  intro w w' hw
  exact ⟨congrArg (fun s : Supply => Except.ok s.calls) hw.supply, hw.memo, hw.bindings,
    congrArg (fun s : Supply => { s with calls := s.calls + 1 }) hw.supply⟩

end Parallel

/-- The same for every relation between results. -/
def Alongside {α : Type} (r : α → α → Prop) (x y : Eval α) : Prop :=
  ∀ w w' : Workspace, w.Matches φ w' →
    Outcomes r (x w).1 (y w').1 ∧ (x w).2.Matches φ (y w').2

variable {φ} in
theorem alongside_iff_parallel {α γ : Type} {f : α → γ} {x y : Eval α} :
    Alongside φ (fun a b => f a = f b) x y ↔ Parallel φ f x y := by
  simp only [Alongside, Parallel, outcomes_iff_map_eq]

variable {φ} in
theorem Alongside.bind {α γ : Type} {r : α → α → Prop} {s : γ → γ → Prop} {x y : Eval α}
    {f k : α → Eval γ} (hxy : Alongside φ r x y)
    (h : ∀ a b, r a b → Alongside φ s (f a) (k b)) : Alongside φ s (x >>= f) (y >>= k) := by
  intro w w' hw
  rcases hxy w w' hw with ⟨hends, hlater⟩
  rw [bind_apply, bind_apply]
  rcases hx : x w with ⟨o, w₁⟩
  rcases hy : y w' with ⟨o', w₁'⟩
  rw [hx, hy] at hends hlater
  cases hends with
  | ok hab => exact h _ _ hab w₁ w₁' hlater
  | error failure => exact ⟨.error failure, hlater⟩

/-- As a relation that the rules respect. -/
def alongside :
    PartialLifting (ExceptT Failure (StateM Workspace)) (ExceptT Failure (StateM Workspace)) where
  rel := Alongside φ
  throws _ := True
  pure hab _ _ hw := ⟨.ok hab, hw⟩
  throw _ failure _ _ _ hw := ⟨.error failure, hw⟩
  bind := .bind

end Eval

end PathQuery

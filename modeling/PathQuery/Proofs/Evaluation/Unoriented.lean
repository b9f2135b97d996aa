import PathQuery.Evaluation.Basic
import PathQuery.Proofs.Evaluation.Alike

/-!
# Values without orientation

A value can hold edges, and every edge is seen from one of its ends.

* `Value.canonical`: the value with all its edges seen from alpha;
* `same_canonical`, `compareValues_canonical` and so on: no operation of the language tells from
  which end an edge is seen;
* `FunctionLibrary.Unoriented`: functions that do not tell it either; those of the language are of
  this kind;
* `Workspace.canonical`: what is known and bound, without orientation;
* `canonical_start`, `canonical_resetFrom` and so on: what an evaluation does to a workspace does
  not depend on it.
-/

namespace PathQuery

@[simp] theorem Incidence.canonical_canonical (e : Incidence) :
    e.canonical.canonical = e.canonical :=
  rfl

/-! ## Values -/

namespace Value

mutual

def canonical : Value → Value
  | edge e => edge e.canonical
  | list items => list (canonicals items)
  | v => v

def canonicals : List Value → List Value
  | [] => []
  | v :: vs => canonical v :: canonicals vs

end

theorem canonicals_eq_map (items : List Value) : canonicals items = items.map canonical := by
  induction items with
  | nil => rfl
  | cons v vs ih => rw [canonicals, ih, List.map_cons]

@[simp] theorem isTrue_canonical (v : Value) : v.canonical.isTrue = v.isTrue := by
  cases v <;> rfl

@[simp] theorem asBool_canonical (v : Value) : v.canonical.asBool = v.asBool := by
  cases v <;> rfl

@[simp] theorem toVertexSet_canonical (v : Value) (context : String) :
    v.canonical.toVertexSet context = v.toVertexSet context := by
  cases v <;> rfl

@[simp] theorem toAutomaton_canonical (v : Value) (context : String) :
    v.canonical.toAutomaton context = v.toAutomaton context := by
  cases v <;> rfl

@[simp] theorem negate_canonical (v : Value) :
    Evaluation.negate v.canonical = Evaluation.negate v := by
  cases v <;> rfl

@[simp] theorem attributeOf_canonical (g : Graph) (name : String) (v : Value) :
    Evaluation.attributeOf g name v.canonical = Evaluation.attributeOf g name v := by
  cases v <;> rfl

@[simp] theorem order_canonical (v w : Value) : v.canonical.order w.canonical = v.order w := by
  cases v <;> cases w <;> rfl

mutual

@[simp] theorem same_canonical (v w : Value) : v.canonical.same w.canonical = v.same w := by
  -- Edges are compared without orientation; only lists hold further values.
  cases v with
  | list items =>
    cases w with
    | list items' =>
      simp only [canonical, same]
      exact sameAll_canonicals items items'
    | _ => simp [canonical, same, order]
  | _ => cases w <;> simp [canonical, same, order]

theorem sameAll_canonicals (vs ws : List Value) :
    sameAll (canonicals vs) (canonicals ws) = sameAll vs ws := by
  cases vs with
  | nil => cases ws <;> rfl
  | cons v vs =>
    cases ws with
    | nil => rfl
    | cons w ws => simp only [canonicals, sameAll, same_canonical v w, sameAll_canonicals vs ws]

end

@[simp] theorem compareValues_canonical (op : CompareOp) (v w : Value) :
    Evaluation.compareValues op v.canonical w.canonical = Evaluation.compareValues op v w := by
  cases op <;> simp only [Evaluation.compareValues, same_canonical, order_canonical]

/-- What does not depend on orientation is the same for values that differ in nothing else. -/
theorem congr_of_canonical {α : Type} {f : Value → α} (hf : ∀ v, f v.canonical = f v)
    {v v' : Value} (h : v.canonical = v'.canonical) : f v = f v' :=
  calc
    f v = f v.canonical := (hf v).symm
    _ = f v'.canonical := congrArg f h
    _ = f v' := hf v'

end Value

/-! ## Functions -/

namespace Builtin

theorem contains_canonical (v w : Value) : contains v.canonical w.canonical = contains v w := by
  cases v with
  | list items =>
    simp only [Value.canonical, contains, Value.canonicals_eq_map, List.any_map, Function.comp_def,
      Value.same_canonical]
  | vertexSet s => cases w <;> rfl
  | _ => rfl

theorem call_canonical (name : String) (args : List Value) :
    call name (args.map Value.canonical) = call name args := by
  have hrelated : List.Forall₂ (fun v v' => v = Value.canonical v')
      (args.map Value.canonical) args := by
    rw [List.forall₂_map_left_iff]
    exact List.forall₂_same.2 fun _ _ => rfl
  refine call_eq_of_related hrelated ?_ ?_ ?_ ?_ name
  · rintro _ (_ | _ | _ | _ | _ | _ | _ | _ | items | _ | _) rfl
    case list => simp only [Value.canonical, count, Value.canonicals_eq_map, List.length_map]
    all_goals rfl
  · rintro _ (_ | _ | _ | _ | _ | _ | _ | _ | items | _ | _) rfl
    case list => simp only [Value.canonical, isEmpty, Value.canonicals_eq_map, List.isEmpty_map]
    all_goals rfl
  · rintro _ v rfl context
    exact v.toVertexSet_canonical context
  · rintro _ v _ w rfl rfl
    exact contains_canonical v w

end Builtin

/-- Applied to arguments that differ in orientation, the functions answer the same but for
orientation. -/
def FunctionLibrary.Unoriented (functions : FunctionLibrary) : Prop :=
  ∀ (n : Nat) (name : String) (args args' : List Value),
    args.map Value.canonical = args'.map Value.canonical →
      (functions.call n name args).map Value.canonical =
        (functions.call n name args').map Value.canonical

theorem FunctionLibrary.unoriented_builtin : builtin.Unoriented := by
  intro n name args args' hargs
  have hcall : Builtin.call name args = Builtin.call name args' :=
    calc
      Builtin.call name args = Builtin.call name (args.map Value.canonical) :=
        (Builtin.call_canonical name args).symm
      _ = Builtin.call name (args'.map Value.canonical) := by rw [hargs]
      _ = Builtin.call name args' := Builtin.call_canonical name args'
  simp only [builtin, hcall]

/-! ## Bindings -/

namespace Bindings

def canonical (b : Bindings) : Bindings :=
  ⟨b.frames.map fun frame => (frame.1, frame.2.canonical)⟩

theorem get_canonical (b : Bindings) (name : String) :
    b.canonical.get name = (b.get name).map Value.canonical := by
  rcases b with ⟨frames⟩
  simp only [get, canonical]
  induction frames with
  | nil => rfl
  | cons frame frames ih =>
    rw [List.map_cons, List.lookup_cons, List.lookup_cons]
    cases name == frame.1 with
    | true => rfl
    | false => exact ih

theorem canonical_push (b : Bindings) (name : String) (v : Value) :
    (b.push name v).canonical = b.canonical.push name v.canonical :=
  rfl

theorem canonical_pop (b : Bindings) : b.pop.2.canonical = b.canonical.pop.2 := by
  simp only [pop, canonical, List.map_tail]

end Bindings

/-! ## Caches -/

def Memo.canonical : Memo → Memo
  | done v => done v.canonical
  | m => m

def CacheEntry.canonical (entry : CacheEntry) : CacheEntry :=
  { entry with memo := entry.memo.canonical }

namespace Cache

def canonical (cache : Cache) : Cache :=
  ⟨cache.entries.map CacheEntry.canonical⟩

variable (cache : Cache)

theorem memo_canonical (node : NodeId) :
    cache.canonical.memo node = (cache.memo node).canonical := by
  simp only [memo, entry, canonical, Array.getElem?_map]
  cases cache.entries[node]? <;> rfl

theorem canonical_extend (node : NodeId) :
    (cache.extend node).canonical = cache.canonical.extend node := by
  simp only [extend, canonical, size, Array.map_append, Array.map_replicate, Array.size_map]
  rfl

/-- A change of one entry that commutes with the loss of orientation. -/
theorem canonical_modify (node : NodeId) {f f' : CacheEntry → CacheEntry}
    (hf : ∀ entry, (f entry).canonical = f' entry.canonical) :
    canonical ⟨cache.entries.modify node f⟩ = ⟨cache.canonical.entries.modify node f'⟩ := by
  refine congrArg Cache.mk (Array.ext (by simp [canonical]) ?_)
  intro i _ _
  simp only [canonical, Array.getElem_map, Array.getElem_modify]
  split
  · exact hf _
  · rfl

theorem canonical_start (node : NodeId) :
    (cache.start node).canonical = cache.canonical.start node := by
  rw [start, start, ← canonical_extend]
  exact canonical_modify (cache.extend node) node fun _ => rfl

theorem canonical_setMemo (node : NodeId) (m : Memo) :
    (cache.setMemo node m).canonical = cache.canonical.setMemo node m.canonical := by
  rw [setMemo, setMemo, ← canonical_extend]
  exact canonical_modify (cache.extend node) node fun _ => rfl

theorem canonical_finish (node : NodeId) (v : Value) :
    (cache.finish node v).canonical = cache.canonical.finish node v.canonical :=
  cache.canonical_setMemo node (.done v)

theorem canonical_abort (node : NodeId) :
    (cache.abort node).canonical = cache.canonical.abort node :=
  cache.canonical_setMemo node .uninitialized

theorem canonical_resetFrom (nodes : SyntaxGraph) (root : NodeId) :
    (cache.resetFrom nodes root).canonical = cache.canonical.resetFrom nodes root := by
  unfold resetFrom
  induction below nodes root generalizing cache with
  | nil => rfl
  | cons node rest ih =>
    rw [List.foldl_cons, List.foldl_cons, ih]
    refine congrArg (rest.foldl _) (canonical_modify cache node fun entry => ?_)
    rcases entry with ⟨memo, evaluations⟩
    cases memo <;> rfl

end Cache

/-! ## Workspaces -/

def Workspace.canonical (w : Workspace) : Workspace :=
  { w with cache := w.cache.canonical, bindings := w.bindings.canonical }

end PathQuery

import PathQuery.Evaluation.Rules

/-!
# Formulas

Comparisons and operands of any kind, joined by `and`, `or` and `not`.  Truth has three values, and
junctions stop at the first item that decides them.

* `Formula`, `Formula.normal`: formulas, and the same with all negations pushed inward;
* `Formula.eval`: the value of a formula over any monad in which operands are asked for;
* `asBool_eval_pushed`, `asBool_eval_normal`: pushed inward, negations come to the same, and the same
  is asked for on the way;
* `Formula.Written`: the nodes of a syntax graph that are a formula.
-/

namespace PathQuery

def CompareOp.opposite : CompareOp → CompareOp
  | eq => ne
  | ne => eq
  | lt => ge
  | le => gt
  | gt => le
  | ge => lt

inductive Formula where
  /-- A node of any other kind, or one that is not looked into. -/
  | operand (node : NodeId)
  | compare (op : CompareOp) (lhs rhs : NodeId)
  | and (items : List Formula)
  | or (items : List Formula)
  | not (inner : Formula)

namespace Formula

mutual

/-- The formula, or its negation, with negations at operands only. -/
def pushed (negated : Bool) : Formula → Formula
  | operand node => if negated then not (operand node) else operand node
  | compare op lhs rhs => compare (if negated then op.opposite else op) lhs rhs
  | and items => if negated then or (pushedAll negated items) else and (pushedAll negated items)
  | or items => if negated then and (pushedAll negated items) else or (pushedAll negated items)
  | not inner => inner.pushed !negated

def pushedAll (negated : Bool) : List Formula → List Formula
  | [] => []
  | f :: fs => f.pushed negated :: pushedAll negated fs

end

/-- Negations are pushed through junctions and comparisons, and double ones are dropped. -/
def normal (f : Formula) : Formula :=
  f.pushed false

mutual

/-- No negation stands before anything but an operand. -/
def IsNormal : Formula → Prop
  | operand _ => True
  | compare _ _ _ => True
  | and items => AllNormal items
  | or items => AllNormal items
  | not inner => ∃ node, inner = operand node

def AllNormal : List Formula → Prop
  | [] => True
  | f :: fs => f.IsNormal ∧ AllNormal fs

end

/-! ## Normal forms -/

mutual

theorem isNormal_pushed (negated : Bool) : ∀ f : Formula, (f.pushed negated).IsNormal
  | operand node => by
    cases negated
    · trivial
    · exact ⟨node, rfl⟩
  | compare _ _ _ => trivial
  | and items => by
    have hitems := allNormal_pushedAll negated items
    cases negated <;> exact hitems
  | or items => by
    have hitems := allNormal_pushedAll negated items
    cases negated <;> exact hitems
  | not inner => isNormal_pushed (!negated) inner

theorem allNormal_pushedAll (negated : Bool) : ∀ fs : List Formula, AllNormal (pushedAll negated fs)
  | [] => trivial
  | f :: fs => ⟨isNormal_pushed negated f, allNormal_pushedAll negated fs⟩

end

/-! ## Values -/

section Eval

variable {m : Type → Type} [Monad m] (ask : NodeId → m Value)

mutual

def eval : Formula → m Value
  | operand node => ask node
  | compare op lhs rhs => do
    let x ← ask lhs
    let y ← ask rhs
    pure (Evaluation.compareValues op x y)
  | and items => evalAll false false items
  | or items => evalAll true false items
  | not inner => do
    let value ← inner.eval
    pure (Evaluation.negate value)

/-- Stops at the first item that decides; unknown items are remembered. -/
def evalAll (decides : Bool) : Bool → List Formula → m Value
  | unknown, [] => pure (if unknown then .null else .bool !decides)
  | unknown, f :: fs => do
    let value ← f.eval
    match value.asBool with
    | some b => if b == decides then pure (.bool decides) else evalAll decides unknown fs
    | none => evalAll decides true fs

end

end Eval

/-- The truth of a value, or of its negation. -/
def truth (negated : Bool) (value : Value) : Option Bool :=
  value.asBool.map (xor negated)

theorem truth_false : truth false = Value.asBool := by
  funext value
  cases h : value.asBool <;> simp [truth, h]

theorem truth_negate (negated : Bool) (value : Value) :
    truth negated (Evaluation.negate value) = truth (!negated) value := by
  cases value with
  | bool b => cases negated <;> cases b <;> rfl
  | _ => rfl

theorem asBool_compareValues_opposite (op : CompareOp) (x y : Value) :
    (Evaluation.compareValues op.opposite x y).asBool =
      truth true (Evaluation.compareValues op x y) := by
  cases op with
  | eq => simp [CompareOp.opposite, Evaluation.compareValues, truth, Value.asBool]
  | ne => simp [CompareOp.opposite, Evaluation.compareValues, truth, Value.asBool]
  | _ =>
    simp only [CompareOp.opposite, Evaluation.compareValues]
    cases x.order y with
    | none => rfl
    | some o => cases o <;> rfl

section Pushed

variable {m : Type → Type} [Monad m] [LawfulMonad m] (ask : NodeId → m Value)

theorem map_eval_not (g : Value → Option Bool) (inner : Formula) :
    g <$> (not inner).eval ask = (fun value => g (Evaluation.negate value)) <$> inner.eval ask := by
  simp only [eval, bind_pure_comp, Functor.map_map]

/-- How the items go on depends on nothing but the truth of the first one. -/
theorem map_evalAll_cons (g : Value → Option Bool) (decides unknown : Bool) (f : Formula)
    (fs : List Formula) :
    g <$> evalAll ask decides unknown (f :: fs) = (Value.asBool <$> f.eval ask) >>= fun
      | some b => if b == decides then pure (g (.bool decides))
        else g <$> evalAll ask decides unknown fs
      | none => g <$> evalAll ask decides true fs := by
  simp only [evalAll, map_bind, bind_map_left]
  refine bind_congr fun value => ?_
  cases value.asBool with
  | none => rfl
  | some b => simp only [apply_ite (g <$> ·), map_pure]

mutual

/-- In truth the pushed formula is the formula or its negation.  This is so over any monad, so the
same operands are asked for, one after the other. -/
theorem asBool_eval_pushed (negated : Bool) : ∀ f : Formula,
    Value.asBool <$> (f.pushed negated).eval ask = truth negated <$> f.eval ask
  | operand node => by
    cases negated with
    | false => rw [truth_false]; rfl
    | true =>
      refine (map_eval_not ask Value.asBool (operand node)).trans ?_
      simp only [← truth_false, truth_negate]
      rfl
  | compare op lhs rhs => by
    cases negated with
    | false => rw [truth_false]; rfl
    | true =>
      simp only [pushed, if_true, eval, map_bind, map_pure, asBool_compareValues_opposite]
  | and items => by
    have hitems := asBool_evalAll_pushed negated false false items
    cases negated <;> exact hitems
  | or items => by
    have hitems := asBool_evalAll_pushed negated true false items
    cases negated <;> exact hitems
  | not inner => by
    simp only [map_eval_not, truth_negate]
    exact asBool_eval_pushed (!negated) inner

/-- A negated junction is decided by the opposite of what decides the junction itself. -/
theorem asBool_evalAll_pushed (negated decides unknown : Bool) : ∀ fs : List Formula,
    Value.asBool <$> evalAll ask (xor negated decides) unknown (pushedAll negated fs) =
      truth negated <$> evalAll ask decides unknown fs
  | [] => by
    simp only [pushedAll, evalAll, map_pure]
    cases negated <;> cases decides <;> cases unknown <;> rfl
  | f :: fs => by
    rw [pushedAll, map_evalAll_cons, map_evalAll_cons, asBool_eval_pushed negated f]
    simp only [bind_map_left]
    refine bind_congr fun value => ?_
    rw [truth]
    cases value.asBool with
    | none => exact asBool_evalAll_pushed negated decides true fs
    | some b =>
      have hdecides : (xor negated b == xor negated decides) = (b == decides) := by
        cases negated <;> cases b <;> cases decides <;> rfl
      simp only [Option.map_some, hdecides, asBool_evalAll_pushed negated decides unknown fs]
      rfl

end

theorem asBool_eval_normal (f : Formula) :
    Value.asBool <$> f.normal.eval ask = Value.asBool <$> f.eval ask := by
  have hpushed := asBool_eval_pushed ask false f
  rwa [truth_false] at hpushed

end Pushed

/-! ## Formulas in a syntax graph -/

mutual

/-- The node is the formula, and these are the nodes of the formula above its operands.  None is
used twice. -/
inductive Written (nodes : SyntaxGraph) (region : NodeId → Prop) :
    Formula → NodeId → List NodeId → Prop where
  | operand {node : NodeId} : region node → Written nodes region (.operand node) node []
  | compare {op : CompareOp} {lhs rhs id : NodeId} :
    nodes.get id = .ok (.compare op lhs rhs) → region lhs → region rhs →
      Written nodes region (.compare op lhs rhs) id [id]
  | and {items : List Formula} {ids : List NodeId} {id : NodeId} {own : List NodeId} :
    nodes.get id = .ok (.and ids) → WrittenAll nodes region items ids own → id ∉ own →
      Written nodes region (.and items) id (id :: own)
  | or {items : List Formula} {ids : List NodeId} {id : NodeId} {own : List NodeId} :
    nodes.get id = .ok (.or ids) → WrittenAll nodes region items ids own → id ∉ own →
      Written nodes region (.or items) id (id :: own)
  | not {inner : Formula} {c id : NodeId} {own : List NodeId} :
    nodes.get id = .ok (.not c) → Written nodes region inner c own → id ∉ own →
      Written nodes region (.not inner) id (id :: own)

inductive WrittenAll (nodes : SyntaxGraph) (region : NodeId → Prop) :
    List Formula → List NodeId → List NodeId → Prop where
  | nil : WrittenAll nodes region [] [] []
  | cons {f : Formula} {fs : List Formula} {id : NodeId} {ids own owns : List NodeId} :
    Written nodes region f id own → WrittenAll nodes region fs ids owns → (∀ m ∈ own, m ∉ owns) →
      WrittenAll nodes region (f :: fs) (id :: ids) (own ++ owns)

end

end Formula
end PathQuery

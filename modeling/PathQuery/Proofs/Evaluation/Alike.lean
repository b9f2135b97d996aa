import Mathlib.Data.List.Forall2
import PathQuery.Environment.Functions
import PathQuery.Evaluation.Rules
import PathQuery.Proofs.Automaton.Twin
import PathQuery.Proofs.Path.Acceptance

/-!
# Values of two evaluations

Automata and path systems are made anew by every evaluation of their node, with handles and serials
that depend on what was made before.  Everything else about a value is the same in two evaluations.

* `Value.Settled`: nothing in the value was made by an evaluation;
* `Owners`: which node made what has a handle;
* `Value.Alike`: a value, and the same one with its node for a handle;
* `Alike.compareValues_eq`, `Alike.attributeOf_eq`, `builtin_call_eq` and so on: no operation of
  the language tells such values apart.
-/

namespace PathQuery

namespace Value

/-- What tells a made value from others. -/
def handle : Value → Option Nat
  | automaton h _ => some h
  | pathSystem h _ => some h
  | _ => none

/-- Neither made nor a collection of what may be made. -/
structure IsSimple (v : Value) : Prop where
  handle_eq : v.handle = none
  ne_list (items : List Value) : v ≠ list items

namespace IsSimple

theorem null : IsSimple .null := ⟨rfl, fun _ heq => by cases heq⟩

theorem bool (b : Bool) : IsSimple (.bool b) := ⟨rfl, fun _ heq => by cases heq⟩

theorem int (i : Int) : IsSimple (.int i) := ⟨rfl, fun _ heq => by cases heq⟩

theorem vertex (v : Nat) : IsSimple (.vertex v) := ⟨rfl, fun _ heq => by cases heq⟩

theorem edge (e : Incidence) : IsSimple (.edge e) := ⟨rfl, fun _ heq => by cases heq⟩

theorem vertexSet (s : IdSet) : IsSimple (.vertexSet s) := ⟨rfl, fun _ heq => by cases heq⟩

theorem ofAttribute (value : AttrValue) : IsSimple (.ofAttribute value) := by
  cases value <;> exact ⟨rfl, fun _ heq => by cases heq⟩

theorem negate (v : Value) : IsSimple (Evaluation.negate v) := by
  unfold Evaluation.negate
  split
  · exact bool _
  · exact null

theorem compareValues (op : CompareOp) (v w : Value) :
    IsSimple (Evaluation.compareValues op v w) := by
  unfold Evaluation.compareValues
  split
  · exact bool _
  · exact bool _
  · split
    · exact null
    · exact bool _

theorem of_attributeOf {g : Graph} {name : String} {v w : Value}
    (h : Evaluation.attributeOf g name v = .ok w) : w.IsSimple := by
  have hread : ∀ value : Option AttrValue,
      (value.elim Value.null Value.ofAttribute).IsSimple := by
    rintro (_ | value)
    · exact null
    · exact ofAttribute value
  unfold Evaluation.attributeOf at h
  split at h
  · cases h
    exact hread _
  · cases h
    exact hread _
  · cases h
    exact null
  · cases h

end IsSimple

/-- All handles are older than the bound, and automata have neither guards nor fixed edges. -/
structure Settled (base : Nat) (v : Value) : Prop where
  handle_lt {h : Nat} : v.handle = some h → h < base
  items_lt {items : List Value} {item : Value} {h : Nat} : v = list items → item ∈ items →
    item.handle = some h → h < base
  plain {h : Nat} {a : Automaton} {t : Transition} : v = automaton h a → t ∈ a.transitions →
    t.symbol.isPlain = true

theorem IsSimple.settled {v : Value} (hv : v.IsSimple) (base : Nat) : v.Settled base := by
  refine ⟨?_, ?_, ?_⟩
  · intro h hh
    rw [hv.handle_eq] at hh
    cases hh
  · intro items _ _ heq
    exact absurd heq (hv.ne_list items)
  · rintro h a t rfl
    cases hv.handle_eq

end Value

/-- The node that made what has a handle. -/
abbrev Owners := Nat → Option NodeId

/-- What is known of owners stays known. -/
structure Owners.Grows (o o' : Owners) : Prop where
  keeps {h : Nat} {c : NodeId} : o h = some c → o' h = some c

/-- The first value is as some evaluation of the node made it; the second one has the node itself
for a handle, counted from the bound.  The property holds of all symbols of made automata. -/
inductive Value.Alike (P : Symbol → Prop) (base : Nat) (o : Owners) (c : NodeId) :
    Value → Value → Prop where
  | settled {v : Value} : v.Settled base → Alike P base o c v v
  | automaton {h : Nat} {a b : Automaton} : base ≤ h → o h = some c → a.Twin P b →
    Alike P base o c (.automaton h a) (.automaton (base + c) b)
  | pathSystem {h : Nat} {ps : PathSystem} : base ≤ h → o h = some c →
    Alike P base o c (.pathSystem h ps) (.pathSystem (base + c) ps)

namespace Value.Alike

variable {P Q : Symbol → Prop} {base : Nat} {o o' : Owners} {c d : NodeId} {v v' w w' : Value}

theorem mono (h : Alike P base o c v v') (ho : o.Grows o') : Alike P base o' c v v' := by
  cases h with
  | settled hv => exact .settled hv
  | automaton hle howner htwin => exact .automaton hle (ho.keeps howner) htwin
  | pathSystem hle howner => exact .pathSystem hle (ho.keeps howner)

theorem simple (hv : v.IsSimple) : Alike P base o c v v :=
  .settled (hv.settled base)

/-! ## Observations -/

theorem isTrue_eq (h : Alike P base o c v v') : v.isTrue = v'.isTrue := by
  cases h <;> rfl

theorem toVertexSet_eq (h : Alike P base o c v v') (context : String) :
    v.toVertexSet context = v'.toVertexSet context := by
  cases h <;> rfl

/-- Both are automata, or neither is and the error is the same. -/
theorem toAutomaton (hplain : ∀ symbol : Symbol, symbol.isPlain = true → P symbol)
    (h : Alike P base o c v v') (context : String) :
    (∃ a b, v.toAutomaton context = .ok a ∧ v'.toAutomaton context = .ok b ∧ a.Twin P b) ∨
      ∃ e, v.toAutomaton context = .error e ∧ v'.toAutomaton context = .error e := by
  cases h with
  | settled hv =>
    cases v with
    | automaton h a =>
      exact .inl ⟨a, a, rfl, rfl, .refl fun ht => hplain _ (hv.plain rfl ht)⟩
    | _ => exact .inr ⟨_, rfl, rfl⟩
  | automaton _ _ htwin => exact .inl ⟨_, _, rfl, rfl, htwin⟩
  | pathSystem _ _ => exact .inr ⟨_, rfl, rfl⟩

/-! ## Operations of the language -/

theorem negate_eq (h : Alike P base o c v v') : Evaluation.negate v = Evaluation.negate v' := by
  cases h <;> rfl

theorem attributeOf_eq (h : Alike P base o c v v') (g : Graph) (name : String) :
    Evaluation.attributeOf g name v = Evaluation.attributeOf g name v' := by
  cases h <;> rfl

theorem order_eq (h : Alike P base o c v v') (k : Alike Q base o d w w') :
    v.order w = v'.order w' := by
  cases h with
  | settled _ =>
    cases k with
    | settled _ => rfl
    | _ => cases v <;> rfl
  | _ => cases k <;> rfl

/-- What is older than the bound is nothing that is made. -/
theorem same_older_left (hv : ∀ {h : Nat}, v.handle = some h → h < base) (k : Alike Q base o d w w') :
    v.same w = v.same w' := by
  cases k with
  | settled _ => rfl
  | automaton hle _ _ =>
    cases v with
    | automaton h a =>
      have hlt := hv rfl
      simp only [Value.same]
      rw [beq_eq_false_iff_ne.2 (by omega), beq_eq_false_iff_ne.2 (by omega)]
    | _ => simp [Value.same, Value.order]
  | pathSystem hle _ =>
    cases v with
    | pathSystem h _ =>
      have hlt := hv rfl
      simp only [Value.same]
      rw [beq_eq_false_iff_ne.2 (by omega), beq_eq_false_iff_ne.2 (by omega)]
    | _ => simp [Value.same, Value.order]

theorem same_older_right (h : Alike P base o c v v')
    (hw : ∀ {h : Nat}, w.handle = some h → h < base) :
    v.same w = v'.same w := by
  cases h with
  | settled _ => rfl
  | automaton hle _ _ =>
    cases w with
    | automaton h a =>
      have hlt := hw rfl
      simp only [Value.same]
      rw [beq_eq_false_iff_ne.2 (by omega), beq_eq_false_iff_ne.2 (by omega)]
    | _ => simp [Value.same, Value.order]
  | pathSystem hle _ =>
    cases w with
    | pathSystem h _ =>
      have hlt := hw rfl
      simp only [Value.same]
      rw [beq_eq_false_iff_ne.2 (by omega), beq_eq_false_iff_ne.2 (by omega)]
    | _ => simp [Value.same, Value.order]

/-- Values of different nodes. -/
theorem same_eq (hne : c ≠ d) (h : Alike P base o c v v') (k : Alike Q base o d w w') :
    v.same w = v'.same w' := by
  have hdistinct : ∀ {x y : Nat}, o x = some c → o y = some d →
      (x == y) = (base + c == base + d) := by
    intro x y hx hy
    have hxy : x ≠ y := by
      rintro rfl
      exact hne (Option.some.inj (hx.symm.trans hy))
    rw [beq_eq_false_iff_ne.2 hxy, beq_eq_false_iff_ne.2 (by lia)]
  cases h with
  | settled hv => exact k.same_older_left hv.handle_lt
  | automaton hle howner htwin =>
    cases k with
    | settled hw => exact (automaton hle howner htwin).same_older_right hw.handle_lt
    | automaton _ howner' _ =>
      simp only [Value.same]
      exact hdistinct howner howner'
    | pathSystem _ _ => simp [Value.same, Value.order]
  | pathSystem hle howner =>
    cases k with
    | settled hw => exact (pathSystem hle howner : Alike P base o c _ _).same_older_right hw.handle_lt
    | automaton _ _ _ => simp [Value.same, Value.order]
    | pathSystem _ howner' =>
      simp only [Value.same]
      exact hdistinct howner howner'

/-- One value. -/
theorem same_self_eq (h : Alike P base o c v v') : v.same v = v'.same v' := by
  cases h with
  | settled _ => rfl
  | automaton _ _ _ => simp [Value.same]
  | pathSystem _ _ => simp [Value.same]

theorem compareValues_eq (h : Alike P base o c v v') (k : Alike Q base o d w w')
    (hsame : v.same w = v'.same w') (op : CompareOp) :
    Evaluation.compareValues op v w = Evaluation.compareValues op v' w' := by
  cases op <;> simp only [Evaluation.compareValues, hsame, h.order_eq k]

end Value.Alike

/-! ## Functions -/

namespace Builtin

variable {P Q : Symbol → Prop} {base : Nat} {o : Owners} {c d : NodeId} {v v' w w' : Value}

theorem count_eq (h : v.Alike P base o c v') : count v = count v' := by
  cases h <;> rfl

theorem isEmpty_eq (h : v.Alike P base o c v') : isEmpty v = isEmpty v' := by
  cases h <;> rfl

theorem contains_eq (h : v.Alike P base o c v') (k : w.Alike Q base o d w') :
    contains v w = contains v' w' := by
  cases h with
  | settled hv =>
    cases v with
    | list items =>
      have hitems : items.any (Value.same · w) = items.any (Value.same · w') := by
        rw [Bool.eq_iff_iff, List.any_eq_true, List.any_eq_true]
        have hitem : ∀ item ∈ items, Value.same item w = Value.same item w' :=
          fun item hitem => k.same_older_left fun hh => hv.items_lt rfl hitem hh
        exact exists_congr fun item => and_congr_right fun hmem => by rw [hitem item hmem]
      simp only [contains, hitems]
    | _ => cases k <;> rfl
  | _ => cases k <;> rfl

section Call

variable {R : Value → Value → Prop} {args args' : List Value} (h : List.Forall₂ R args args')
include h

theorem unary_eq {f : Value → Except EvalError Value} (name : String)
    (hf : ∀ {v v'}, R v v' → f v = f v') : unary name f args = unary name f args' := by
  have hlength := h.length_eq
  rcases h with _ | ⟨hv, _ | ⟨_, _⟩⟩
  · rfl
  · exact hf hv
  · simp only [unary, hlength]

theorem binary_eq {f : Value → Value → Except EvalError Value} (name : String)
    (hf : ∀ {v v' w w'}, R v v' → R w w' → f v w = f v' w') :
    binary name f args = binary name f args' := by
  have hlength := h.length_eq
  rcases h with _ | ⟨hv, _ | ⟨hw, _ | ⟨_, _⟩⟩⟩
  · rfl
  · rfl
  · exact hf hv hw
  · simp only [binary, hlength]

/-- A function that does not tell related values apart answers the same. -/
theorem call_eq_of_related (hcount : ∀ {v v'}, R v v' → count v = count v')
    (hempty : ∀ {v v'}, R v v' → isEmpty v = isEmpty v')
    (hset : ∀ {v v'}, R v v' → ∀ context, v.toVertexSet context = v'.toVertexSet context)
    (hcontains : ∀ {v v' w w'}, R v v' → R w w' → contains v w = contains v' w') (name : String) :
    call name args = call name args' := by
  have hcombine : ∀ (name : String) (f : IdSet → IdSet → IdSet) {v v' w w' : Value}, R v v' →
      R w w' → combine name f v w = combine name f v' w' := by
    intro name f v v' w w' hv hw
    unfold combine
    rw [hset hv, hset hw]
  have hfound : ∀ f, find name = some f → f args = f args' := by
    intro f hf
    unfold find at hf
    split at hf
    · cases hf
      exact unary_eq h _ hcount
    · cases hf
      exact unary_eq h _ hempty
    · cases hf
      exact binary_eq h _ (hcombine _ _)
    · cases hf
      exact binary_eq h _ (hcombine _ _)
    · cases hf
      exact binary_eq h _ hcontains
    · cases hf
  unfold call
  cases hname : find name with
  | none => rfl
  | some f => exact hfound f hname

end Call

/-- A function that is called with such values answers the same. -/
theorem call_eq {args args' : List Value}
    (h : List.Forall₂ (fun v v' => ∃ P c, v.Alike P base o c v') args args') (name : String) :
    call name args = call name args' := by
  refine call_eq_of_related h ?_ ?_ ?_ ?_ name
  · rintro _ _ ⟨_, _, hv⟩
    exact count_eq hv
  · rintro _ _ ⟨_, _, hv⟩
    exact isEmpty_eq hv
  · rintro _ _ ⟨_, _, hv⟩ context
    exact hv.toVertexSet_eq context
  · rintro _ _ _ _ ⟨_, _, hv⟩ ⟨_, _, hw⟩
    exact contains_eq hv hw

/-- What functions answer. -/
inductive Answer : Except EvalError Value → Prop where
  | simple {v : Value} : v.IsSimple → Answer (.ok v)
  | mismatch (context expected found : String) :
    Answer (.error (.typeMismatch context expected found))
  | unknown (name : String) : Answer (.error (.unknownFunction name))

theorem answer_unary {name : String} {f : Value → Except EvalError Value} (hf : ∀ x, Answer (f x))
    (args : List Value) : Answer (unary name f args) := by
  unfold unary
  split
  · exact hf _
  · exact .mismatch _ _ _

theorem answer_binary {name : String} {f : Value → Value → Except EvalError Value}
    (hf : ∀ x y, Answer (f x y)) (args : List Value) : Answer (binary name f args) := by
  unfold binary
  split
  · exact hf _ _
  · exact .mismatch _ _ _

theorem answer_count (x : Value) : Answer (count x) := by
  cases x <;> first | exact .simple (.int _) | exact .mismatch _ _ _

theorem answer_isEmpty (x : Value) : Answer (isEmpty x) := by
  cases x <;> first | exact .simple (.bool _) | exact .mismatch _ _ _

/-- Only vertices and sets of vertices are sets. -/
theorem toVertexSet_cases (x : Value) (context : String) : (∃ s, x.toVertexSet context = .ok s) ∨
    ∃ expected found, x.toVertexSet context = .error (.typeMismatch context expected found) := by
  cases x <;> first | exact .inl ⟨_, rfl⟩ | exact .inr ⟨_, _, rfl⟩

theorem answer_combine (name : String) (f : IdSet → IdSet → IdSet) (x y : Value) :
    Answer (combine name f x y) := by
  unfold combine
  obtain ⟨s, hs⟩ | ⟨expected, found, hs⟩ := toVertexSet_cases x name
  · obtain ⟨t, ht⟩ | ⟨expected, found, ht⟩ := toVertexSet_cases y name
    · rw [hs, ht]
      exact .simple (.vertexSet _)
    · rw [hs, ht]
      exact .mismatch _ _ _
  · rw [hs]
    exact .mismatch _ _ _

theorem answer_contains (x y : Value) : Answer (contains x y) := by
  unfold contains
  split <;> first | exact .simple (.bool _) | exact .mismatch _ _ _

theorem answer_find {name : String} {f : List Value → Except EvalError Value}
    (h : find name = some f) (args : List Value) : Answer (f args) := by
  unfold find at h
  split at h <;> cases h
  · exact answer_unary answer_count args
  · exact answer_unary answer_isEmpty args
  · exact answer_binary (answer_combine _ _) args
  · exact answer_binary (answer_combine _ _) args
  · exact answer_binary answer_contains args

theorem answer_call (name : String) (args : List Value) : Answer (call name args) := by
  unfold call
  cases hf : find name with
  | none => exact .unknown name
  | some f => exact answer_find hf args

/-- Functions make nothing that has a handle. -/
theorem isSimple_of_call {name : String} {args : List Value} (h : call name args = .ok v) :
    v.IsSimple := by
  have hanswer : Answer (.ok v) := h ▸ answer_call name args
  cases hanswer with
  | simple hv => exact hv

end Builtin
end PathQuery

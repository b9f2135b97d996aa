import PathQuery.Proofs.Evaluation.Alike

/-!
# Values that correspond

Two evaluations of one node can make automata and path systems at different times, so that their
handles and serials differ.  Which handles stand for each other is known as soon as it is known with
which of them the two evaluations start.

* `Correspondence`: what two evaluations have in common;
* `Value.Corresponds`: values that are the same but for corresponding handles and for serials;
* `Corresponds.same_eq`, `Corresponds.compareValues_eq` and so on: no operation of the language
  tells corresponding values apart;
* `FunctionLibrary.Respects`: functions that do not tell them apart either;
* `Value.content`: what corresponding values have in common.
-/

namespace PathQuery

/-- The nodes to which guards and fixed edges refer lie in the region. -/
def Symbol.Within (region : NodeId → Prop) : Symbol → Prop
  | .epsilon => True
  | .step c => ∀ guard, c.guard = some guard → region guard.predicate
  | .stepAlong c edge => (∀ guard, c.guard = some guard → region guard.predicate) ∧ region edge

theorem Symbol.Within.mono {region region' : NodeId → Prop} {symbol : Symbol}
    (h : symbol.Within region) (hsub : ∀ n, region n → region' n) : symbol.Within region' := by
  cases symbol with
  | epsilon => trivial
  | step _ => exact fun guard hguard => hsub _ (h guard hguard)
  | stepAlong _ edge => exact ⟨fun guard hguard => hsub _ (h.1 guard hguard), hsub _ h.2⟩

theorem Symbol.Within.reversed {region : NodeId → Prop} (symbol : Symbol)
    (h : symbol.Within region) : symbol.reversed.Within region := by
  cases symbol <;> exact h

/-- What two evaluations have in common. -/
structure Correspondence where
  /-- Which handles stand for each other. -/
  handles : Nat → Nat → Prop
  /-- The first handle that each evaluation can give out. -/
  start : Nat
  start' : Nat
  /-- The nodes to which automata may refer. -/
  region : NodeId → Prop
  /-- Nothing is different. -/
  exact : Prop
  one_to_one {h h' k k' : Nat} : handles h h' → handles k k' → (h = k ↔ h' = k')
  handles_fresh (n : Nat) : handles (start + n) (start' + n)
  eq_of_exact {h h' : Nat} : exact → handles h h' → h = h'

/-- The automata are equal but for serials. -/
structure Automaton.Corresponds (C : Correspondence) (a b : Automaton) : Prop where
  twin : a.Twin (Symbol.Within C.region) b
  eq_of_exact : C.exact → a = b

inductive Value.Corresponds (C : Correspondence) : Value → Value → Prop where
  | simple {v : Value} : v.IsSimple → Corresponds C v v
  | automaton {h h' : Nat} {a b : Automaton} : C.handles h h' → a.Corresponds C b →
    Corresponds C (.automaton h a) (.automaton h' b)
  | pathSystem {h h' : Nat} {ps : PathSystem} : C.handles h h' →
    Corresponds C (.pathSystem h ps) (.pathSystem h' ps)
  | list {vs ws : List Value} : vs.length = ws.length →
    (∀ {v w}, (v, w) ∈ vs.zip ws → Corresponds C v w) → Corresponds C (.list vs) (.list ws)

namespace Value

/-! ## Values that are not simple -/

theorem not_isSimple_automaton (h : Nat) (a : Automaton) : ¬ IsSimple (.automaton h a) :=
  fun hsimple => by cases hsimple.handle_eq

theorem not_isSimple_pathSystem (h : Nat) (ps : PathSystem) : ¬ IsSimple (.pathSystem h ps) :=
  fun hsimple => by cases hsimple.handle_eq

theorem not_isSimple_list (items : List Value) : ¬ IsSimple (.list items) :=
  fun hsimple => hsimple.ne_list items rfl

theorem order_eq_none_left {v : Value} (hv : ¬ v.IsSimple) (w : Value) : v.order w = none := by
  cases v with
  | automaton _ _ => cases w <;> rfl
  | pathSystem _ _ => cases w <;> rfl
  | list _ => cases w <;> rfl
  | _ => exact absurd ⟨rfl, fun _ heq => by cases heq⟩ hv

theorem order_eq_none_right {w : Value} (hw : ¬ w.IsSimple) (v : Value) : v.order w = none := by
  cases w with
  | automaton _ _ => cases v <;> rfl
  | pathSystem _ _ => cases v <;> rfl
  | list _ => cases v <;> rfl
  | _ => exact absurd ⟨rfl, fun _ heq => by cases heq⟩ hw

theorem same_eq_false_left {v w : Value} (hv : v.IsSimple) (hw : ¬ w.IsSimple) :
    v.same w = false := by
  have horder := order_eq_none_right hw v
  cases w with
  | automaton _ _ =>
    cases v with
    | automaton _ _ => exact absurd hv (not_isSimple_automaton _ _)
    | _ => simp [same, horder]
  | pathSystem _ _ =>
    cases v with
    | pathSystem _ _ => exact absurd hv (not_isSimple_pathSystem _ _)
    | _ => simp [same, horder]
  | list _ =>
    cases v with
    | list _ => exact absurd hv (not_isSimple_list _)
    | _ => simp [same, horder]
  | _ => exact absurd ⟨rfl, fun _ heq => by cases heq⟩ hw

theorem same_eq_false_right {v w : Value} (hv : ¬ v.IsSimple) (hw : w.IsSimple) :
    v.same w = false := by
  have horder := order_eq_none_left hv w
  cases v with
  | automaton _ _ =>
    cases w with
    | automaton _ _ => exact absurd hw (not_isSimple_automaton _ _)
    | _ => simp [same, horder]
  | pathSystem _ _ =>
    cases w with
    | pathSystem _ _ => exact absurd hw (not_isSimple_pathSystem _ _)
    | _ => simp [same, horder]
  | list _ =>
    cases w with
    | list _ => exact absurd hw (not_isSimple_list _)
    | _ => simp [same, horder]
  | _ => exact absurd ⟨rfl, fun _ heq => by cases heq⟩ hv

/-! ## Corresponding values -/

namespace Corresponds

variable {C : Correspondence} {v v' w w' : Value}

theorem of_forall₂ {vs ws : List Value} (h : List.Forall₂ (Corresponds C) vs ws) :
    Corresponds C (.list vs) (.list ws) := by
  rcases List.forall₂_iff_zip.1 h with ⟨hlength, hitems⟩
  exact .list hlength hitems

theorem eq_of_exact (h : Corresponds C v w) (hexact : C.exact) : v = w := by
  induction h with
  | simple _ => rfl
  | automaton hhandles hab => rw [C.eq_of_exact hexact hhandles, hab.eq_of_exact hexact]
  | pathSystem hhandles => rw [C.eq_of_exact hexact hhandles]
  | @list vs ws hlength _ ih =>
    have hitems : List.Forall₂ Eq vs ws := List.forall₂_iff_zip.2 ⟨hlength, ih⟩
    rw [List.forall₂_eq_eq_eq] at hitems
    rw [hitems]

/-- Both are of the same kind. -/
theorem isSimple_iff (h : Corresponds C v w) : v.IsSimple ↔ w.IsSimple := by
  cases h with
  | simple _ => rfl
  | automaton _ _ =>
    exact iff_of_false (not_isSimple_automaton _ _) (not_isSimple_automaton _ _)
  | pathSystem _ =>
    exact iff_of_false (not_isSimple_pathSystem _ _) (not_isSimple_pathSystem _ _)
  | list _ _ => exact iff_of_false (not_isSimple_list _) (not_isSimple_list _)

theorem eq_of_isSimple (h : Corresponds C v w) (hv : v.IsSimple) : v = w := by
  cases h with
  | simple _ => rfl
  | automaton _ _ => exact absurd hv (not_isSimple_automaton _ _)
  | pathSystem _ => exact absurd hv (not_isSimple_pathSystem _ _)
  | list _ _ => exact absurd hv (not_isSimple_list _)

/-! ## Observations -/

theorem isTrue_eq (h : Corresponds C v w) : v.isTrue = w.isTrue := by
  cases h <;> rfl

theorem toVertexSet_eq (h : Corresponds C v w) (context : String) :
    v.toVertexSet context = w.toVertexSet context := by
  cases h <;> rfl

/-- Both are automata, or neither is and the error is the same. -/
theorem toAutomaton (h : Corresponds C v w) (context : String) :
    (∃ a b, v.toAutomaton context = .ok a ∧ w.toAutomaton context = .ok b ∧ a.Corresponds C b) ∨
      ∃ e, v.toAutomaton context = .error e ∧ w.toAutomaton context = .error e := by
  cases h with
  | simple hv =>
    cases v with
    | automaton _ _ => exact absurd hv (not_isSimple_automaton _ _)
    | _ => exact .inr ⟨_, rfl, rfl⟩
  | automaton _ hab => exact .inl ⟨_, _, rfl, rfl, hab⟩
  | pathSystem _ => exact .inr ⟨_, rfl, rfl⟩
  | list _ _ => exact .inr ⟨_, rfl, rfl⟩

/-! ## Operations of the language -/

theorem negate_eq (h : Corresponds C v w) : Evaluation.negate v = Evaluation.negate w := by
  cases h <;> rfl

theorem attributeOf_eq (h : Corresponds C v w) (g : Graph) (name : String) :
    Evaluation.attributeOf g name v = Evaluation.attributeOf g name w := by
  cases h <;> rfl

theorem order_eq (h : Corresponds C v v') (k : Corresponds C w w') :
    v.order w = v'.order w' := by
  by_cases hv : v.IsSimple
  · rw [← h.eq_of_isSimple hv]
    by_cases hw : w.IsSimple
    · rw [← k.eq_of_isSimple hw]
    · rw [order_eq_none_right hw, order_eq_none_right (mt k.isSimple_iff.2 hw)]
  · rw [order_eq_none_left hv, order_eq_none_left (mt h.isSimple_iff.2 hv)]

theorem sameAll_eq {vs vs' ws ws' : List Value}
    (hvs : List.Forall₂ (fun v v' => ∀ {w w'}, Corresponds C w w' → v.same w = v'.same w') vs vs')
    (hws : List.Forall₂ (Corresponds C) ws ws') : sameAll vs ws = sameAll vs' ws' := by
  induction hvs generalizing ws ws' with
  | nil => cases hws <;> rfl
  | cons hv _ ih =>
    cases hws with
    | nil => rfl
    | cons hw hws => rw [sameAll, sameAll, hv hw, ih hws]

theorem same_eq (h : Corresponds C v v') (k : Corresponds C w w') :
    v.same w = v'.same w' := by
  have hhandles : ∀ {h h' k k' : Nat}, C.handles h h' → C.handles k k' →
      (h == k) = (h' == k') := by
    intro h h' k k' hh hk
    rw [Bool.eq_iff_iff, beq_iff_eq, beq_iff_eq]
    exact C.one_to_one hh hk
  induction h generalizing w w' with
  | @simple v hv =>
    by_cases hw : w.IsSimple
    · rw [← k.eq_of_isSimple hw]
    · rw [same_eq_false_left hv hw, same_eq_false_left hv (mt k.isSimple_iff.2 hw)]
  | automaton hh _ =>
    cases k with
    | simple hw =>
      rw [same_eq_false_right (not_isSimple_automaton _ _) hw,
        same_eq_false_right (not_isSimple_automaton _ _) hw]
    | automaton hk _ =>
      simp only [same]
      exact hhandles hh hk
    | pathSystem _ => simp [same, order]
    | list _ _ => simp [same, order]
  | pathSystem hh =>
    cases k with
    | simple hw =>
      rw [same_eq_false_right (not_isSimple_pathSystem _ _) hw,
        same_eq_false_right (not_isSimple_pathSystem _ _) hw]
    | automaton _ _ => simp [same, order]
    | pathSystem hk =>
      simp only [same]
      exact hhandles hh hk
    | list _ _ => simp [same, order]
  | @list vs vs' hlength hitems ih =>
    cases k with
    | simple hw =>
      rw [same_eq_false_right (not_isSimple_list _) hw,
        same_eq_false_right (not_isSimple_list _) hw]
    | automaton _ _ => simp [same, order]
    | pathSystem _ => simp [same, order]
    | @list ws ws' hlength' hitems' =>
      simp only [same]
      exact sameAll_eq (List.forall₂_iff_zip.2 ⟨hlength, fun hmem => ih hmem⟩)
        (List.forall₂_iff_zip.2 ⟨hlength', hitems'⟩)

theorem compareValues_eq (h : Corresponds C v v') (k : Corresponds C w w') (op : CompareOp) :
    Evaluation.compareValues op v w = Evaluation.compareValues op v' w' := by
  cases op <;> simp only [Evaluation.compareValues, h.same_eq k, h.order_eq k]

end Corresponds

end Value

/-! ## Functions -/

/-- Both are corresponding values, or both are the same failure. -/
def Correspondence.Outcomes (C : Correspondence) :
    Except Failure Value → Except Failure Value → Prop
  | .ok v, .ok w => v.Corresponds C w
  | .error failure, .error failure' => failure = failure'
  | _, _ => False

/-- The functions answer the same to the same, whatever was called before. -/
def FunctionLibrary.Respects (C : Correspondence) (functions : FunctionLibrary) : Prop :=
  ∀ (m n : Nat) (name : String) (args args' : List Value), (C.exact → m = n) →
    List.Forall₂ (Value.Corresponds C) args args' →
      C.Outcomes (functions.call m name args) (functions.call n name args')

namespace Builtin

variable {C : Correspondence} {v v' w w' : Value}

theorem contains_eq_of_corresponds (h : v.Corresponds C v') (k : w.Corresponds C w') :
    contains v w = contains v' w' := by
  cases h with
  | simple hv =>
    cases v with
    | list _ => exact absurd hv (Value.not_isSimple_list _)
    | vertexSet _ => cases k <;> rfl
    | _ => rfl
  | automaton _ _ => rfl
  | pathSystem _ => rfl
  | @list vs vs' hlength hitems =>
    have hvs : List.Forall₂ (Value.Corresponds C) vs vs' :=
      List.forall₂_iff_zip.2 ⟨hlength, hitems⟩
    have hany : vs.any (Value.same · w) = vs'.any (Value.same · w') := by
      clear hlength hitems
      induction hvs with
      | nil => rfl
      | cons hv _ ih => rw [List.any_cons, List.any_cons, hv.same_eq k, ih]
    simp only [contains, hany]

theorem call_eq_of_corresponds {args args' : List Value}
    (h : List.Forall₂ (Value.Corresponds C) args args') (name : String) :
    call name args = call name args' := by
  refine call_eq_of_related h ?_ ?_ ?_ contains_eq_of_corresponds name
  · intro v v' hv
    cases hv with
    | list hlength _ => simp only [count, hlength]
    | _ => rfl
  · intro v v' hv
    cases hv with
    | @list vs ws hlength _ =>
      have hempty : vs.isEmpty = ws.isEmpty := by
        cases vs <;> cases ws <;> simp_all
      simp only [isEmpty, hempty]
    | _ => rfl
  · exact fun hv => hv.toVertexSet_eq

end Builtin

theorem FunctionLibrary.isSimple_of_builtin {n : Nat} {name : String} {args : List Value}
    {v : Value} (h : builtin.call n name args = .ok v) : v.IsSimple := by
  simp only [builtin] at h
  split at h
  · rename_i hcall
    cases h
    exact Builtin.isSimple_of_call hcall
  · cases h

theorem FunctionLibrary.respects_builtin (C : Correspondence) : builtin.Respects C := by
  intro m n name args args' _ hargs
  simp only [builtin, Builtin.call_eq_of_corresponds hargs name]
  cases hcall : Builtin.call name args' with
  | ok value => exact .simple (Builtin.isSimple_of_call hcall)
  | error e => exact rfl

/-! ## Content -/

namespace Value

mutual

/-- The value without handles and serials. -/
def content : Value → Value
  | automaton _ a => automaton 0 a.unnumbered
  | pathSystem _ ps => pathSystem 0 ps
  | list items => list (contents items)
  | v => v

def contents : List Value → List Value
  | [] => []
  | v :: vs => content v :: contents vs

end

theorem Corresponds.content_eq {C : Correspondence} {v w : Value} (h : Corresponds C v w) :
    v.content = w.content := by
  induction h with
  | simple _ => rfl
  | automaton _ hab => simp only [content, hab.twin.unnumbered_eq]
  | pathSystem _ => rfl
  | @list vs ws hlength hitems ih =>
    have hsame : List.Forall₂ (fun v w => v.content = w.content) vs ws :=
      List.forall₂_iff_zip.2 ⟨hlength, ih⟩
    have hcontents : contents vs = contents ws := by
      clear hlength hitems ih
      induction hsame with
      | nil => rfl
      | cons hv _ ih => rw [contents, contents, hv, ih]
    simp only [content, hcontents]

end Value

theorem Correspondence.Outcomes.eq_of_exact {C : Correspondence} {r r' : Except Failure Value}
    (h : C.Outcomes r r') (hexact : C.exact) : r = r' := by
  cases r with
  | error failure =>
    cases r' with
    | error failure' => exact congrArg Except.error h
    | ok w => exact h.elim
  | ok v =>
    cases r' with
    | error failure => exact h.elim
    | ok w => exact congrArg Except.ok (Value.Corresponds.eq_of_exact h hexact)

theorem Correspondence.Outcomes.content_eq {C : Correspondence} {r r' : Except Failure Value}
    (h : C.Outcomes r r') : r.map Value.content = r'.map Value.content := by
  cases r with
  | error failure =>
    cases r' with
    | error failure' => exact congrArg Except.error h
    | ok w => exact h.elim
  | ok v =>
    cases r' with
    | error failure => exact h.elim
    | ok w => exact congrArg Except.ok (Value.Corresponds.content_eq h)

end PathQuery

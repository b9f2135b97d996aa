import PathQuery.Proofs.Automaton.Built
import PathQuery.Proofs.Evaluation.Queries

/-!
# How evaluations behave

One contract for all evaluations: in which state they leave the workspace and what they do not touch
in it, to which nodes their values refer, and how they can fail at all.

* `Automaton.Fits`, `Value.Fits`: automata and values that refer to nodes of a region only, and are
  well-formed if so much is asked;
* `Bindings.above`: bindings with edges on top of them, as guards leave them when they are
  abandoned;
* `Conduct`: what is asked of the evaluations in a scope, and of which nodes they may change
  something;
* `Workspace.Held`, `Workspace.Broken`: the workspace between evaluations, and after a failure;
* `Eval.Behaves`: the contract;
* `Behaves.bind`, `Behaves.fresh` and so on: one rule for each way to build an evaluation.
-/

namespace PathQuery

/-! ## Automata and values -/

/-- What the automaton refers to lies in the region; if `sound` holds, it is well-formed, too. -/
structure Automaton.Fits (sound : Prop) (region : NodeId → Prop) (a : Automaton) : Prop where
  symbols {t : Transition} : t ∈ a.transitions → t.symbol.Within region
  wellFormed : sound → a.WellFormed

namespace Automaton.Fits

variable {sound : Prop} {region region' : NodeId → Prop} {a b : Automaton}

theorem mono (h : a.Fits sound region) (hsub : ∀ n, region n → region' n) :
    a.Fits sound region' :=
  ⟨fun ht => (h.symbols ht).mono hsub, h.wellFormed⟩

theorem copy (h : a.Fits sound region) (register : Bool) (n : Nat) :
    (a.copy register n).1.Fits sound region :=
  ⟨((Twin.refl h.symbols).copy register n n).symbols,
    fun hsound => (copy_shape (h.wellFormed hsound) register n).wellFormed⟩

theorem epsilon (n : Nat) : (Automaton.epsilon n).1.Fits sound region :=
  ⟨(Twin.epsilon n n).symbols, fun _ => (epsilon_shape n).wellFormed⟩

theorem single {symbol : Symbol} (h : symbol.Within region) (n : Nat) :
    (Automaton.single symbol n).1.Fits sound region :=
  ⟨(Twin.single h n n).symbols, fun _ => (single_shape symbol n).wellFormed⟩

theorem concat (ha : a.Fits sound region) (hb : b.Fits sound region) :
    (a.concat b).Fits sound region :=
  ⟨((Twin.refl ha.symbols).concat trivial (Twin.refl hb.symbols)).symbols,
    fun hsound => (concat_shape (ha.wellFormed hsound) (hb.wellFormed hsound)).wellFormed⟩

theorem union (ha : a.Fits sound region) (hb : b.Fits sound region) (n : Nat) :
    (a.union b n).1.Fits sound region :=
  ⟨((Twin.refl ha.symbols).union trivial (Twin.refl hb.symbols) n n).symbols,
    fun hsound => (union_shape (ha.wellFormed hsound) (hb.wellFormed hsound) n).wellFormed⟩

theorem iterate (h : a.Fits sound region) (allowEmpty : Bool) (n : Nat) :
    (a.iterate allowEmpty n).1.Fits sound region :=
  ⟨((Twin.refl h.symbols).iterate trivial allowEmpty n n).symbols,
    fun hsound => (iterate_shape (h.wellFormed hsound) allowEmpty n).wellFormed⟩

theorem optional (h : a.Fits sound region) (n : Nat) : (a.optional n).1.Fits sound region :=
  ⟨((Twin.refl h.symbols).optional trivial n n).symbols,
    fun hsound => (optional_shape (h.wellFormed hsound) n).wellFormed⟩

theorem power (h : a.Fits sound region) (count n : Nat) :
    (a.power count n).1.Fits sound region :=
  ⟨((Twin.refl h.symbols).power trivial count n n).symbols,
    fun hsound => power_wellFormed (h.wellFormed hsound) count n⟩

theorem reverse (h : a.Fits sound region) (n : Nat) : (a.reverse n).1.Fits sound region :=
  ⟨((Twin.refl h.symbols).reverse Symbol.Within.reversed trivial n n).symbols,
    fun hsound => reverse_wellFormed (h.wellFormed hsound) n⟩

theorem kept (sound : Prop) (region : NodeId → Prop) : Automaton.Kept (Fits sound region) where
  epsilon := epsilon
  copy h := h.copy true
  concat := concat
  union := union
  iterate allowEmpty h := h.iterate allowEmpty
  optional := optional
  power count h := h.power count
  reverse := reverse

end Automaton.Fits

structure Value.Fits (sound : Prop) (region : NodeId → Prop) (v : Value) : Prop where
  within : v.Within region
  wellFormed {h : Nat} {a : Automaton} : v = .automaton h a → sound → a.WellFormed

namespace Value.Fits

variable {sound : Prop} {region region' : NodeId → Prop} {v : Value}

theorem mono (h : v.Fits sound region) (hsub : ∀ n, region n → region' n) :
    v.Fits sound region' :=
  ⟨h.within.mono hsub, h.wellFormed⟩

theorem simple (h : v.IsSimple) : v.Fits sound region := by
  refine ⟨.simple h, ?_⟩
  rintro handle a rfl
  exact absurd h (not_isSimple_automaton handle a)

theorem of_automaton {a : Automaton} (ha : a.Fits sound region) (h : Nat) :
    (automaton h a).Fits sound region := by
  refine ⟨.automaton ha.symbols, ?_⟩
  rintro _ _ ⟨⟩
  exact ha.wellFormed

theorem pathSystem (h : Nat) (ps : PathSystem) : (Value.pathSystem h ps).Fits sound region :=
  ⟨.pathSystem, nofun⟩

theorem toAutomaton (hv : v.Fits sound region) {context : String} {a : Automaton}
    (h : v.toAutomaton context = .ok a) : a.Fits sound region := by
  cases v with
  | automaton handle b =>
    cases h
    rcases hv with ⟨hwithin, hwellFormed⟩
    refine ⟨?_, hwellFormed rfl⟩
    cases hwithin with
    | simple hsimple => exact absurd hsimple (not_isSimple_automaton _ _)
    | automaton hsymbols => exact hsymbols
  | _ => cases h

/-- Where nothing is asked, everything fits. -/
theorem univ (v : Value) : v.Fits False fun _ => True :=
  ⟨v.within_univ, fun _ => False.elim⟩

end Value.Fits

/-! ## Bindings -/

namespace Bindings

/-- The bindings with edges bound on top of them, the innermost one first. -/
def above (β : Bindings) (edges : List (String × Incidence)) : Bindings :=
  ⟨edges.map (fun x => (x.1, .edge x.2)) ++ β.frames⟩

variable (β : Bindings)

@[simp] theorem above_nil : β.above [] = β :=
  rfl

theorem above_push (x : String) (e : Incidence) (edges : List (String × Incidence)) :
    (β.push x (.edge e)).above edges = β.above (edges ++ [(x, e)]) := by
  simp [above, push]

theorem above_above (inner outer : List (String × Incidence)) :
    (β.above outer).above inner = β.above (inner ++ outer) := by
  simp [above]

end Bindings

/-! ## The contract -/

/-- To which nodes the evaluations in a scope refer, and how they fail. -/
structure Conduct (scope : Scope) where
  /-- Nodes to which values from outside refer. -/
  outside : NodeId → Prop
  /-- The value of the first node may refer to the second one. -/
  reaches : NodeId → NodeId → Prop
  /-- The rule of the first node may ask for the second one. -/
  asks : NodeId → NodeId → Prop
  /-- Automata are well-formed. -/
  sound : Prop
  /-- The evaluation of a node may fail in this way. -/
  admits : NodeId → Failure → Prop
  /-- The nodes that are evaluated.  What is known about others does not change. -/
  owns : NodeId → Prop := fun _ => True
  /-- What is known about the others. -/
  initially : NodeId → Memo := fun _ => .uninitialized
  reaches_of_outside {n p : NodeId} : outside p → reaches n p
  reaches_of_asks {n c : NodeId} : asks n c → reaches n c
  asks_child {n c : NodeId} : owns n → c ∈ scope.nodes.childrenOf n → asks n c
  owns_of_asks {n c : NodeId} : asks n c → owns c := by intros; trivial
  asks_of_reaches {n c p : NodeId} : asks n c → reaches c p → asks n p
  admits_of_asks {n c : NodeId} {failure : Failure} : asks n c → admits c failure →
    admits n failure
  admits_cyclic {n : NodeId} : asks n n → admits n (.error (.cyclicEvaluation n))
  admits_error {n : NodeId} {e : EvalError} : (∀ m, e ≠ .cyclicEvaluation m) →
    admits n (.error e)
  /-- A traversal is abandoned when the initial state of its automaton is missing. -/
  admits_panic {n : NodeId} {message : Option String} : ¬ sound → admits n (.panic message)
  literal {n : NodeId} {v : Value} : owns n → scope.nodes.get n = .ok (.literal v) →
    v.Fits sound (reaches n)
  shared {n : NodeId} {x : String} {v : Value} : owns n → scope.nodes.get n = .ok (.var x) →
    scope.shared.bind (·.get x) = some v → v.Fits sound outside
  call {n : NodeId} {k : Nat} {name : String} {args : List Value} {v : Value} :
    (∀ arg ∈ args, arg.Fits sound (reaches n)) → scope.functions.call k name args = .ok v →
      v.Fits sound (reaches n)
  admits_call {n : NodeId} {k : Nat} {name : String} {args : List Value} {failure : Failure} :
    scope.functions.call k name args = .error failure → admits n failure

variable {scope : Scope} {K : Conduct scope} {busy : NodeId → Prop} {β : Bindings} {id : NodeId}

theorem Conduct.asks_trans (K : Conduct scope) {n c p : NodeId} (hn : K.asks n c)
    (hc : K.asks c p) : K.asks n p :=
  K.asks_of_reaches hn (K.reaches_of_asks hc)

theorem Conduct.owns_of_below (K : Conduct scope) {n c : NodeId} (hn : K.owns n)
    (hbelow : scope.nodes.Below n c) : K.owns c := by
  induction hbelow with
  | refl => exact hn
  | tail _ hchild ih => exact K.owns_of_asks (K.asks_child ih hchild)

namespace Workspace

/-- The variables are these, exactly the busy nodes are being computed, and what is known refers to
what it may refer to. -/
structure Held (K : Conduct scope) (busy : NodeId → Prop) (β : Bindings) (w : Workspace) :
    Prop where
  bindings_eq : w.bindings = β
  bound {frame : String × Value} : frame ∈ β.frames → frame.2.Fits K.sound K.outside
  busy_iff {n : NodeId} : w.cache.memo n = .inProgress ↔ busy n
  known {n : NodeId} {v : Value} : w.cache.memo n = .done v → v.Fits K.sound (K.reaches n)
  kept {n : NodeId} : ¬ K.owns n → w.cache.memo n = K.initially n := by
    exact fun h => absurd trivial h

/-- An error leaves the workspace as it should be.  A panic leaves entries in progress, and the
edges that guards have bound. -/
structure Broken (K : Conduct scope) (busy : NodeId → Prop) (β : Bindings) (id : NodeId)
    (failure : Failure) (w : Workspace) : Prop where
  admitted : K.admits id failure
  held {e : EvalError} : failure = .error e → w.Held K busy β
  above : ∃ edges, w.bindings = β.above edges

namespace Held

variable {w : Workspace}

theorem broken (h : w.Held K busy β) {failure : Failure} (hadmits : K.admits id failure) :
    w.Broken K busy β id failure :=
  ⟨hadmits, fun _ => h, [], h.bindings_eq⟩

theorem counters (h : w.Held K busy β) (supply : Supply) :
    Held K busy β { w with supply } :=
  ⟨h.bindings_eq, h.bound, h.busy_iff, h.known, h.kept⟩

/-- The memo of one node has changed. -/
theorem change (h : w.Held K busy β) (howns : K.owns id) {busy' : NodeId → Prop} {cache : Cache}
    {memo : Memo} (hcache : ∀ n, cache.memo n = if n = id then memo else w.cache.memo n)
    (hid : memo = .inProgress ↔ busy' id) (hothers : ∀ n, n ≠ id → (busy' n ↔ busy n))
    (hvalue : ∀ v, memo = .done v → v.Fits K.sound (K.reaches id)) :
    Held K busy' β { w with cache } := by
  refine ⟨h.bindings_eq, h.bound, ?_, ?_, ?_⟩
  · intro n
    rw [hcache]
    split
    · rename_i heq
      rw [heq]
      exact hid
    · rename_i hne
      exact h.busy_iff.trans (hothers n hne).symm
  · intro n v hdone
    rw [hcache] at hdone
    split at hdone
    · rename_i heq
      rw [heq]
      exact hvalue v hdone
    · exact h.known hdone
  · intro n hn
    have hne : n ≠ id := fun heq => hn (heq ▸ howns)
    rw [hcache, if_neg hne]
    exact h.kept hn

theorem extend (h : w.Held K busy β) (id : NodeId) :
    Held K busy β { w with cache := w.cache.extend id } := by
  refine ⟨h.bindings_eq, h.bound, ?_, ?_, ?_⟩
  · intro n
    rw [Cache.memo_extend]
    exact h.busy_iff
  · intro n v hdone
    rw [Cache.memo_extend] at hdone
    exact h.known hdone
  · intro n hn
    rw [Cache.memo_extend]
    exact h.kept hn

/-- A guard forgets values, but no entry that is in progress. -/
theorem entered (h : w.Held K busy β) {predicate : NodeId} (howns : K.owns predicate) (x : String)
    (e : Incidence) : (w.entered scope.nodes predicate x e).Held K busy (β.push x (.edge e)) := by
  refine ⟨?_, ?_, ?_, ?_, ?_⟩
  · rw [← h.bindings_eq]
    rfl
  · intro frame hframe
    rcases List.mem_cons.1 hframe with rfl | hframe
    · exact .simple (.edge e)
    · exact h.bound hframe
  · intro n
    exact (w.cache.memo_resetFrom_eq_inProgress).trans h.busy_iff
  · intro n v hdone
    simp only [Workspace.entered, Cache.resetFrom, Cache.memo_forgetAll] at hdone
    split at hdone
    · cases hdone
    · exact h.known hdone
  · intro n hn
    -- What lies below the condition is evaluated with it.
    have hbelow : ¬ scope.nodes.Below predicate n := fun hbelow => hn (K.owns_of_below howns hbelow)
    exact (w.cache.memo_resetFrom_of_not_below hbelow).trans (h.kept hn)

/-- On the way out it takes back what it has bound. -/
theorem left {x : String} {e : Incidence} (h : w.Held K busy (β.push x (.edge e))) :
    w.left.Held K busy β := by
  refine ⟨?_, fun hframe => h.bound (List.mem_cons_of_mem _ hframe), h.busy_iff, h.known, h.kept⟩
  rw [Workspace.left, h.bindings_eq]
  rfl

theorem bound_get (h : w.Held K busy β) {x : String} {v : Value} (hx : β.get x = some v) :
    v.Fits K.sound K.outside := by
  rcases List.lookup_eq_some_iff.1 hx with ⟨before, after, hframes, _⟩
  have hframe : (x, v) ∈ β.frames := hframes ▸ List.mem_append_right _ List.mem_cons_self
  exact h.bound hframe

end Held

end Workspace

namespace Eval

/-- Under whatever bindings the evaluation starts. -/
def Behaves {α : Type} (K : Conduct scope) (busy : NodeId → Prop) (id : NodeId)
    (right : α → Prop) (x : Eval α) : Prop :=
  ∀ (β : Bindings) (w : Workspace), w.Held K busy β →
    x.Ensures w (fun r w' => w'.Held K busy β ∧ right r)
      fun failure w' => w'.Broken K busy β id failure

namespace Behaves

variable {α γ : Type} {right : α → Prop} {right' : γ → Prop}

theorem pure {r : α} (h : right r) : Behaves K busy id right (Pure.pure r) :=
  fun _ _ hw => Ensures.pure ⟨hw, h⟩

theorem bind {x : Eval α} {f : α → Eval γ} (hx : Behaves K busy id right x)
    (hf : ∀ r, right r → Behaves K busy id right' (f r)) : Behaves K busy id right' (x >>= f) :=
  fun β w hw => (hx β w hw).bind fun r w' hr => hf r hr.2 β w' hr.1

theorem mono {x : Eval α} {right' : α → Prop} (hx : Behaves K busy id right x)
    (h : ∀ r, right r → right' r) : Behaves K busy id right' x :=
  fun β w hw => (hx β w hw).mono (fun r _ hr => ⟨hr.1, h r hr.2⟩) fun _ _ hfailure => hfailure

/-- The evaluation of a node that another one asks for. -/
theorem asked {c : NodeId} {x : Eval α} (hc : K.asks id c) (hx : Behaves K busy c right x) :
    Behaves K busy id right x :=
  fun β w hw => (hx β w hw).mono (fun _ _ hr => hr) fun _ _ hfailure =>
    ⟨K.admits_of_asks hc hfailure.admitted, hfailure.held, hfailure.above⟩

theorem throw {failure : Failure} (h : K.admits id failure) :
    Behaves K busy id right (throwThe Failure failure) :=
  fun _ _ hw => hw.broken h

/-- No operation of the language takes a node for cyclic; the cache alone does. -/
theorem fail {e : EvalError} (h : ∀ m, e ≠ .cyclicEvaluation m) :
    Behaves K busy id right (Eval.fail e) :=
  throw (K.admits_error h)

theorem fresh {x : Fresh α} (h : ∀ n, right (x n).1) : Behaves K busy id right (Eval.fresh x) :=
  fun _ _ hw => Ensures.fresh ⟨hw.counters _, h _⟩

theorem freshHandle : Behaves K busy id (fun _ => True) Eval.freshHandle :=
  fun _ _ hw => ⟨hw.counters _, trivial⟩

theorem callNumber : Behaves K busy id (fun _ => True) Eval.callNumber :=
  fun _ _ hw => ⟨hw.counters _, trivial⟩

/-- As a relation that the rules respect; of the second side nothing is said. -/
def lifting (K : Conduct scope) (busy : NodeId → Prop) (id : NodeId) :
    PartialLifting (ExceptT Failure (StateM Workspace)) (ExceptT Failure (StateM Workspace)) where
  rel r x _ := Behaves K busy id (fun a => ∃ b, r a b) x
  throws := K.admits id
  pure hab := pure ⟨_, hab⟩
  throw _ _ := throw
  bind hx hf := hx.bind fun a ha => ha.elim (hf a)

/-- Traversals throw what their conduct admits. -/
theorem allows {a : Automaton} {region : NodeId → Prop} (ha : a.Fits K.sound region) :
    (lifting K busy id).simulation.Allows a where
  limit _ := K.admits_error nofun
  missing {fault} hfault := by
    refine K.admits_panic fun hsound => ?_
    have hinitial := (ha.wellFormed hsound).initial_lt
    rw [Automaton.missing, if_pos hinitial] at hfault
    cases hfault

end Behaves

end Eval

end PathQuery

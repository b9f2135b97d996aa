import PathQuery.Proofs.Evaluation.Agreement
import PathQuery.Proofs.Evaluation.Journal
import PathQuery.Proofs.Evaluation.Transparent

/-!
# Rules are started once

A guard that binds the edge has everything below its condition forgotten, whatever else depends on
it.  Nothing else is ever forgotten, so all other rules are started once.

* `SyntaxGraph.Declares`: the guards of automata that were made from a syntax graph;
* `Scope.Declared`: all automata at hand were made from it;
* `Journal.Tracks`: what the journal says about the workspace;
* `Tracks.start`, `Tracks.finish`, `Tracks.enter`, `Tracks.leave`: the steps that change both;
* `recording`: evaluations with a journal end like those without, and the journal stays right;
* `resultWithin_records`: so it is for all nodes, at any depth;
* `evaluated_once`: what the journal of a whole run says.
-/

namespace PathQuery

/-! ## Automata made from a syntax graph -/

/-- A guard that binds a variable is one of the graph. -/
def SyntaxGraph.Declares (nodes : SyntaxGraph) (guard : Guard) : Prop :=
  ∀ x, guard.thisEdge = some x → ∃ holder, nodes.Binds holder guard.predicate x

theorem SyntaxGraph.declares_of_get {nodes : SyntaxGraph} {id : NodeId} {node : Node}
    {guard : Guard} (hget : nodes.get id = .ok node) (hguard : node.guard = some guard) :
    nodes.Declares guard := by
  rcases guard with ⟨predicate, binding⟩
  rintro x rfl
  exact ⟨id, node, hget, hguard⟩

inductive Value.GuardedBy (admits : Guard → Prop) : Value → Prop where
  | simple {v : Value} : v.IsSimple → GuardedBy admits v
  | automaton {h : Nat} {a : Automaton} : a.GuardedBy admits → GuardedBy admits (.automaton h a)
  | pathSystem (h : Nat) (ps : PathSystem) : GuardedBy admits (.pathSystem h ps)
  | list {items : List Value} : (∀ v ∈ items, GuardedBy admits v) → GuardedBy admits (.list items)

theorem Value.GuardedBy.of_automaton {admits : Guard → Prop} {h : Nat} {a : Automaton}
    (ha : (Value.automaton h a).GuardedBy admits) : a.GuardedBy admits := by
  cases ha with
  | simple hsimple => cases hsimple.handle_eq
  | automaton ha => exact ha

/-- The functions make no automata with other guards. -/
def FunctionLibrary.GuardedBy (admits : Guard → Prop) (functions : FunctionLibrary) : Prop :=
  ∀ (n : Nat) (name : String) (args : List Value) (v : Value),
    (∀ arg ∈ args, arg.GuardedBy admits) → functions.call n name args = .ok v → v.GuardedBy admits

theorem FunctionLibrary.guardedBy_builtin (admits : Guard → Prop) : builtin.GuardedBy admits := by
  intro n name args v _ hcall
  simp only [builtin] at hcall
  split at hcall
  · rename_i hvalue
    cases hcall
    exact .simple (Builtin.isSimple_of_call hvalue)
  · cases hcall

/-- Whatever automata an evaluation can meet without making them were made from its graph. -/
structure Scope.Declared (scope : Scope) (bindings : Bindings) : Prop where
  literal {n : NodeId} {v : Value} : scope.nodes.get n = .ok (.literal v) →
    v.GuardedBy scope.nodes.Declares
  bound {x : String} {v : Value} : (x, v) ∈ bindings.frames → v.GuardedBy scope.nodes.Declares
  shared {env : SharedEnvironment} {x : String} {v : Value} : scope.shared = some env →
    env.get x = some v → v.GuardedBy scope.nodes.Declares
  functions : scope.functions.GuardedBy scope.nodes.Declares

/-! ## Journals and workspaces -/

namespace Journal

/-- The journal tells what is known and how often rules were started; the listed nodes are being
computed. -/
structure Tracks (scope : Scope) (busy : List NodeId) (w : Workspace) (journal : Journal) :
    Prop where
  busy_iff (n : NodeId) : w.cache.memo n = .inProgress ↔ n ∈ busy
  done_iff (n : NodeId) : (∃ v, w.cache.memo n = .done v) ↔ Current scope.nodes n journal
  evaluations_eq (n : NodeId) :
    w.cache.evaluations n = journal.count (.evaluated n) + busy.count n
  thrifty : Thrifty scope.nodes journal
  bindings_of_reset {root : NodeId} : .reset root ∈ journal →
    ∃ holder x, scope.nodes.Binds holder root x
  known {n : NodeId} {v : Value} : w.cache.memo n = .done v →
    (∃ node, scope.nodes.get n = .ok node) ∧ v.GuardedBy scope.nodes.Declares
  bound {x : String} {v : Value} : (x, v) ∈ w.bindings.frames → v.GuardedBy scope.nodes.Declares

namespace Tracks

variable {scope : Scope} {busy : List NodeId} {w : Workspace} {journal : Journal} {id : NodeId}

theorem initial {bindings : Bindings} (h : scope.Declared bindings) (supply : Supply) :
    Tracks scope [] { bindings, supply } [] where
  busy_iff n := by simp [Cache.memo_empty]
  done_iff n := by simp [Cache.memo_empty, Current]
  evaluations_eq n := rfl
  thrifty := trivial
  bindings_of_reset hroot := by cases hroot
  known hv := by cases hv
  bound := h.bound

variable (h : Tracks scope busy w journal)
include h

theorem withSupply (supply : Supply) : Tracks scope busy { w with supply } journal :=
  ⟨h.busy_iff, h.done_iff, h.evaluations_eq, h.thrifty, h.bindings_of_reset, h.known, h.bound⟩

theorem extend (id : NodeId) :
    Tracks scope busy { w with cache := w.cache.extend id } journal where
  busy_iff n := by simpa using h.busy_iff n
  done_iff n := by simpa using h.done_iff n
  evaluations_eq n := by simpa using h.evaluations_eq n
  thrifty := h.thrifty
  bindings_of_reset := h.bindings_of_reset
  known hv := h.known (by simpa using hv)
  bound := h.bound

theorem start (hmemo : w.cache.memo id = .uninitialized) :
    Tracks scope (id :: busy) { w with cache := w.cache.start id } journal where
  busy_iff n := by
    rw [Cache.memo_start, List.mem_cons, ← h.busy_iff n]
    split
    · rename_i hn
      exact iff_of_true rfl (.inl hn)
    · rename_i hn
      exact (or_iff_right hn).symm
  done_iff n := by
    rw [← h.done_iff n, Cache.memo_start]
    split
    · rename_i hn
      simp [hn, hmemo]
    · rfl
  evaluations_eq n := by
    rw [Cache.evaluations_start, h.evaluations_eq n, List.count_cons, Nat.add_assoc]
    simp only [beq_iff_eq, @eq_comm _ n id]
  thrifty := h.thrifty
  bindings_of_reset := h.bindings_of_reset
  known {n v} hv := by
    rw [Cache.memo_start] at hv
    split at hv
    · cases hv
    · exact h.known hv
  bound := h.bound

theorem enter {holder predicate : NodeId} {x : String}
    (hbinds : scope.nodes.Binds holder predicate x) (e : Incidence) :
    Tracks scope busy (w.entered scope.nodes predicate x e) (.reset predicate :: journal) where
  -- A reset leaves alone what is being computed, and so does the note of it.
  busy_iff n := (Cache.memo_resetFrom_eq_inProgress w.cache).trans (h.busy_iff n)
  done_iff n := by
    by_cases hbelow : scope.nodes.Below predicate n
    · refine iff_of_false ?_ fun hcurrent => hcurrent.1 hbelow
      rintro ⟨v, hv⟩
      exact w.cache.memo_resetFrom_of_below hbelow v hv
    · have hmemo := w.cache.memo_resetFrom_of_not_below hbelow
      simp only [Workspace.entered, hmemo, h.done_iff n, Current, hbelow, not_false_eq_true,
        true_and]
  evaluations_eq n := by
    rw [List.count_cons_of_ne Note.noConfusion]
    exact (w.cache.evaluations_resetFrom scope.nodes predicate n).trans (h.evaluations_eq n)
  thrifty := h.thrifty
  bindings_of_reset hroot := by
    rcases List.mem_cons.1 hroot with heq | hroot
    · cases heq
      exact ⟨holder, x, hbinds⟩
    · exact h.bindings_of_reset hroot
  known {n v} hv := by
    have hbelow : ¬ scope.nodes.Below predicate n :=
      fun hbelow => w.cache.memo_resetFrom_of_below hbelow v hv
    exact h.known ((w.cache.memo_resetFrom_of_not_below hbelow).symm.trans hv)
  bound hv := by
    rcases List.mem_cons.1 hv with heq | hv
    · cases heq
      exact .simple (.edge e)
    · exact h.bound hv

theorem leave : Tracks scope busy w.left journal :=
  ⟨h.busy_iff, h.done_iff, h.evaluations_eq, h.thrifty, h.bindings_of_reset, h.known,
    fun hv => h.bound (List.mem_of_mem_tail hv)⟩

end Tracks

/-- The value of a node is known from now on. -/
theorem Tracks.finish {scope : Scope} {busy : List NodeId} {w : Workspace} {journal : Journal}
    {id : NodeId} {node : Node} {v : Value} (h : Tracks scope (id :: busy) w journal)
    (hid : id ∉ busy) (hget : scope.nodes.get id = .ok node)
    (hv : v.GuardedBy scope.nodes.Declares) :
    Tracks scope busy { w with cache := w.cache.finish id v } (.evaluated id :: journal) where
  busy_iff n := by
    rw [Cache.memo_finish]
    split
    · rename_i hn
      exact iff_of_false nofun (hn ▸ hid)
    · rename_i hn
      rw [h.busy_iff n, List.mem_cons, or_iff_right hn]
  done_iff n := by
    rw [Cache.memo_finish]
    split
    · rename_i hn
      exact iff_of_true ⟨v, rfl⟩ (.inl hn.symm)
    · rename_i hn
      rw [h.done_iff n]
      exact (or_iff_right (Ne.symm hn)).symm
  -- The start of the rule was counted before it is noted: the node passes from the busy ones to the
  -- journal.
  evaluations_eq n := by
    rw [Cache.evaluations_finish, h.evaluations_eq n, List.count_cons, List.count_cons,
      Nat.add_right_comm, Nat.add_assoc]
    simp
  thrifty := by
    refine ⟨fun hcurrent => ?_, h.thrifty⟩
    -- The node is marked as long as it is computed, so its value is not known.
    rcases (h.done_iff id).2 hcurrent with ⟨u, hdone⟩
    have hbusy := (h.busy_iff id).2 List.mem_cons_self
    rw [hbusy] at hdone
    cases hdone
  bindings_of_reset hroot := by
    rcases List.mem_cons.1 hroot with heq | hroot
    · cases heq
    · exact h.bindings_of_reset hroot
  known {n u} hu := by
    rw [Cache.memo_finish] at hu
    split at hu
    · rename_i hn
      cases hu
      exact ⟨⟨node, hn ▸ hget⟩, hv⟩
    · exact h.known hu
  bound := h.bound

end Journal

/-! ## Evaluations and their journals -/

section Records

variable (scope : Scope) (busy : List NodeId) {α γ : Type}

/-- How an evaluation ends with a journal, and how it does without.  After a failure the journal
need not be right: bindings can be left over, and nodes that were abandoned stay marked. -/
inductive Recorded (r : α → α → Prop) :
    Except Failure α × Workspace × Journal → Except Failure α × Workspace → Prop where
  | ok {a b : α} {w : Workspace} {journal : Journal} : r a b → journal.Tracks scope busy w →
    Recorded r (.ok a, w, journal) (.ok b, w)
  | error (failure : Failure) (w : Workspace) (journal : Journal) :
    Recorded r (.error failure, w, journal) (.error failure, w)

def Records (r : α → α → Prop) (x : Journaled α) (y : Eval α) : Prop :=
  ∀ w journal, Journal.Tracks scope busy w journal → Recorded scope busy r (x (w, journal)) (y w)

namespace Records

variable {scope busy} {r : α → α → Prop} {s : γ → γ → Prop} {x : Journaled α} {y : Eval α}

theorem pure {a b : α} (h : r a b) : Records scope busy r (Pure.pure a) (Pure.pure b) :=
  fun _ _ hw => .ok h hw

theorem throw (r : α → α → Prop) (failure : Failure) :
    Records scope busy r (throwThe Failure failure) (throwThe Failure failure) :=
  fun w journal _ => .error failure w journal

theorem bind {f : α → Journaled γ} {k : α → Eval γ} (hxy : Records scope busy r x y)
    (h : ∀ a b, r a b → Records scope busy s (f a) (k b)) :
    Records scope busy s (x >>= f) (y >>= k) := by
  intro w journal hw
  have hends := hxy w journal hw
  rw [bind_apply, bind_apply]
  generalize x (w, journal) = o at hends ⊢
  generalize y w = o' at hends ⊢
  cases hends with
  | ok hab hw => exact h _ _ hab _ _ hw
  | error failure w journal => exact .error failure w journal

/-- An evaluation that changes neither what is known nor what is bound. -/
theorem lift (h : ∀ w journal, Journal.Tracks scope busy w journal → ∀ b w', y w = (.ok b, w') →
    r b b ∧ ∃ supply, w' = { w with supply }) : Records scope busy r (Journaled.lift y) y := by
  intro w journal hw
  rw [Journaled.lift]
  rcases hy : y w with ⟨failure | b, w'⟩
  · exact .error failure w' journal
  · rcases h w journal hw b w' hy with ⟨hb, supply, rfl⟩
    exact .ok hb (hw.withSupply supply)

end Records

def recording :
    Lifting (ExceptT Failure (StateM (Workspace × Journal)))
      (ExceptT Failure (StateM Workspace)) where
  rel := Records scope busy
  pure := .pure
  throw := .throw
  bind := .bind

end Records

namespace Evaluation

/-- One value, whose automata were made from the syntax graph. -/
def declared (nodes : SyntaxGraph) : Likeness where
  alike := Both (Value.GuardedBy nodes.Declares)
  admits := nodes.Declares
  canonical_eq h := congrArg Value.canonical h.1
  simple hv := ⟨rfl, .simple hv⟩
  automaton _ _ ha := ⟨rfl, .automaton ha⟩
  pathSystem h ps := ⟨rfl, .pathSystem h ps⟩
  guardedBy h := h.2.of_automaton

variable {scope : Scope} {bindings : Bindings} {busy : List NodeId}
  {children : NodeId → Journaled Value} {children' : NodeId → Eval Value}

theorem guard_records
    (hchildren : ∀ c, Records scope busy (declared scope.nodes).alike (children c) (children' c))
    {guard : Guard} (hguard : scope.nodes.Declares guard) (e : Incidence) :
    Records scope busy Eq (Journaled.guard scope children guard e)
      (evaluateGuard scope children' guard e) := by
  rcases guard with ⟨predicate, _ | x⟩
  · refine (hchildren predicate).bind ?_
    rintro v _ ⟨rfl, -⟩
    exact .pure rfl
  · intro w journal hw
    -- Only here is anything reset, so the guard has to be one of the graph.
    rcases hguard x rfl with ⟨holder, hbinds⟩
    have hends := hchildren predicate _ _ (hw.enter hbinds e)
    rw [Journaled.guard_apply, evaluateGuard_apply]
    generalize children predicate (w.entered scope.nodes predicate x e, .reset predicate :: journal)
      = o at hends ⊢
    generalize children' predicate (w.entered scope.nodes predicate x e) = o' at hends ⊢
    cases hends with
    | ok hv hw =>
      obtain ⟨rfl, -⟩ := hv
      exact .ok rfl hw.leave
    | error failure w journal => cases failure <;> exact .error _ _ _

theorem readVariable_records (h : scope.Declared bindings) (name : String) :
    Records scope busy (declared scope.nodes).alike (Journaled.lift (readVariable scope name))
      (readVariable scope name) := by
  refine .lift fun w journal hw v w' hy => ?_
  have hread : (Eval.ofExcept (lookup scope w.bindings name) : Eval Value) w = (.ok v, w') := hy
  unfold lookup at hread
  split at hread
  · rename_i hget
    cases hread
    obtain ⟨before, after, hframes, -⟩ := List.lookup_eq_some_iff.1 hget
    refine ⟨⟨rfl, hw.bound (x := name) ?_⟩, _, rfl⟩
    rw [hframes]
    exact List.mem_append_right before List.mem_cons_self
  · split at hread
    · rename_i hget
      cases hread
      obtain ⟨env, henv, hvalue⟩ := Option.bind_eq_some_iff.1 hget
      exact ⟨⟨rfl, h.shared henv hvalue⟩, _, rfl⟩
    · cases hread

theorem callFunction_records (h : scope.Declared bindings) (function : String) {args : List Value}
    (hargs : ∀ arg ∈ args, arg.GuardedBy scope.nodes.Declares) :
    Records scope busy (declared scope.nodes).alike
      (Journaled.lift (callFunction scope function args)) (callFunction scope function args) := by
  refine .lift fun w journal hw v w' hy => ?_
  rw [callFunction_apply] at hy
  obtain ⟨hcall, rfl⟩ := Prod.ext_iff.1 hy
  exact ⟨⟨rfl, h.functions _ function args v hargs hcall⟩, _, rfl⟩

theorem host_records (h : scope.Declared bindings)
    (hchildren : ∀ c, Records scope busy (declared scope.nodes).alike (children c) (children' c)) :
    Host.Agrees (recording scope busy) (declared scope.nodes) (Journaled.host scope children)
      (host scope children') where
  result := hchildren
  guard e hguard := guard_records hchildren hguard e
  lookup name := readVariable_records h name
  call function args args' hargs := by
    obtain ⟨rfl, hdeclared⟩ := eq_of_forall₂_both hargs
    exact callFunction_records h function hdeclared
  fresh {x p} hp := by
    refine Records.lift (y := Eval.fresh x) ?_
    rintro w journal _ _ _ ⟨⟩
    exact ⟨⟨rfl, hp _⟩, _, rfl⟩
  handle := by
    refine Records.lift (y := Eval.freshHandle) ?_
    rintro w journal _ _ _ ⟨⟩
    exact ⟨rfl, _, rfl⟩

/-- The rule is run with the node itself among the busy ones. -/
theorem compute_records (h : scope.Declared bindings) {id : NodeId} {node : Node}
    (hget : scope.nodes.get id = .ok node) (hid : id ∉ busy)
    (hchildren : ∀ c, Records scope (id :: busy) (declared scope.nodes).alike (children c)
      (children' c))
    {w : Workspace} {journal : Journal} (hw : journal.Tracks scope (id :: busy) w) :
    Recorded scope busy (declared scope.nodes).alike
      (Journaled.compute scope children id node (w, journal))
      (compute scope children' id node w) := by
  have hrule := (host_records h hchildren).rule scope id
    (fun v hv => ⟨rfl, h.literal (hv ▸ hget)⟩)
    fun guard hguard => SyntaxGraph.declares_of_get hget hguard
  have hends := hrule w journal hw
  rw [host_rule] at hends
  rw [Journaled.compute_apply, compute_apply]
  generalize (Journaled.host scope children).rule scope id node (w, journal) = o at hends ⊢
  generalize rule scope children' id node w = o' at hends ⊢
  cases hends with
  | ok hv hw =>
    obtain ⟨rfl, hv⟩ := hv
    exact .ok ⟨rfl, hv⟩ (hw.finish hid hget hv)
  | error failure w journal => cases failure <;> exact .error _ _ _

theorem step_records (h : scope.Declared bindings)
    (hchildren : ∀ busy c, Records scope busy (declared scope.nodes).alike (children c)
      (children' c)) (id : NodeId) :
    Records scope busy (declared scope.nodes).alike (Journaled.step scope children id)
      (step scope children' id) := by
  intro w journal hw
  cases hget : scope.nodes.get id with
  | error e =>
    rw [Journaled.step_of_error hget, step_of_error hget]
    exact .error _ w journal
  | ok node =>
    rw [Journaled.step_apply hget, step_apply hget]
    cases hmemo : w.cache.memo id with
    | done v => exact .ok ⟨rfl, (hw.known hmemo).2⟩ (hw.extend id)
    | inProgress => exact .error _ _ journal
    | uninitialized =>
      have hid : id ∉ busy := by
        rw [← hw.busy_iff id, hmemo]
        nofun
      exact compute_records h hget hid (hchildren (id :: busy)) (hw.start hmemo)

theorem resultWithin_records (h : scope.Declared bindings) (depth : Nat) (id : NodeId) :
    Records scope busy (declared scope.nodes).alike (Journaled.resultWithin scope depth id)
      (resultWithin scope depth id) := by
  induction depth generalizing busy id with
  | zero => exact .throw _ .exhausted
  | succ depth ih => exact step_records h (fun busy c => ih c) id

/-! ## Runs -/

/-- A run that succeeds from an empty cache can be run with a journal to the same end.  The journal
lists every value that was computed and everything that was forgotten.  Nodes that lie below no
condition of a guard with a variable are evaluated once at most; a node is known if and only if it
was evaluated and has not been reset since; and what is known is answered from the cache, which does
not change. -/
theorem evaluated_once (hdeclared : scope.Declared bindings) {supply : Supply}
    {requests : List NodeId} {values : List Value} {w : Workspace}
    (hrun : requests.mapM (result scope) { bindings, supply } = (.ok values, w)) :
    ∃ journal : Journal,
      requests.mapM (Journaled.result scope) ({ bindings, supply }, []) =
        (.ok values, w, journal) ∧
      (∀ n, w.cache.evaluations n = journal.count (.evaluated n)) ∧
      (∀ n, (∀ holder predicate x, scope.nodes.Binds holder predicate x →
        ¬ scope.nodes.Below predicate n) → w.cache.evaluations n ≤ 1) ∧
      (∀ n, (∃ v, w.cache.memo n = .done v) ↔ journal.Current scope.nodes n) ∧
      ∀ n v, w.cache.memo n = .done v → result scope n w = (.ok v, w) := by
  have hrecords : Records scope [] (List.Forall₂ (declared scope.nodes).alike)
      (requests.mapM (Journaled.result scope)) (requests.mapM (result scope)) :=
    (recording scope []).toPartial.mapM fun id _ =>
      resultWithin_records hdeclared (scope.nodes.size + 1) id
  -- The requests are made one after the other, each where nothing is being computed.
  have hends := hrecords _ _ (.initial hdeclared supply)
  rw [hrun] at hends
  generalize hjournaled : requests.mapM (Journaled.result scope) ({ bindings, supply }, []) = o
    at hends
  cases hends with
  | @ok _ _ _ journal hvalues hw =>
    obtain ⟨rfl, -⟩ := eq_of_forall₂_both hvalues
    have hcount : ∀ n, w.cache.evaluations n = journal.count (.evaluated n) := hw.evaluations_eq
    refine ⟨journal, rfl, hcount, ?_, hw.done_iff, ?_⟩
    · intro n hn
      rw [hcount n]
      refine Journal.count_evaluated_le_one hw.thrifty fun root hroot => ?_
      obtain ⟨holder, x, hbinds⟩ := hw.bindings_of_reset hroot
      exact hn holder root x hbinds
    · intro n v hdone
      obtain ⟨⟨node, hget⟩, -⟩ := hw.known hdone
      refine (resultWithin_of_memo hget hdone).trans ?_
      rw [w.cache.extend_of_memo_eq_done hdone]

/-! ## Two roads, one of them closed -/

def forkedRoad : Graph :=
  let g := Graph.empty
  let g := (g.addVertex "Town" []).2
  let g := (g.addVertex "Town" []).2
  let g := (g.addEdge "road" 0 1 [("open", .bool true)]).2
  (g.addEdge "road" 0 1 [("open", .bool false)]).2

/-- The roads that are open, and where they lead. -/
def openForks : Scope where
  graph := forkedRoad
  nodes := ⟨#[some (.var "e"), some (.attr 0 "open"),
    some (.simplePath .outgoing [] [] (some ⟨1, some "e"⟩)), some (.literal (.vertex 0)),
    some (.forwardVertexSet 3 2)]⟩

theorem openForks_declared : openForks.Declared {} where
  literal {n v} hget := by
    have hliteral : v = .vertex 0 := by
      simpa [openForks] using SyntaxGraph.mem_of_get hget
    exact hliteral ▸ .simple (.vertex 0)
  bound hv := by cases hv
  shared henv := by cases henv
  functions := FunctionLibrary.guardedBy_builtin _

theorem openForks_binds {holder predicate : NodeId} {x : String}
    (h : openForks.nodes.Binds holder predicate x) : predicate = 1 := by
  rcases h with ⟨node, hget, hguard⟩
  match holder, hget with
  | 0, rfl => cases hguard
  | 1, rfl => cases hguard
  | 2, rfl =>
    cases hguard
    rfl
  | 3, rfl => cases hguard
  | 4, rfl => cases hguard

/-- The condition is evaluated for both roads, the question where they lead once. -/
theorem evaluated_once_openForks :
    openForks.Declared {} ∧
      ∃ w journal,
        [4, 4].mapM (result openForks) {} =
          (.ok [.vertexSet (.singleton 1), .vertexSet (.singleton 1)], w) ∧
        [4, 4].mapM (Journaled.result openForks) ({}, []) =
          (.ok [.vertexSet (.singleton 1), .vertexSet (.singleton 1)], w, journal) ∧
        w.cache.evaluations 1 = 2 ∧ w.cache.evaluations 4 ≤ 1 ∧
        result openForks 4 w = (.ok (.vertexSet (.singleton 1)), w) := by
  have htwice : (result openForks 4 {}).2.cache.evaluations 1 = 2 := by decide +kernel
  have hfirst : result openForks 4 {} =
      (.ok (.vertexSet (.singleton 1)), (result openForks 4 {}).2) :=
    Prod.ext (by decide +kernel) rfl
  generalize (result openForks 4 {}).2 = w at htwice hfirst
  -- The second request is answered from the cache, which stays as it is.
  obtain ⟨⟨node, hget⟩, hdone⟩ := memo_of_resultWithin hfirst
  have hagain : result openForks 4 w = (.ok (.vertexSet (.singleton 1)), w) := by
    refine (resultWithin_of_memo hget hdone).trans ?_
    rw [w.cache.extend_of_memo_eq_done hdone]
  have hrun : [4, 4].mapM (result openForks) {} =
      (.ok [.vertexSet (.singleton 1), .vertexSet (.singleton 1)], w) := by
    simp only [List.mapM_cons, List.mapM_nil, bind_apply, hfirst, hagain]
    rfl
  rcases evaluated_once openForks_declared hrun with
    ⟨journal, hjournaled, -, honce, -, hknown⟩
  refine ⟨openForks_declared, w, journal, hrun, hjournaled, htwice, honce 4 ?_, hknown 4 _ hdone⟩
  intro holder predicate x hbinds hbelow
  obtain rfl := openForks_binds hbinds
  have hmem := Cache.mem_below_iff.2 hbelow
  have hone : Cache.below openForks.nodes 1 = [0, 1] := by decide +kernel
  rw [hone] at hmem
  exact absurd hmem (by decide)

end Evaluation
end PathQuery

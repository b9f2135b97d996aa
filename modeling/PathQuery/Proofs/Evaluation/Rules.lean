import PathQuery.Proofs.Evaluation.Follows
import PathQuery.Proofs.Path.Twin
import PathQuery.Proofs.Syntax.Dependence

/-!
# Rules do the same with the same answers

Two evaluations of a rule are compared: one with whatever evaluates the children, and one with fixed
answers for them.

* `answering`: answers that depend on nothing but the bindings;
* `Answers`: what is known of the children;
* `accepts_follows`: then transitions take the same edges;
* `rule_finishes`: and the rule ends in the same way.
-/

namespace PathQuery
namespace Evaluation

open Eval

/-- The answers to all nodes under all bindings. -/
abbrev Answering := NodeId → Bindings → Except Failure Value

def answering (ρ : Answering) (id : NodeId) : Eval Value :=
  fun w => (ρ id w.bindings, w)

/-- An answer leaves the workspace alone, so more can be asked of it. -/
theorem answering_right {T : Terms} {R : Owners → Value → Value → Prop} {o : Owners}
    {x : Eval Value} {ρ : Answering} {id : NodeId} (h : Follows T R o x (answering ρ id))
    {right : Workspace → Prop} (hright : ∀ w, right w → T.right w) :
    Follows { T with right } R o x (answering ρ id) := by
  intro o' w w' ho hleft hw'
  have hx := h o' w w' ho hleft (hright w' hw')
  simp only [answering] at hx ⊢
  cases hρ : ρ id w'.bindings with
  | error failure =>
    rw [hρ] at hx
    exact hx
  | ok v' =>
    rw [hρ] at hx
    rcases hx with ⟨v, w₁, o₁, hx, ho₁, hleft₁, _, hR⟩
    exact ⟨v, w₁, o₁, hx, ho₁, hleft₁, hw', hR⟩

/-- The children that a node asks for, the guards that they hold and the variable that the node
reads give the same in both evaluations.  Asked twice, a child answers the same. -/
structure Answers (scope : Scope) (base : Nat) (T : Terms) (o : Owners)
    (result : NodeId → Eval Value) (ρ : Answering) (id : NodeId) : Prop where
  steady : Follows.Steady T
  asked {n c : NodeId} : Relation.ReflTransGen scope.nodes.Asks id n → scope.nodes.Asks n c →
    Follows T (fun o => Value.Alike (scope.nodes.Refers c) base o c) o (result c)
      (answering ρ c)
  again {c : NodeId} {w w₁ : Workspace} {v : Value} : result c w = (.ok v, w₁) →
    ∃ w₂, result c w₁ = (.ok v, w₂)
  bound {n predicate : NodeId} {x : String} (e : Incidence) :
    Relation.ReflTransGen scope.nodes.Asks id n → scope.nodes.Binds n predicate x →
    Follows T (fun _ => Eq) o (evaluateGuard scope result ⟨predicate, some x⟩ e)
      (evaluateGuard scope (answering ρ) ⟨predicate, some x⟩ e)
  lookup {x : String} {o' : Owners} {w w' : Workspace} : scope.nodes.get id = .ok (.var x) →
    T.left o' w → T.right w' → lookup scope w.bindings x = lookup scope w'.bindings x ∧
      ∀ v, lookup scope w'.bindings x = .ok v → v.Settled base
  literal {v : Value} : scope.nodes.get id = .ok (.literal v) → v.Settled base
  functions : scope.functions = .builtin

variable {scope : Scope} {base : Nat} {T : Terms} {K : Owners → Workspace → Prop} {o : Owners}
  {result : NodeId → Eval Value} {ρ : Answering} {id : NodeId}

namespace Answers

theorem later {o' : Owners} (h : Answers scope base T o result ρ id) (ho : o.Grows o') :
    Answers scope base T o' result ρ id where
  steady := h.steady
  asked hn hc := (h.asked hn hc).later ho
  again := h.again
  bound e hn hbinds := (h.bound e hn hbinds).later ho
  lookup := h.lookup
  literal := h.literal
  functions := h.functions

variable (h : Answers scope base T o result ρ id)
include h

theorem child {node : Node} (hget : scope.nodes.get id = .ok node) {c : NodeId}
    (hc : c ∈ node.asked) :
    Follows T (fun o => Value.Alike (scope.nodes.Refers c) base o c) o (result c)
      (answering ρ c) :=
  h.asked .refl ⟨node, hget, hc⟩

/-! ## Guards and transitions -/

theorem guardAccepts_follows {guard : Option Guard}
    (hguard : ∀ γ, guard = some γ → scope.nodes.Holds id γ) (e : Incidence) :
    Follows T (fun _ => Eq) o (guardAccepts scope result guard e)
      (guardAccepts scope (answering ρ) guard e) := by
  cases guard with
  | none => exact Follows.pure fun _ _ => rfl
  | some γ =>
    -- Guards of the automaton are guards of nodes that are asked for, so the answers cover them.
    rcases hguard γ rfl with ⟨n, node, hn, hget, hheld⟩
    rcases γ with ⟨predicate, _ | x⟩
    · refine (h.asked hn ⟨node, hget, Node.mem_asked_of_guard hheld⟩).bind ?_
      intro o' v v' _ hv
      exact Follows.pure fun _ _ => hv.isTrue_eq
    · exact h.bound e hn ⟨node, hget, hheld⟩

theorem isRestrictedTo_follows {n edge : NodeId}
    (hn : Relation.ReflTransGen scope.nodes.Asks id n) (hedge : scope.nodes.Asks n edge)
    (e : Incidence) :
    Follows T (fun _ => Eq) o (isRestrictedTo result edge e)
      (isRestrictedTo (answering ρ) edge e) := by
  refine (h.asked hn hedge).bind ?_
  intro o' v v' _ hv
  cases hv with
  | settled hv =>
    split
    · exact Follows.pure fun _ _ => rfl
    · exact Follows.fail T _ o' _
  | automaton _ _ _ => exact Follows.fail T _ o' _
  | pathSystem _ _ => exact Follows.fail T _ o' _

theorem accepts_follows {symbol : Symbol} (hsymbol : scope.nodes.Refers id symbol) (v : Nat)
    (e : Incidence) :
    Follows T (fun _ => Eq) o (accepts scope result symbol v e)
      (accepts scope (answering ρ) symbol v e) := by
  cases symbol with
  | epsilon => exact Follows.pure fun _ _ => rfl
  | step c =>
    simp only [accepts]
    split
    · exact h.guardAccepts_follows hsymbol e
    · exact Follows.pure fun _ _ => rfl
  | stepAlong c edge =>
    rcases hsymbol with ⟨hguard, n, hn, hedge⟩
    simp only [accepts]
    split
    · refine (h.guardAccepts_follows hguard e).bind ?_
      rintro o' accepted _ ho rfl
      cases accepted with
      | true => exact (h.later ho).isRestrictedTo_follows hn hedge e
      | false => exact Follows.pure fun _ _ => rfl
    · exact Follows.pure fun _ _ => rfl

/-! ## Values of children -/

theorem automatonOf_follows {c : NodeId} (hc : scope.nodes.Asks id c) :
    Follows T (fun _ => Automaton.Twin (scope.nodes.Refers id)) o (automatonOf result c)
      (automatonOf (answering ρ) c) := by
  refine (h.asked .refl hc).bind ?_
  intro o' v v' _ hv
  refine Follows.ofExcept ?_
  rcases hv.toAutomaton SyntaxGraph.refers_of_isPlain s!"path description {c.toText}" with
    ⟨a, b, ha, hb, htwin⟩ | herror
  · exact .inl ⟨a, b, ha, hb, fun _ _ => htwin.mono (SyntaxGraph.Refers.of_asks hc)⟩
  · exact .inr herror

theorem fragment_follows {c : NodeId} (hc : scope.nodes.Asks id c) :
    Follows T (fun _ => Automaton.Twin (scope.nodes.Refers id)) o (fragment result c)
      (fragment (answering ρ) c) := by
  refine (h.automatonOf_follows hc).bind ?_
  intro o' a b _ htwin
  exact Follows.fresh h.steady fun m n _ _ => htwin.copy true m n

theorem vertexSetOf_follows {c : NodeId} (hc : scope.nodes.Asks id c) (context : String) :
    Follows T (fun _ => Eq) o (vertexSetOf result c context)
      (vertexSetOf (answering ρ) c context) := by
  refine (h.asked .refl hc).bind ?_
  intro o' v v' _ hv
  refine Follows.ofExcept ?_
  rw [hv.toVertexSet_eq]
  cases v'.toVertexSet context with
  | error e => exact .inr ⟨e, rfl, rfl⟩
  | ok s => exact .inl ⟨s, s, rfl, rfl, fun _ _ => rfl⟩

/-! ## Path descriptions -/

theorem compileSequence_follows {parts : List NodeId}
    (hparts : ∀ c ∈ parts, scope.nodes.Asks id c) :
    Follows T (fun _ => Automaton.Twin (scope.nodes.Refers id)) o (compileSequence result parts)
      (compileSequence (answering ρ) parts) := by
  refine (Follows.fresh (R := fun _ => Automaton.Twin (scope.nodes.Refers id)) h.steady
    fun m n _ _ => .epsilon m n).bind ?_
  intro o' empty empty' ho hempty
  cases parts with
  | nil => exact Follows.pure fun _ _ => hempty
  | cons first rest =>
    refine ((h.later ho).fragment_follows (hparts first List.mem_cons_self)).bind ?_
    intro o₁ a b ho₁ htwin
    refine Follows.foldlM ?_ (fun _ htwin => htwin) htwin
    intro c hc o₂ a b ho₂ htwin
    refine ((((h.later ho).later ho₁).later ho₂).fragment_follows
      (hparts c (List.mem_cons_of_mem first hc))).bind ?_
    intro o₃ a' b' _ htwin'
    exact Follows.pure fun _ _ => htwin.concat trivial htwin'

theorem compileAlternative_follows {parts : List NodeId}
    (hparts : ∀ c ∈ parts, scope.nodes.Asks id c) :
    Follows T (fun _ => Automaton.Twin (scope.nodes.Refers id)) o
      (compileAlternative result id parts) (compileAlternative (answering ρ) id parts) := by
  cases parts with
  | nil => exact Follows.fail T _ o _
  | cons first rest =>
    refine (h.fragment_follows (hparts first List.mem_cons_self)).bind ?_
    intro o₁ a b ho₁ htwin
    refine Follows.foldlM ?_ (fun _ htwin => htwin) htwin
    intro c hc o₂ a b ho₂ htwin
    refine (((h.later ho₁).later ho₂).fragment_follows
      (hparts c (List.mem_cons_of_mem first hc))).bind ?_
    intro o₃ a' b' _ htwin'
    exact Follows.fresh h.steady fun m n _ _ => htwin.union trivial htwin' m n

theorem compilePower_follows {inner : NodeId} (hinner : scope.nodes.Asks id inner) (count : Nat) :
    Follows T (fun _ => Automaton.Twin (scope.nodes.Refers id)) o
      (compilePower result id inner count) (compilePower (answering ρ) id inner count) := by
  unfold compilePower
  split
  · exact Follows.fail T _ o _
  · refine (h.automatonOf_follows hinner).bind ?_
    intro o' a b _ htwin
    exact Follows.fresh h.steady fun m n _ _ => htwin.power trivial count m n

/-! ## Expressions -/

theorem logical_follows (decides : Bool) {items : List NodeId}
    (hitems : ∀ c ∈ items, scope.nodes.Asks id c) (unknown : Bool) {P : Symbol → Prop} :
    Follows T (fun o => Value.Alike P base o id) o (logical result decides unknown items)
      (logical (answering ρ) decides unknown items) := by
  induction items generalizing o unknown with
  | nil =>
    refine Follows.pure fun _ _ => .simple ?_
    split
    · exact .null
    · exact .bool _
  | cons c items ih =>
    refine (h.asked .refl (hitems c List.mem_cons_self)).bind ?_
    intro o' v v' ho hv
    have hrest := fun unknown => ih (h.later ho) (fun c hc => hitems c (List.mem_cons_of_mem _ hc))
      unknown
    cases hv with
    | settled _ =>
      split
      · split
        · exact Follows.pure fun _ _ => .simple (.bool _)
        · exact hrest unknown
      · exact hrest true
    | automaton _ _ _ => exact hrest true
    | pathSystem _ _ => exact hrest true

/-- A node that is asked twice in a row gives one value. -/
theorem twice_follows {c : NodeId} (hc : scope.nodes.Asks id c) {f : Value → Value → Value}
    {P : Symbol → Prop}
    (hf : ∀ o v v', Value.Alike (scope.nodes.Refers c) base o c v v' →
      f v v = f v' v' ∧ (f v' v').IsSimple) :
    Follows T (fun o => Value.Alike P base o id) o
      (do
        let x ← result c
        let y ← result c
        pure (f x y))
      (do
        let x ← answering ρ c
        let y ← answering ρ c
        pure (f x y)) := by
  intro o₀ w w' ho hI hJ
  have hfirst := h.asked .refl hc o₀ w w' ho hI hJ
  cases hρ : ρ c w'.bindings with
  | error failure =>
    have hrun : answering ρ c w' = (.error failure, w') := by
      rw [answering, hρ]
    rw [hrun] at hfirst
    rw [bind_apply, hrun]
    rcases hfirst with hspared | ⟨w₁, hx, hkept⟩
    · exact .inl hspared
    · refine .inr ⟨w₁, ?_, hkept⟩
      rw [bind_apply, hx]
  | ok v' =>
    have hrun : answering ρ c w' = (.ok v', w') := by
      rw [answering, hρ]
    rw [hrun] at hfirst
    rw [bind_apply, hrun]
    simp only
    rw [bind_apply, hrun]
    rcases hfirst with ⟨v, w₁, o₁, hx, ho₁, hI₁, hJ₁, _⟩
    have hsecond := h.asked .refl hc o₁ w₁ w' (ho.trans ho₁) hI₁ hJ₁
    rw [hrun] at hsecond
    rcases hsecond with ⟨u, w₂, o₂, hy, ho₂, hI₂, hJ₂, hv⟩
    -- The second time the value comes from the cache, so its handle is the same.
    rcases h.again hx with ⟨w₃, hagain⟩
    rw [hagain] at hy
    cases hy
    rcases hf o₂ v v' hv with ⟨heq, hsimple⟩
    refine ⟨f v v, w₂, o₂, ?_, ho₁.trans ho₂, hI₂, hJ₂, ?_⟩
    · rw [bind_apply, hx]
      simp only
      rw [bind_apply, hagain]
      rfl
    · rw [heq]
      exact .simple hsimple

theorem compare_follows {lhs rhs : NodeId} (hl : scope.nodes.Asks id lhs)
    (hr : scope.nodes.Asks id rhs) (op : CompareOp) {P : Symbol → Prop} :
    Follows T (fun o => Value.Alike P base o id) o
      (do
        let x ← result lhs
        let y ← result rhs
        pure (compareValues op x y))
      (do
        let x ← answering ρ lhs
        let y ← answering ρ rhs
        pure (compareValues op x y)) := by
  -- One node gives one value, but its handle may be new when it is asked again; different nodes
  -- never share a handle.
  by_cases heq : lhs = rhs
  · subst heq
    exact h.twice_follows hl fun o v v' hv =>
      ⟨hv.compareValues_eq hv hv.same_self_eq op, .compareValues op v' v'⟩
  · refine (h.asked .refl hl).bind ?_
    intro o₁ v v' ho₁ hv
    refine ((h.later ho₁).asked .refl hr).bind ?_
    intro o₂ w w' ho₂ hw
    have hv := hv.mono ho₂
    rw [hv.compareValues_eq hw (hv.same_eq heq hw) op]
    exact Follows.pure fun _ _ => .simple (.compareValues op v' w')

theorem call_follows {args : List NodeId} (hargs : ∀ c ∈ args, scope.nodes.Asks id c)
    (function : String) {P : Symbol → Prop} :
    Follows T (fun o => Value.Alike P base o id) o (call scope result function args)
      (call scope (answering ρ) function args) := by
  have hvalues : Follows T
      (fun o => List.Forall₂ fun v v' => ∃ P c, Value.Alike P base o c v v') o
      (args.mapM result) (args.mapM (answering ρ)) := by
    refine Follows.mapM ?_ ?_
    · intro c hc
      exact (h.asked .refl (hargs c hc)).mono fun _ _ _ hv => ⟨_, c, hv⟩
    · rintro o o' v v' ho ⟨P, c, hv⟩
      exact ⟨P, c, hv.mono ho⟩
  refine hvalues.bind ?_
  intro o₁ vs vs' ho₁ hvs
  refine (Follows.callNumber h.steady).bind ?_
  intro o₂ m n ho₂ _
  -- The built-in functions do not look at the number of the call.
  have hcall : scope.functions.call m function vs = scope.functions.call n function vs' := by
    rw [h.functions]
    simp only [FunctionLibrary.builtin, Builtin.call_eq hvs]
  rw [hcall]
  split
  · rename_i v hv
    rw [h.functions] at hv
    simp only [FunctionLibrary.builtin] at hv
    split at hv
    · rename_i hbuiltin
      cases hv
      exact Follows.pure fun _ _ => .simple (Builtin.isSimple_of_call hbuiltin)
    · cases hv
  · exact Follows.throw T _ o₂ _

/-! ## Path queries -/

section Traversals

variable {a b : Automaton} (htwin : a.Twin (scope.nodes.Refers id) b) (start : IdSet)
include htwin

theorem reachable_follows :
    Follows T (fun _ => Eq) o
      (Traversal.reachable (takes scope result) scope.limits a scope.graph start)
      (Traversal.reachable (takes scope (answering ρ)) scope.limits b scope.graph start) := by
  rw [← htwin.reachable_eq]
  exact (Follows.pairing T o).reachable scope.limits scope.graph
    (fun t ht _ v e => h.accepts_follows (htwin.symbols ht) v e) start

theorem connects_follows (target : IdSet) :
    Follows T (fun _ => Eq) o
      (Traversal.connects (takes scope result) scope.limits a scope.graph start target)
      (Traversal.connects (takes scope (answering ρ)) scope.limits b scope.graph start target) := by
  rw [← htwin.connects_eq]
  exact (Follows.pairing T o).connects scope.limits scope.graph
    (fun t ht _ v e => h.accepts_follows (htwin.symbols ht) v e) start target

theorem pathSystem_follows :
    Follows T (fun _ => Eq) o
      (Traversal.pathSystem (takes scope result) scope.limits a scope.graph start)
      (Traversal.pathSystem (takes scope (answering ρ)) scope.limits b scope.graph start) := by
  rw [← htwin.pathSystem_eq]
  exact (Follows.pairing T o).pathSystem scope.limits scope.graph
    (fun t ht _ v e => h.accepts_follows (htwin.symbols ht) v e) start

theorem reachableBackward_follows :
    Follows T (fun _ => Eq) o (reachableBackward scope result a start)
      (reachableBackward scope (answering ρ) b start) := by
  refine (Follows.fresh (R := fun _ => Automaton.Twin (scope.nodes.Refers id)) h.steady
    fun m n _ _ => htwin.reverse SyntaxGraph.refers_reversed trivial m n).bind ?_
  intro o' a' b' ho htwin'
  exact (h.later ho).reachable_follows htwin' start

end Traversals

/-- A set of vertices is searched from along a path, and what is found is no automaton. -/
theorem searched_follows {start path : NodeId} (hstart : scope.nodes.Asks id start)
    (hpath : scope.nodes.Asks id path) (context : String)
    {search search' : Automaton → IdSet → Eval IdSet}
    (hsearch : ∀ {o' : Owners} {a b : Automaton}, o.Grows o' →
      a.Twin (scope.nodes.Refers id) b → ∀ s, Follows T (fun _ => Eq) o' (search a s) (search' b s))
    {P : Symbol → Prop} :
    Follows T (fun o => Value.Alike P base o id) o
      (do
        let s ← vertexSetOf result start context
        let a ← automatonOf result path
        pure (.vertexSet (← search a s)))
      (do
        let s ← vertexSetOf (answering ρ) start context
        let a ← automatonOf (answering ρ) path
        pure (.vertexSet (← search' a s))) := by
  refine (h.vertexSetOf_follows hstart context).bind ?_
  rintro o₁ s _ ho₁ rfl
  refine ((h.later ho₁).automatonOf_follows hpath).bind ?_
  intro o₂ a b ho₂ htwin
  refine (hsearch (ho₁.trans ho₂) htwin s).bind ?_
  rintro o₃ found _ _ rfl
  exact Follows.pure fun _ _ => .simple (.vertexSet found)

theorem forwardVertexSet_follows {start path : NodeId} (hstart : scope.nodes.Asks id start)
    (hpath : scope.nodes.Asks id path) {P : Symbol → Prop} :
    Follows T (fun o => Value.Alike P base o id) o
      (rule scope result id (.forwardVertexSet start path))
      (rule scope (answering ρ) id (.forwardVertexSet start path)) :=
  h.searched_follows hstart hpath _ fun ho htwin s => (h.later ho).reachable_follows htwin s

theorem backwardVertexSet_follows {target path : NodeId} (htarget : scope.nodes.Asks id target)
    (hpath : scope.nodes.Asks id path) {P : Symbol → Prop} :
    Follows T (fun o => Value.Alike P base o id) o
      (rule scope result id (.backwardVertexSet target path))
      (rule scope (answering ρ) id (.backwardVertexSet target path)) :=
  h.searched_follows htarget hpath _ fun ho htwin s =>
    (h.later ho).reachableBackward_follows htwin s

theorem pathExistence_follows {start path target : NodeId} (hstart : scope.nodes.Asks id start)
    (hpath : scope.nodes.Asks id path) (htarget : scope.nodes.Asks id target)
    {P : Symbol → Prop} :
    Follows T (fun o => Value.Alike P base o id) o
      (rule scope result id (.pathExistence start path target))
      (rule scope (answering ρ) id (.pathExistence start path target)) := by
  refine (h.vertexSetOf_follows hstart _).bind ?_
  rintro o₁ s _ ho₁ rfl
  refine ((h.later ho₁).vertexSetOf_follows htarget _).bind ?_
  rintro o₂ t _ ho₂ rfl
  refine (((h.later ho₁).later ho₂).automatonOf_follows hpath).bind ?_
  intro o₃ a b ho₃ htwin
  refine ((((h.later ho₁).later ho₂).later ho₃).connects_follows htwin s t).bind ?_
  rintro o₄ connected _ _ rfl
  exact Follows.pure fun _ _ => .simple (.bool connected)

end Answers

/-! ## All rules -/

/-- The next handle goes to the node, in both evaluations. -/
structure Claims (base : Nat) (T : Terms) (K : Owners → Workspace → Prop) (id : NodeId) :
    Prop where
  kept {o : Owners} {w : Workspace} : T.left o w → K o w
  claimed {o : Owners} {w : Workspace} : T.left o w → base ≤ w.supply.handles ∧ ∃ o₁, o.Grows o₁ ∧
    o₁ w.supply.handles = some id ∧
    K o₁ { w with supply := { w.supply with handles := w.supply.handles + 1 } }
  handles_eq {w : Workspace} : T.right w → w.supply.handles = base + id

theorem publish_finishes {α : Type} {S : Owners → α → α → Prop} {x y : Eval α}
    {make : Nat → α → Value} (hclaims : Claims base T K id) (hxy : Follows T S o x y)
    (hmake : ∀ o' h r r', base ≤ h → o' h = some id → S o' r r' →
      Value.Alike (scope.nodes.Refers id) base o' id (make h r) (make (base + id) r'))
    (hS : ∀ {o o' r r'}, o.Grows o' → S o r r' → S o' r r') :
    Finishes T K (fun o => Value.Alike (scope.nodes.Refers id) base o id) o
      (do
        let r ← x
        pure (make (← freshHandle) r))
      (do
        let r ← y
        pure (make (← freshHandle) r)) := by
  refine Finishes.bind hxy hclaims.kept ?_
  intro o₁ r r' _ hr o₂ w w' ho₂ hI hJ
  rcases hclaims.claimed hI with ⟨hle, o₃, ho₃, howner, hK⟩
  refine ⟨make w.supply.handles r, _, o₃, rfl, ho₃, hK, ?_⟩
  have hmade := hmake o₃ w.supply.handles r r' hle howner (hS (ho₂.trans ho₃) hr)
  rw [← hclaims.handles_eq hJ] at hmade
  exact hmade

theorem publishAutomaton_finishes {x y : Eval Automaton} (hclaims : Claims base T K id)
    (hxy : Follows T (fun _ => Automaton.Twin (scope.nodes.Refers id)) o x y) :
    Finishes T K (fun o => Value.Alike (scope.nodes.Refers id) base o id) o (publishAutomaton x)
      (publishAutomaton y) :=
  publish_finishes hclaims hxy (fun _ _ _ _ hle howner htwin => .automaton hle howner htwin)
    fun _ htwin => htwin

namespace Answers

variable (h : Answers scope base T o result ρ id) (hclaims : Claims base T K id)
include h

theorem var_follows {name : String} (hget : scope.nodes.get id = .ok (.var name)) :
    Follows T (fun o => Value.Alike (scope.nodes.Refers id) base o id) o
      (do ofExcept (Evaluation.lookup scope (← getBindings) name))
      (do ofExcept (Evaluation.lookup scope (← getBindings) name)) := by
  intro o' w w' ho hI hJ
  rcases h.lookup hget hI hJ with ⟨heq, hsettled⟩
  have hsame : Follows T (fun o => Value.Alike (scope.nodes.Refers id) base o id) o
      (ofExcept (Evaluation.lookup scope w.bindings name))
      (ofExcept (Evaluation.lookup scope w'.bindings name)) := by
    refine Follows.ofExcept ?_
    cases hlookup : Evaluation.lookup scope w'.bindings name with
    | error e => exact .inr ⟨e, heq.trans hlookup, rfl⟩
    | ok v => exact .inl ⟨v, v, heq.trans hlookup, rfl, fun _ _ => .settled (hsettled v hlookup)⟩
  exact hsame o' w w' ho hI hJ

include hclaims

/-- The paths are published under a new handle, so that they are finished and not only followed. -/
theorem pathSystem_finishes {start path : NodeId} (hstart : scope.nodes.Asks id start)
    (hpath : scope.nodes.Asks id path) :
    Finishes T K (fun o => Value.Alike (scope.nodes.Refers id) base o id) o
      (rule scope result id (.pathSystem start path))
      (rule scope (answering ρ) id (.pathSystem start path)) := by
  refine Finishes.bind (h.vertexSetOf_follows hstart _) hclaims.kept ?_
  rintro o₁ s _ ho₁ rfl
  refine Finishes.bind ((h.later ho₁).automatonOf_follows hpath) hclaims.kept ?_
  intro o₂ a b ho₂ htwin
  refine publish_finishes hclaims (((h.later ho₁).later ho₂).pathSystem_follows htwin s) ?_
    fun _ heq => heq
  rintro o₃ handle ps _ hle howner rfl
  exact .pathSystem hle howner

/-- The rule of a node, with the same answers to what it asks. -/
theorem rule_finishes {node : Node} (hget : scope.nodes.get id = .ok node) :
    Finishes T K (fun o => Value.Alike (scope.nodes.Refers id) base o id) o
      (rule scope result id node) (rule scope (answering ρ) id node) := by
  have hasked : ∀ {c : NodeId}, c ∈ node.asked → scope.nodes.Asks id c :=
    fun hc => ⟨node, hget, hc⟩
  have hheld : ∀ γ, node.guard = some γ → scope.nodes.Holds id γ :=
    fun γ hγ => ⟨id, node, .refl, hget, hγ⟩
  cases node with
  | literal v => exact .of_follows (Follows.pure fun _ _ => .settled (h.literal hget)) hclaims.kept
  | var name => exact .of_follows (h.var_follows hget) hclaims.kept
  | attr c name =>
    refine .of_follows ((h.asked .refl (hasked (List.mem_singleton_self c))).bind ?_) hclaims.kept
    intro o₁ v v' _ hv
    refine Follows.ofExcept ?_
    rw [hv.attributeOf_eq]
    cases hattr : attributeOf scope.graph name v' with
    | error e => exact .inr ⟨e, rfl, rfl⟩
    | ok u => exact .inl ⟨u, u, rfl, rfl, fun _ _ => .simple (.of_attributeOf hattr)⟩
  | compare op lhs rhs =>
    exact .of_follows (h.compare_follows (hasked List.mem_cons_self)
      (hasked (List.mem_cons_of_mem _ (List.mem_singleton_self rhs))) op) hclaims.kept
  | and items => exact .of_follows (h.logical_follows false (fun _ => hasked) false) hclaims.kept
  | or items => exact .of_follows (h.logical_follows true (fun _ => hasked) false) hclaims.kept
  | not c =>
    refine .of_follows ((h.asked .refl (hasked (List.mem_singleton_self c))).bind ?_) hclaims.kept
    intro o₁ v v' _ hv
    rw [hv.negate_eq]
    exact Follows.pure fun _ _ => .simple (.negate v')
  | call function args =>
    exact .of_follows (h.call_follows (fun _ => hasked) function) hclaims.kept
  | vertices types =>
    exact .of_follows (Follows.pure fun _ _ => .simple (.vertexSet _)) hclaims.kept
  | simplePath direction types roles guard =>
    exact publishAutomaton_finishes hclaims
      (Follows.fresh h.steady fun m n _ _ => .single (fun γ hγ => hheld γ hγ) m n)
  | edgePath direction edge types roles guard =>
    exact publishAutomaton_finishes hclaims
      (Follows.fresh h.steady fun m n _ _ =>
        .single ⟨fun γ hγ => hheld γ hγ, id, .refl, hasked List.mem_cons_self⟩ m n)
  | sequence parts =>
    exact publishAutomaton_finishes hclaims (h.compileSequence_follows fun _ => hasked)
  | alternative parts =>
    exact publishAutomaton_finishes hclaims (h.compileAlternative_follows fun _ => hasked)
  | iterated c iteration =>
    have hfragment := h.fragment_follows (hasked (List.mem_singleton_self c))
    cases iteration with
    | star =>
      refine publishAutomaton_finishes hclaims (hfragment.bind ?_)
      intro o₁ a b _ htwin
      exact Follows.fresh h.steady fun m n _ _ => htwin.iterate trivial true m n
    | plus =>
      refine publishAutomaton_finishes hclaims (hfragment.bind ?_)
      intro o₁ a b _ htwin
      exact Follows.fresh h.steady fun m n _ _ => htwin.iterate trivial false m n
  | optional c =>
    refine publishAutomaton_finishes hclaims
      ((h.fragment_follows (hasked (List.mem_singleton_self c))).bind ?_)
    intro o₁ a b _ htwin
    exact Follows.fresh h.steady fun m n _ _ => htwin.optional trivial m n
  | exponentiated c count =>
    exact publishAutomaton_finishes hclaims
      (h.compilePower_follows (hasked (List.mem_singleton_self c)) count)
  | transposed c =>
    refine publishAutomaton_finishes hclaims
      ((h.automatonOf_follows (hasked (List.mem_singleton_self c))).bind ?_)
    intro o₁ a b _ htwin
    exact Follows.fresh h.steady fun m n _ _ =>
      htwin.reverse SyntaxGraph.refers_reversed trivial m n
  | forwardVertexSet start path =>
    exact .of_follows (h.forwardVertexSet_follows (hasked List.mem_cons_self)
      (hasked (List.mem_cons_of_mem start (List.mem_singleton_self path)))) hclaims.kept
  | backwardVertexSet target path =>
    exact .of_follows (h.backwardVertexSet_follows (hasked List.mem_cons_self)
      (hasked (List.mem_cons_of_mem target (List.mem_singleton_self path)))) hclaims.kept
  | pathExistence start path target =>
    have hpath := hasked (List.mem_cons_of_mem start List.mem_cons_self)
    have htarget := hasked (List.mem_cons_of_mem start
      (List.mem_cons_of_mem path (List.mem_singleton_self target)))
    exact .of_follows (h.pathExistence_follows (hasked List.mem_cons_self) hpath htarget)
      hclaims.kept
  | pathSystem start path =>
    exact h.pathSystem_finishes hclaims (hasked List.mem_cons_self)
      (hasked (List.mem_cons_of_mem start (List.mem_singleton_self path)))

end Answers

end Evaluation
end PathQuery

import PathQuery.Proofs.Evaluation.Alike
import PathQuery.Proofs.Evaluation.Host
import PathQuery.Proofs.Path.Simulation

/-!
# Hosts with related operations

The rules are one program over every host.  Whatever relation between computations is kept by
returning, failing and sequencing, and holds between the operations of two hosts, holds between the
values of a node.

* `PartialLifting`: a relation between computations, for every relation between their results;
* `Building`: relations between automata that the operations on automata keep;
* `Value.ReadsAs`: the rules read the same of two values, but for related automata;
* `Kinship`: relations between values that the rules keep;
* `Host.Related`: the operations of two hosts are related;
* `Related.takes`: then so are the tests of edges;
* `Related.compileSequence`, `Related.logical` and so on: and everything that is made of the
  operations, where related automata are traversed alike;
* `Related.rule`: so the values of a node are related.
-/

namespace PathQuery

variable {m n : Type → Type} [Monad m] [Monad n] [MonadExceptOf Failure m]
  [MonadExceptOf Failure n]

/-! ## Computations -/

structure PartialLifting (m n : Type → Type) [Monad m] [Monad n] [MonadExceptOf Failure m]
    [MonadExceptOf Failure n] where
  rel {α : Type} (r : α → α → Prop) : m α → n α → Prop
  /-- The failures that can be thrown on both sides. -/
  throws : Failure → Prop
  pure {α : Type} {r : α → α → Prop} {a b : α} : r a b → rel r (Pure.pure a) (Pure.pure b)
  throw {α : Type} (r : α → α → Prop) {failure : Failure} : throws failure →
    rel r (throwThe Failure failure) (throwThe Failure failure)
  bind {α γ : Type} {r : α → α → Prop} {s : γ → γ → Prop} {x : m α} {y : n α} {f : α → m γ}
    {k : α → n γ} : rel r x y → (∀ a b, r a b → rel s (f a) (k b)) → rel s (x >>= f) (y >>= k)

namespace PartialLifting

variable (L : PartialLifting m n) {α γ : Type} {r : α → α → Prop}

/-- What follows sees one value on both sides. -/
theorem bind_eq {s : γ → γ → Prop} {x : m α} {y : n α} {f : α → m γ} {k : α → n γ}
    (hxy : L.rel Eq x y) (h : ∀ a, L.rel s (f a) (k a)) : L.rel s (x >>= f) (y >>= k) :=
  L.bind hxy fun a _ heq => heq ▸ h a

theorem foldlM {f : α → γ → m α} {k : α → γ → n α} {xs : List γ}
    (h : ∀ c ∈ xs, ∀ a b, r a b → L.rel r (f a c) (k b c)) {a b : α} (hab : r a b) :
    L.rel r (xs.foldlM f a) (xs.foldlM k b) := by
  induction xs generalizing a b with
  | nil => exact L.pure hab
  | cons c xs ih =>
    rw [List.foldlM_cons, List.foldlM_cons]
    refine L.bind (h c List.mem_cons_self a b hab) ?_
    intro a b hab
    exact ih (fun d hd => h d (List.mem_cons_of_mem c hd)) hab

theorem mapM [LawfulMonad m] [LawfulMonad n] {f : γ → m α} {k : γ → n α} {xs : List γ}
    (h : ∀ c ∈ xs, L.rel r (f c) (k c)) :
    L.rel (List.Forall₂ r) (xs.mapM f) (xs.mapM k) := by
  induction xs with
  | nil =>
    rw [List.mapM_nil, List.mapM_nil]
    exact L.pure .nil
  | cons c xs ih =>
    rw [List.mapM_cons, List.mapM_cons]
    refine L.bind (h c List.mem_cons_self) ?_
    intro a b hab
    refine L.bind (ih fun d hd => h d (List.mem_cons_of_mem c hd)) ?_
    intro as bs habs
    exact L.pure (.cons hab habs)

/-- Computations with equal results, as a relation that traversals respect. -/
def simulation : PartialSimulation m n where
  rel x y := L.rel Eq x y
  throws := L.throws
  pure _ := L.pure rfl
  throw := L.throw Eq
  bind := L.bind_eq

end PartialLifting

/-! ## Automata -/

/-- Relations between automata, and between ways to make them, that the operations keep. -/
structure Building where
  alike : Automaton → Automaton → Prop
  makes : Fresh Automaton → Fresh Automaton → Prop
  finals_eq {a b : Automaton} : alike a b → a.finals = b.finals
  epsilon : makes Automaton.epsilon Automaton.epsilon
  copy {a b : Automaton} : alike a b → makes (a.copy true) (b.copy true)
  concat {a b a' b' : Automaton} : alike a b → alike a' b' → alike (a.concat a') (b.concat b')
  union {a b a' b' : Automaton} : alike a b → alike a' b' → makes (a.union a') (b.union b')
  iterate {a b : Automaton} (allowEmpty : Bool) : alike a b →
    makes (a.iterate allowEmpty) (b.iterate allowEmpty)
  optional {a b : Automaton} : alike a b → makes a.optional b.optional
  power {a b : Automaton} (count : Nat) : alike a b → makes (a.power count) (b.power count)
  reverse {a b : Automaton} : alike a b → makes a.reverse b.reverse

/-- Something that is known of automata, and of all that is made of them. -/
structure Automaton.Kept (known : Automaton → Prop) : Prop where
  epsilon (n : Nat) : known (Automaton.epsilon n).1
  copy {a : Automaton} : known a → ∀ n, known (a.copy true n).1
  concat {a b : Automaton} : known a → known b → known (a.concat b)
  union {a b : Automaton} : known a → known b → ∀ n, known (a.union b n).1
  iterate {a : Automaton} (allowEmpty : Bool) : known a → ∀ n, known (a.iterate allowEmpty n).1
  optional {a : Automaton} : known a → ∀ n, known (a.optional n).1
  power {a : Automaton} (count : Nat) : known a → ∀ n, known (a.power count n).1
  reverse {a : Automaton} : known a → ∀ n, known (a.reverse n).1

/-- One value on both sides, of which something is known. -/
def Both {α : Type} (p : α → Prop) (a b : α) : Prop :=
  a = b ∧ p a

theorem eq_of_forall₂_both {α : Type} {p : α → Prop} {xs ys : List α}
    (h : List.Forall₂ (Both p) xs ys) : xs = ys ∧ ∀ x ∈ xs, p x := by
  induction h with
  | nil => exact ⟨rfl, nofun⟩
  | cons hxy _ ih =>
    obtain ⟨rfl, hx⟩ := hxy
    exact ⟨congrArg _ ih.1, List.forall_mem_cons.2 ⟨hx, ih.2⟩⟩

/-- The same is made on both sides. -/
def Building.both {known : Automaton → Prop} (h : Automaton.Kept known) : Building where
  alike := Both known
  makes x y := x = y ∧ ∀ n, known (x n).1
  finals_eq hab := congrArg Automaton.finals hab.1
  epsilon := ⟨rfl, h.epsilon⟩
  copy := by
    rintro a _ ⟨rfl, ha⟩
    exact ⟨rfl, h.copy ha⟩
  concat := by
    rintro a _ b _ ⟨rfl, ha⟩ ⟨rfl, hb⟩
    exact ⟨rfl, h.concat ha hb⟩
  union := by
    rintro a _ b _ ⟨rfl, ha⟩ ⟨rfl, hb⟩
    exact ⟨rfl, h.union ha hb⟩
  iterate allowEmpty := by
    rintro ⟨rfl, ha⟩
    exact ⟨rfl, h.iterate allowEmpty ha⟩
  optional := by
    rintro a _ ⟨rfl, ha⟩
    exact ⟨rfl, h.optional ha⟩
  power count := by
    rintro ⟨rfl, ha⟩
    exact ⟨rfl, h.power count ha⟩
  reverse := by
    rintro a _ ⟨rfl, ha⟩
    exact ⟨rfl, h.reverse ha⟩

/-- The symbol to which a step is compiled. -/
def Node.symbol (g : Graph) : Node → Option Symbol
  | simplePath direction types roles guard => some (.step (.resolve g direction types roles guard))
  | edgePath direction edge types roles guard =>
    some (.stepAlong (.resolve g direction types roles guard) edge)
  | _ => none

/-! ## Values -/

namespace Value

/-- What the rules read of two values, each with a graph of its own. -/
structure ReadsAs (g g' : Graph) (alike : Automaton → Automaton → Prop) (v v' : Value) : Prop where
  asBool : v.asBool = v'.asBool
  negate : Evaluation.negate v = Evaluation.negate v'
  attributeOf (name : String) :
    Evaluation.attributeOf g name v = Evaluation.attributeOf g' name v'
  toVertexSet (context : String) : v.toVertexSet context = v'.toVertexSet context
  isEdge (node : NodeId) (e : Incidence) : Host.isEdge node e v = Host.isEdge node e v'
  /-- Both are automata, or neither is and the error is the same. -/
  toAutomaton (context : String) :
    (∃ a b, v.toAutomaton context = .ok a ∧ v'.toAutomaton context = .ok b ∧ alike a b) ∨
      ∃ e, v.toAutomaton context = .error e ∧ v'.toAutomaton context = .error e

theorem ReadsAs.refl {g : Graph} {alike : Automaton → Automaton → Prop} {v : Value}
    (h : ∀ handle a, v = .automaton handle a → alike a a) : v.ReadsAs g g alike v where
  asBool := rfl
  negate := rfl
  attributeOf _ := rfl
  toVertexSet _ := rfl
  isEdge _ _ := rfl
  toAutomaton context := by
    cases v with
    | automaton handle a => exact .inl ⟨a, a, rfl, rfl, h handle a rfl⟩
    | _ => exact .inr ⟨_, rfl, rfl⟩

/-! No operation takes a node for cyclic that it reads a value of. -/

variable {v : Value} {e : EvalError}

theorem ne_cyclic_of_toVertexSet {context : String} (h : v.toVertexSet context = .error e)
    (node : NodeId) : e ≠ .cyclicEvaluation node := by
  rintro rfl
  cases v <;> cases h

theorem ne_cyclic_of_toAutomaton {context : String} (h : v.toAutomaton context = .error e)
    (node : NodeId) : e ≠ .cyclicEvaluation node := by
  rintro rfl
  cases v <;> cases h

theorem ne_cyclic_of_attributeOf {g : Graph} {name : String}
    (h : Evaluation.attributeOf g name v = .error e) (node : NodeId) :
    e ≠ .cyclicEvaluation node := by
  rintro rfl
  cases v <;> cases h

theorem ne_cyclic_of_isEdge {edge : NodeId} {i : Incidence} (h : Host.isEdge edge i v = .error e)
    (node : NodeId) : e ≠ .cyclicEvaluation node := by
  rintro rfl
  cases v <;> cases h

end Value

/-- Relations between values that the rules keep, over two graphs. -/
structure Kinship (g g' : Graph) where
  /-- What is known of the nodes that are asked for. -/
  alike : Value → Value → Prop
  /-- What is known of the node that asks. -/
  gives : Value → Value → Prop
  building : Building
  handles : Nat → Nat → Prop
  reads {v v' : Value} : alike v v' → v.ReadsAs g g' building.alike v'
  compareValues_eq (op : CompareOp) {x x' y y' : Value} : alike x x' → alike y y' →
    Evaluation.compareValues op x y = Evaluation.compareValues op x' y'
  simple {v : Value} : v.IsSimple → gives v v
  automaton {h h' : Nat} {a b : Automaton} : handles h h' → building.alike a b →
    gives (.automaton h a) (.automaton h' b)
  pathSystem {h h' : Nat} (ps : PathSystem) : handles h h' →
    gives (.pathSystem h ps) (.pathSystem h' ps)

/-! ## Hosts -/

namespace Host

/-- The operations of two hosts are related, for nodes that may be asked and guards that may
occur. -/
structure Related (L : PartialLifting m n) {g g' : Graph} (K : Kinship g g') (asks : NodeId → Prop)
    (admits : Guard → Prop) (H : Host m) (H' : Host n) : Prop where
  throws {e : EvalError} : (∀ node, e ≠ .cyclicEvaluation node) → L.throws (.error e)
  vertices (terms : List TypeTerm) :
    Evaluation.verticesOfTypes g terms = Evaluation.verticesOfTypes g' terms
  result {c : NodeId} : asks c → L.rel K.alike (H.result c) (H'.result c)
  guard {guard : Guard} (e : Incidence) : admits guard →
    L.rel Eq (H.guard guard e) (H'.guard guard e)
  call (function : String) {args args' : List Value} : List.Forall₂ K.alike args args' →
    L.rel K.gives (H.call function args) (H'.call function args')
  fresh {x y : Fresh Automaton} : K.building.makes x y →
    L.rel K.building.alike (H.fresh x) (H'.fresh y)
  handle : L.rel K.handles H.handle H'.handle

/-- Related automata are traversed alike. -/
def Traverses (L : PartialLifting m n) (scope scope' : Scope)
    (alike : Automaton → Automaton → Prop) (H : Host m) (H' : Host n) : Prop :=
  ∀ {a b : Automaton}, alike a b → ∀ start : IdSet,
    L.rel Eq (Traversal.traverse (H.takes scope.graph) scope.limits a scope.graph start)
      (Traversal.traverse (H'.takes scope'.graph) scope'.limits b scope'.graph start)

namespace Related

variable {L : PartialLifting m n} {asks : NodeId → Prop} {admits : Guard → Prop} {H : Host m}
  {H' : Host n}

section Operations

variable {g g' : Graph} {K : Kinship g g'} (h : Related L K asks admits H H')
include h

theorem fail {α : Type} (r : α → α → Prop) {e : EvalError}
    (he : ∀ node, e ≠ .cyclicEvaluation node) : L.rel r (fail e) (fail e) :=
  L.throw r (h.throws he)

/-- What is read of a value is the same on both sides, or it is refused with the same error. -/
theorem read {α : Type} {r : α → α → Prop} {c : NodeId} (hc : asks c)
    {f k : Value → Except EvalError α}
    (hfk : ∀ v v', K.alike v v' → (∃ a b, f v = .ok a ∧ k v' = .ok b ∧ r a b) ∨
      ∃ e, f v = .error e ∧ k v' = .error e)
    (hf : ∀ v e, f v = .error e → ∀ node, e ≠ .cyclicEvaluation node) :
    L.rel r (H.result c >>= fun v => ofExcept (f v)) (H'.result c >>= fun v => ofExcept (k v)) := by
  refine L.bind (h.result hc) fun v v' hv => ?_
  rcases hfk v v' hv with ⟨a, b, ha, hb, hab⟩ | ⟨e, he, he'⟩
  · rw [ha, hb]
    exact L.pure hab
  · rw [he, he']
    exact h.fail r (hf v e he)

theorem read_eq {α : Type} {r : α → α → Prop} {c : NodeId} (hc : asks c)
    {f k : Value → Except EvalError α} (hfk : ∀ v v', K.alike v v' → f v = k v')
    (hr : ∀ v a, f v = .ok a → r a a)
    (hf : ∀ v e, f v = .error e → ∀ node, e ≠ .cyclicEvaluation node) :
    L.rel r (H.result c >>= fun v => ofExcept (f v)) (H'.result c >>= fun v => ofExcept (k v)) := by
  refine h.read hc (fun v v' hv => ?_) hf
  rw [← hfk v v' hv]
  cases hread : f v with
  | ok a => exact .inl ⟨a, a, rfl, rfl, hr v a hread⟩
  | error e => exact .inr ⟨e, rfl, rfl⟩

/-! ### Transitions -/

theorem guardAccepts {guard : Option Guard} (hguard : ∀ γ, guard = some γ → admits γ)
    (e : Incidence) : L.rel Eq (H.guardAccepts guard e) (H'.guardAccepts guard e) := by
  cases guard with
  | none => exact L.pure rfl
  | some γ => exact h.guard e (hguard γ rfl)

theorem isRestrictedTo {node : NodeId} (hnode : asks node) (e : Incidence) :
    L.rel Eq (H.isRestrictedTo node e) (H'.isRestrictedTo node e) :=
  h.read_eq hnode (fun _ _ hv => (K.reads hv).isEdge node e) (fun _ _ _ => rfl)
    fun _ _ he => Value.ne_cyclic_of_isEdge he

/-- A constraint is taken for what it matches in each graph. -/
theorem takes {t : Transition} {v : Nat} {e : Incidence}
    (htest : ∀ c, t.symbol.constraint = some c →
      (g.this e == some v && c.matchesStructure g e) =
        (g'.this e == some v && c.matchesStructure g' e))
    (hguard : ∀ c γ, t.symbol.constraint = some c → c.guard = some γ → admits γ)
    (hedge : ∀ c node, t.symbol = .stepAlong c node → asks node) :
    L.rel Eq (H.takes g t v e) (H'.takes g' t v e) := by
  rcases t with ⟨source, target, symbol⟩
  cases symbol with
  | epsilon => exact L.pure rfl
  | step c =>
    simp only [Host.takes, ← htest c rfl]
    split
    · exact h.guardAccepts (fun γ hγ => hguard c γ rfl hγ) e
    · exact L.pure rfl
  | stepAlong c node =>
    simp only [Host.takes, ← htest c rfl]
    split
    · refine L.bind_eq (h.guardAccepts (fun γ hγ => hguard c γ rfl hγ) e) fun accepted => ?_
      split
      · exact h.isRestrictedTo (hedge c node rfl) e
      · exact L.pure rfl
    · exact L.pure rfl

/-! ### Automata -/

theorem automatonOf {path : NodeId} (hpath : asks path) :
    L.rel K.building.alike (H.automatonOf path) (H'.automatonOf path) :=
  h.read hpath (fun _ _ hv => (K.reads hv).toAutomaton _) fun _ _ he =>
    Value.ne_cyclic_of_toAutomaton he

theorem fragment {path : NodeId} (hpath : asks path) :
    L.rel K.building.alike (H.fragment path) (H'.fragment path) :=
  L.bind (h.automatonOf hpath) fun _ _ hab => h.fresh (K.building.copy hab)

theorem compileSequence {parts : List NodeId} (hparts : ∀ c ∈ parts, asks c) :
    L.rel K.building.alike (H.compileSequence parts) (H'.compileSequence parts) := by
  refine L.bind (h.fresh K.building.epsilon) fun empty empty' hempty => ?_
  cases parts with
  | nil => exact L.pure hempty
  | cons first rest =>
    refine L.bind (h.fragment (hparts first List.mem_cons_self)) fun a b hab => L.foldlM ?_ hab
    intro part hpart a b hab
    refine L.bind (h.fragment (hparts part (List.mem_cons_of_mem first hpart))) fun c d hcd => ?_
    exact L.pure (K.building.concat hab hcd)

theorem compileAlternative (node : NodeId) {parts : List NodeId} (hparts : ∀ c ∈ parts, asks c) :
    L.rel K.building.alike (H.compileAlternative node parts)
      (H'.compileAlternative node parts) := by
  cases parts with
  | nil => exact h.fail _ nofun
  | cons first rest =>
    refine L.bind (h.fragment (hparts first List.mem_cons_self)) fun a b hab => L.foldlM ?_ hab
    intro part hpart a b hab
    refine L.bind (h.fragment (hparts part (List.mem_cons_of_mem first hpart))) fun c d hcd => ?_
    exact h.fresh (K.building.union hab hcd)

theorem compilePower (node : NodeId) {inner : NodeId} (hinner : asks inner) (count : Nat) :
    L.rel K.building.alike (H.compilePower node inner count)
      (H'.compilePower node inner count) := by
  unfold Host.compilePower
  split
  · exact h.fail _ nofun
  · exact L.bind (h.automatonOf hinner) fun _ _ hab => h.fresh (K.building.power count hab)

theorem publishAutomaton {x : m Automaton} {y : n Automaton} (hxy : L.rel K.building.alike x y) :
    L.rel K.gives (H.publishAutomaton x) (H'.publishAutomaton y) := by
  refine L.bind hxy fun a b hab => ?_
  refine L.bind h.handle fun handle handle' hhandle => ?_
  exact L.pure (K.automaton hhandle hab)

/-- The automaton of another node, after an operation. -/
theorem publishOperation {x : m Automaton} {y : n Automaton} {f : Automaton → Fresh Automaton}
    (hxy : L.rel K.building.alike x y)
    (hf : ∀ {a b}, K.building.alike a b → K.building.makes (f a) (f b)) :
    L.rel K.gives (H.publishAutomaton (x >>= fun a => H.fresh (f a)))
      (H'.publishAutomaton (y >>= fun b => H'.fresh (f b))) :=
  h.publishAutomaton (L.bind hxy fun _ _ hab => h.fresh (hf hab))

/-! ### Logic and vertices -/

theorem logical (decides unknown : Bool) {items : List NodeId} (hitems : ∀ c ∈ items, asks c) :
    L.rel K.gives (H.logical decides unknown items) (H'.logical decides unknown items) := by
  induction items generalizing unknown with
  | nil =>
    refine L.pure (K.simple ?_)
    split
    · exact .null
    · exact .bool _
  | cons item items ih =>
    have hrest := fun unknown => ih unknown fun c hc => hitems c (List.mem_cons_of_mem item hc)
    refine L.bind (h.result (hitems item List.mem_cons_self)) fun v v' hv => ?_
    -- The items agree on whether they decide, so both sides go on or stop together.
    rw [← (K.reads hv).asBool]
    split
    · split
      · exact L.pure (K.simple (.bool decides))
      · exact hrest unknown
    · exact hrest true

theorem vertexSetOf {node : NodeId} (hnode : asks node) (context : String) :
    L.rel Eq (H.vertexSetOf node context) (H'.vertexSetOf node context) :=
  h.read_eq hnode (fun _ _ hv => (K.reads hv).toVertexSet context) (fun _ _ _ => rfl)
    fun _ _ he => Value.ne_cyclic_of_toVertexSet he

end Operations

/-! ### Path queries -/

variable {scope scope' : Scope} {K : Kinship scope.graph scope'.graph}
  (h : Related L K asks admits H H')
  (htraverses : Traverses L scope scope' K.building.alike H H')

section Traversals

variable {a b : Automaton} (hab : K.building.alike a b) (start : IdSet)
include htraverses hab

theorem reachable :
    L.rel Eq (Traversal.reachable (H.takes scope.graph) scope.limits a scope.graph start)
      (Traversal.reachable (H'.takes scope'.graph) scope'.limits b scope'.graph start) :=
  L.bind_eq (htraverses hab start) fun _ => L.pure rfl

theorem connects (target : IdSet) :
    L.rel Eq (Traversal.connects (H.takes scope.graph) scope.limits a scope.graph start target)
      (Traversal.connects (H'.takes scope'.graph) scope'.limits b scope'.graph start target) := by
  unfold Traversal.connects
  split
  · exact L.pure rfl
  · exact L.bind_eq (reachable htraverses hab start) fun _ => L.pure rfl

include h

theorem reachableBackward :
    L.rel Eq (H.reachableBackward scope a start) (H'.reachableBackward scope' b start) :=
  L.bind (h.fresh (K.building.reverse hab)) fun _ _ hreversed =>
    reachable htraverses hreversed start

theorem pathSystemValue :
    L.rel K.gives (H.pathSystemValue scope a start) (H'.pathSystemValue scope' b start) := by
  have hsystem : L.rel Eq
      (Traversal.pathSystem (H.takes scope.graph) scope.limits a scope.graph start)
      (Traversal.pathSystem (H'.takes scope'.graph) scope'.limits b scope'.graph start) := by
    unfold Traversal.pathSystem
    rw [K.building.finals_eq hab]
    exact L.bind_eq (htraverses hab start) fun _ => L.pure rfl
  refine L.bind_eq hsystem fun ps => ?_
  refine L.bind h.handle fun handle handle' hhandle => ?_
  exact L.pure (K.pathSystem ps hhandle)

end Traversals

/-! ### All nodes -/

include h htraverses

/-- The rule of a node asks for children only, and compiles one step at most. -/
theorem rule [LawfulMonad m] [LawfulMonad n] (id : NodeId) {node : Node}
    (hchild : ∀ {c : NodeId}, c ∈ node.children → asks c)
    (hliteral : ∀ v, node = .literal v → K.gives v v)
    (hlookup : ∀ x, node = .var x → L.rel K.gives (H.lookup x) (H'.lookup x))
    (hstep : ∀ symbol symbol', node.symbol scope.graph = some symbol →
      node.symbol scope'.graph = some symbol' →
        K.building.makes (Automaton.single symbol) (Automaton.single symbol')) :
    L.rel K.gives (H.rule scope id node) (H'.rule scope' id node) := by
  cases node with
  | literal v => exact L.pure (hliteral v rfl)
  | var name => exact hlookup name rfl
  | attr target name =>
    exact h.read_eq (hchild (List.mem_singleton_self target))
      (fun _ _ hv => (K.reads hv).attributeOf name)
      (fun _ _ hread => K.simple (.of_attributeOf hread))
      fun _ _ he => Value.ne_cyclic_of_attributeOf he
  | compare op lhs rhs =>
    have hrhs := hchild (List.mem_cons_of_mem lhs (List.mem_singleton_self rhs))
    refine L.bind (h.result (hchild List.mem_cons_self)) fun x x' hx => ?_
    refine L.bind (h.result hrhs) fun y y' hy => ?_
    rw [← K.compareValues_eq op hx hy]
    exact L.pure (K.simple (.compareValues op x y))
  | and items => exact h.logical false false fun _ => hchild
  | or items => exact h.logical true false fun _ => hchild
  | not inner =>
    refine L.bind (h.result (hchild (List.mem_singleton_self inner))) fun v v' hv => ?_
    rw [← (K.reads hv).negate]
    exact L.pure (K.simple (.negate v))
  | call function args =>
    exact L.bind (L.mapM fun _ hc => h.result (hchild hc)) fun _ _ hvalues =>
      h.call function hvalues
  | vertices types =>
    refine L.pure ?_
    rw [← h.vertices]
    exact K.simple (.vertexSet _)
  | simplePath direction types roles guard =>
    exact h.publishAutomaton (h.fresh (hstep _ _ rfl rfl))
  | edgePath direction edge types roles guard =>
    exact h.publishAutomaton (h.fresh (hstep _ _ rfl rfl))
  | sequence parts => exact h.publishAutomaton (h.compileSequence fun _ => hchild)
  | alternative parts => exact h.publishAutomaton (h.compileAlternative id fun _ => hchild)
  | iterated inner iteration =>
    have hfragment := h.fragment (hchild (List.mem_singleton_self inner))
    cases iteration with
    | star => exact h.publishOperation hfragment (K.building.iterate true)
    | plus => exact h.publishOperation hfragment (K.building.iterate false)
  | optional inner =>
    exact h.publishOperation (h.fragment (hchild (List.mem_singleton_self inner)))
      K.building.optional
  | exponentiated inner count =>
    exact h.publishAutomaton (h.compilePower id (hchild (List.mem_singleton_self inner)) count)
  | transposed inner =>
    exact h.publishOperation (h.automatonOf (hchild (List.mem_singleton_self inner)))
      K.building.reverse
  | forwardVertexSet start path =>
    have hpath := hchild (List.mem_cons_of_mem start (List.mem_singleton_self path))
    refine L.bind_eq (h.vertexSetOf (hchild List.mem_cons_self) _) fun start => ?_
    refine L.bind (h.automatonOf hpath) fun a b hab => ?_
    refine L.bind_eq (reachable htraverses hab start) fun found => ?_
    exact L.pure (K.simple (.vertexSet found))
  | backwardVertexSet target path =>
    have hpath := hchild (List.mem_cons_of_mem target (List.mem_singleton_self path))
    refine L.bind_eq (h.vertexSetOf (hchild List.mem_cons_self) _) fun target => ?_
    refine L.bind (h.automatonOf hpath) fun a b hab => ?_
    refine L.bind_eq (h.reachableBackward htraverses hab target) fun found => ?_
    exact L.pure (K.simple (.vertexSet found))
  | pathExistence start path target =>
    have hpath := hchild (List.mem_cons_of_mem start List.mem_cons_self)
    have htarget := hchild (List.mem_cons_of_mem start
      (List.mem_cons_of_mem path (List.mem_singleton_self target)))
    refine L.bind_eq (h.vertexSetOf (hchild List.mem_cons_self) _) fun start => ?_
    refine L.bind_eq (h.vertexSetOf htarget _) fun target => ?_
    refine L.bind (h.automatonOf hpath) fun a b hab => ?_
    refine L.bind_eq (connects htraverses hab start target) fun connected => ?_
    exact L.pure (K.simple (.bool connected))
  | pathSystem start path =>
    have hpath := hchild (List.mem_cons_of_mem start (List.mem_singleton_self path))
    refine L.bind_eq (h.vertexSetOf (hchild List.mem_cons_self) _) fun start => ?_
    refine L.bind (h.automatonOf hpath) fun a b hab => ?_
    exact h.pathSystemValue htraverses hab start

end Related
end Host
end PathQuery

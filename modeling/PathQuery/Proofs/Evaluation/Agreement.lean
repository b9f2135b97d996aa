import PathQuery.Proofs.Evaluation.Related
import PathQuery.Proofs.Evaluation.Unoriented
import PathQuery.Proofs.Syntax.Dependence

/-!
# Hosts that agree

The rules see of a value neither the orientation of edges nor what the guards of an automaton are.
So two hosts over different monads, whose operations are related to each other, give related values
to every node.

* `Automaton.GuardedBy`: what is known of the guards of an automaton;
* `Lifting`: a relation between computations, for every relation between their results, that all
  failures keep;
* `Likeness`: a relation between values that differ in orientation at most;
* `Host.Agrees`: the operations of two hosts are related, and they make the same automata;
* `Agrees.rule`: so are the values of all nodes.
-/

namespace PathQuery

/-! ## Guards of automata -/

def Symbol.GuardedBy (admits : Guard → Prop) (symbol : Symbol) : Prop :=
  ∀ c guard, symbol.constraint = some c → c.guard = some guard → admits guard

def Automaton.GuardedBy (admits : Guard → Prop) (a : Automaton) : Prop :=
  ∀ t ∈ a.transitions, t.symbol.GuardedBy admits

namespace Symbol.GuardedBy

variable {admits : Guard → Prop}

theorem epsilon : GuardedBy admits .epsilon :=
  nofun

theorem step {c : EdgeConstraint} (h : ∀ guard, c.guard = some guard → admits guard) :
    GuardedBy admits (.step c) := by
  rintro _ guard ⟨⟩ hguard
  exact h guard hguard

theorem stepAlong {c : EdgeConstraint} (h : ∀ guard, c.guard = some guard → admits guard)
    (edge : NodeId) : GuardedBy admits (.stepAlong c edge) := by
  rintro _ guard ⟨⟩ hguard
  exact h guard hguard

theorem reversed (symbol : Symbol) (h : symbol.GuardedBy admits) :
    symbol.reversed.GuardedBy admits := by
  cases symbol with
  | epsilon => exact h
  | step c => exact step (c := c.reversed) fun guard hguard => h c guard rfl hguard
  | stepAlong c edge =>
    exact stepAlong (c := c.reversed) (fun guard hguard => h c guard rfl hguard) edge

/-- A step has the guard of its node. -/
theorem of_node {g : Graph} {node : Node} {symbol : Symbol} (h : node.symbol g = some symbol)
    (hguard : ∀ guard, node.guard = some guard → admits guard) : symbol.GuardedBy admits := by
  cases node with
  | simplePath direction types roles guard =>
    cases h
    exact step hguard
  | edgePath direction edge types roles guard =>
    cases h
    exact stepAlong hguard edge
  | _ => cases h

end Symbol.GuardedBy

namespace Automaton.GuardedBy

variable {admits : Guard → Prop} {a b : Automaton}

theorem twin (h : a.GuardedBy admits) : a.Twin (Symbol.GuardedBy admits) a :=
  .refl fun {t} ht => h t ht

theorem of_twin (h : a.Twin (Symbol.GuardedBy admits) b) : a.GuardedBy admits :=
  fun _ ht => h.symbols ht

theorem copy (h : a.GuardedBy admits) (register : Bool) (n : Nat) :
    (a.copy register n).1.GuardedBy admits :=
  of_twin (h.twin.copy register n n)

theorem epsilon (n : Nat) : (Automaton.epsilon n).1.GuardedBy admits :=
  of_twin (.epsilon n n)

theorem single {symbol : Symbol} (h : symbol.GuardedBy admits) (n : Nat) :
    (Automaton.single symbol n).1.GuardedBy admits :=
  of_twin (.single h n n)

theorem concat (ha : a.GuardedBy admits) (hb : b.GuardedBy admits) :
    (a.concat b).GuardedBy admits :=
  of_twin (ha.twin.concat .epsilon hb.twin)

theorem union (ha : a.GuardedBy admits) (hb : b.GuardedBy admits) (n : Nat) :
    (a.union b n).1.GuardedBy admits :=
  of_twin (ha.twin.union .epsilon hb.twin n n)

theorem iterate (h : a.GuardedBy admits) (allowEmpty : Bool) (n : Nat) :
    (a.iterate allowEmpty n).1.GuardedBy admits :=
  of_twin (h.twin.iterate .epsilon allowEmpty n n)

theorem optional (h : a.GuardedBy admits) (n : Nat) : (a.optional n).1.GuardedBy admits :=
  of_twin (h.twin.optional .epsilon n n)

theorem power (h : a.GuardedBy admits) (count n : Nat) :
    (a.power count n).1.GuardedBy admits :=
  of_twin (h.twin.power .epsilon count n n)

theorem reverse (h : a.GuardedBy admits) (n : Nat) : (a.reverse n).1.GuardedBy admits :=
  of_twin (h.twin.reverse Symbol.GuardedBy.reversed .epsilon n n)

theorem kept (admits : Guard → Prop) : Automaton.Kept (Automaton.GuardedBy admits) where
  epsilon := epsilon
  copy h := h.copy true
  concat := concat
  union := union
  iterate allowEmpty h := h.iterate allowEmpty
  optional := optional
  power count h := h.power count
  reverse := reverse

end Automaton.GuardedBy

/-! ## Computations -/

variable {m n : Type → Type} [Monad m] [Monad n] [MonadExceptOf Failure m]
  [MonadExceptOf Failure n]

structure Lifting (m n : Type → Type) [Monad m] [Monad n] [MonadExceptOf Failure m]
    [MonadExceptOf Failure n] where
  rel {α : Type} (r : α → α → Prop) : m α → n α → Prop
  pure {α : Type} {r : α → α → Prop} {a b : α} : r a b → rel r (Pure.pure a) (Pure.pure b)
  throw {α : Type} (r : α → α → Prop) (failure : Failure) :
    rel r (throwThe Failure failure) (throwThe Failure failure)
  bind {α γ : Type} {r : α → α → Prop} {s : γ → γ → Prop} {x : m α} {y : n α} {f : α → m γ}
    {k : α → n γ} : rel r x y → (∀ a b, r a b → rel s (f a) (k b)) → rel s (x >>= f) (y >>= k)

/-- All failures can be thrown on both sides. -/
def Lifting.toPartial (L : Lifting m n) : PartialLifting m n where
  rel := L.rel
  throws _ := True
  pure := L.pure
  throw r failure _ := L.throw r failure
  bind := L.bind

/-! ## Values -/

structure Likeness where
  alike : Value → Value → Prop
  /-- The guards that automata can have. -/
  admits : Guard → Prop
  canonical_eq {v v' : Value} : alike v v' → v.canonical = v'.canonical
  simple {v : Value} : v.IsSimple → alike v v
  automaton (h : Nat) {a : Automaton} : a.GuardedBy admits →
    alike (.automaton h a) (.automaton h a)
  pathSystem (h : Nat) (ps : PathSystem) : alike (.pathSystem h ps) (.pathSystem h ps)
  guardedBy {h : Nat} {a : Automaton} {v' : Value} : alike (.automaton h a) v' →
    a.GuardedBy admits

theorem Host.isEdge_canonical (node : NodeId) (e : Incidence) (v : Value) :
    isEdge node e v.canonical = isEdge node e v := by
  cases v <;> rfl

namespace Likeness

variable (K : Likeness)

theorem readsAs (g : Graph) {v v' : Value} (hv : K.alike v v') :
    v.ReadsAs g g (Both (Automaton.GuardedBy K.admits)) v' := by
  have hread : ∀ {α : Type} (f : Value → α), (∀ u, f u.canonical = f u) → f v = f v' :=
    fun f hf => Value.congr_of_canonical hf (K.canonical_eq hv)
  refine ⟨hread _ Value.asBool_canonical, hread _ Value.negate_canonical,
    fun name => hread _ (Value.attributeOf_canonical g name),
    fun context => hread (·.toVertexSet context) (Value.toVertexSet_canonical · context),
    fun node e => hread _ (Host.isEdge_canonical node e), fun context => ?_⟩
  rw [← hread (·.toAutomaton context) (Value.toAutomaton_canonical · context)]
  cases v with
  | automaton handle a => exact .inl ⟨a, a, rfl, rfl, rfl, K.guardedBy hv⟩
  | _ => exact .inr ⟨_, rfl, rfl⟩

/-- Both sides make the same automata in the same graph. -/
def kinship (g : Graph) : Kinship g g where
  alike := K.alike
  gives := K.alike
  building := .both (Automaton.GuardedBy.kept K.admits)
  handles := Eq
  reads := K.readsAs g
  compareValues_eq op {x x' y y'} hx hy :=
    calc
      Evaluation.compareValues op x y = Evaluation.compareValues op x.canonical y.canonical :=
        (Value.compareValues_canonical op x y).symm
      _ = Evaluation.compareValues op x'.canonical y'.canonical := by
        rw [K.canonical_eq hx, K.canonical_eq hy]
      _ = Evaluation.compareValues op x' y' := Value.compareValues_canonical op x' y'
  simple := K.simple
  automaton := by
    rintro h _ a _ rfl ⟨rfl, ha⟩
    exact K.automaton h ha
  pathSystem := by
    rintro h _ ps rfl
    exact K.pathSystem h ps

end Likeness

/-! ## Hosts -/

namespace Host

structure Agrees (L : Lifting m n) (K : Likeness) (H : Host m) (H' : Host n) : Prop where
  result (c : NodeId) : L.rel K.alike (H.result c) (H'.result c)
  guard {guard : Guard} (e : Incidence) : K.admits guard →
    L.rel Eq (H.guard guard e) (H'.guard guard e)
  lookup (name : String) : L.rel K.alike (H.lookup name) (H'.lookup name)
  call (function : String) {args args' : List Value} : List.Forall₂ K.alike args args' →
    L.rel K.alike (H.call function args) (H'.call function args')
  fresh {x : Fresh Automaton} {p : Automaton → Prop} : (∀ n, p (x n).1) →
    L.rel (Both p) (H.fresh x) (H'.fresh x)
  handle : L.rel Eq H.handle H'.handle

namespace Agrees

variable {L : Lifting m n} {K : Likeness} {H : Host m} {H' : Host n} (h : Agrees L K H H')
include h

theorem related (g : Graph) :
    Related L.toPartial (K.kinship g) (fun _ => True) K.admits H H' where
  throws _ := trivial
  vertices _ := rfl
  result _ := h.result _
  guard := h.guard
  call := h.call
  fresh := by
    rintro x _ ⟨rfl, hx⟩
    exact h.fresh hx
  handle := h.handle

theorem traverses (scope : Scope) :
    Traverses L.toPartial scope scope (Both (Automaton.GuardedBy K.admits)) H H' := by
  rintro a _ ⟨rfl, ha⟩ start
  refine L.toPartial.simulation.traverse scope.limits scope.graph
    ⟨fun _ => trivial, fun _ => trivial⟩ ?_ start
  intro t ht _ v e
  exact (h.related scope.graph).takes (fun _ _ => rfl) (ha t ht) fun _ _ _ => trivial

theorem rule [LawfulMonad m] [LawfulMonad n] (scope : Scope) (id : NodeId) {node : Node}
    (hliteral : ∀ v, node = .literal v → K.alike v v)
    (hguard : ∀ guard, node.guard = some guard → K.admits guard) :
    L.rel K.alike (H.rule scope id node) (H'.rule scope id node) := by
  refine (h.related scope.graph).rule (h.traverses scope) id (fun _ => trivial) hliteral
    (fun x _ => h.lookup x) ?_
  intro symbol symbol' hsymbol hsymbol'
  obtain rfl : symbol = symbol' := Option.some.inj (hsymbol.symm.trans hsymbol')
  exact ⟨rfl, Automaton.GuardedBy.single (.of_node hsymbol hguard)⟩

end Agrees
end Host
end PathQuery
